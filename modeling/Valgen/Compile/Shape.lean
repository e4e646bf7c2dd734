import Valgen.Compile.Composition
import Valgen.Compile.Primitive
/-!
# Compile.Shape — objects and arrays

An object without `properties` is a map with arbitrary keys.  A property is optional unless it is required or has a
default.  An array is a tuple if its schema gives places to its items.
-/
namespace Valgen
namespace Compile

open Schema (Keywords Node)

variable {ω : Type}

def compileProperties (sub : Sub ω) (k : Keywords Node) (ctx : Context) :
    List (String × Node) → CompileM ω (List Property)
  | [] => return []
  | (name, node) :: rest => do
    let here := ctx.descend "properties" (.key name)
    let raw ← sub.raw node here
    let marked := if k.isRequired name || raw.hasDefault then raw else raw.optional
    let value ← applyRules sub.setup here marked
    let properties ← compileProperties sub k ctx rest
    return ⟨name, value, node.keywords?.bind (fun c => c.description)⟩ :: properties

def compileUnlisted (sub : Sub ω) (k : Keywords Node) (ctx : Context) : CompileM ω Unlisted :=
  match k.additionalProperties with
  | none => return .strip
  | some (.bool false) => return .strict
  | some (.bool true) => return .passthrough
  | some node => do
    let values ← sub.compile node (ctx.child (.key "additionalProperties"))
    return .catchall values

/-- **A map with arbitrary keys**; only a schema that is an object restricts its values. -/
def compileRecord (sub : Sub ω) (k : Keywords Node) (ctx : Context) : CompileM ω Validator :=
  match k.additionalProperties with
  | some (.object values) => do
    let v ← sub.compile (.object values) (ctx.child (.key "additionalProperties"))
    return Validator.ofBase (.record v)
  | _ => return Validator.ofBase (.record Validator.any)

/-- **The object itself**, without the compositions beside it. -/
def compileObjectBase (sub : Sub ω) (k : Keywords Node) (ctx : Context) : CompileM ω Validator :=
  match k.properties with
  | none => compileRecord sub k ctx
  | some entries => do
    let properties ← compileProperties sub k ctx entries
    let rest ← compileUnlisted sub k ctx
    return Validator.ofBase (.object properties rest)

/-- **The intersection with a composition**, if it is there. -/
def intersectIf (present : Bool) (v : Validator) (composition : CompileM ω Validator) : CompileM ω Validator :=
  if present then do
    let w ← composition
    return Validator.ofBase (.intersection v w)
  else return v

def compileObject (sub : Sub ω) (k : Keywords Node) (ctx : Context) : CompileM ω Validator := do
  let v ← compileObjectBase sub k ctx
  let v ← intersectIf k.allOf.isSome v (compileAllOf sub k ctx)
  let v ← intersectIf k.anyOf.isSome v (compileAnyOf sub k ctx)
  intersectIf k.oneOf.isSome v (compileOneOf sub k ctx)

/-- **The items behind the places of a tuple**, if more are allowed. -/
def compileRest (sub : Sub ω) (k : Keywords Node) (ctx : Context) : CompileM ω (Option Validator) :=
  match k.items with
  | some (.single (.bool false)) => return none
  | some (.single node) => do
    let v ← sub.compile node (ctx.child (.key "items"))
    return some v
  | _ => return none

def sizeChecks (k : Keywords Node) : List Constraint :=
  constraint? k.toFacts "minItems" (k.minItems.map .min) ++ constraint? k.toFacts "maxItems" (k.maxItems.map .max)

def compileArray (sub : Sub ω) (k : Keywords Node) (ctx : Context) : CompileM ω Validator :=
  match k.prefixItems with
  | some nodes => do
    let items ← sub.compileEach "prefixItems" ctx 0 nodes
    let rest ← compileRest sub k ctx
    return Validator.ofBase (.tuple items rest)
  | none =>
    match k.items with
    | some (.tuple nodes) => do
      let items ← sub.compileEach "items" ctx 0 nodes
      return Validator.ofBase (.tuple items none)
    | some (.single node) => do
      let item ← sub.compile node (ctx.child (.key "items"))
      return Validator.ofBase (.array item (sizeChecks k))
    | none => return Validator.ofBase (.array Validator.any (sizeChecks k))

end Compile
end Valgen
