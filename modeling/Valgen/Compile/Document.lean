import Valgen.Compile.Shape
/-!
# Compile.Document — schemas to validators

`compileRaw` compiles a node: the hook comes first, then the compiler of the node's kind, then the annotations.  A
reference is compiled as the session resolves it; one that stays in the document is replaced by the node it names, and
one that leads back to a node that is being replaced already ends the expansion.

The nodes of a document are finitely many and so are its references, hence the nesting of calls is bounded
(`Session.budget`).  `compile` and `compileValidator` compile a document that stands alone.
-/
namespace Valgen
namespace Compile

open Schema (Keywords Node Reference)

variable {ω : Type}

/-- **What a reference stands for**: a validator, or the node at a pointer of the document itself. -/
inductive Resolution where
  | validator (v : Validator)
  | inline (pointer : String)

/-- **The compilation of one document.** -/
structure Session (ω : Type) where
  setup : Setup
  root : Node
  /-- The name under which the root can be referred to. -/
  rootName : Option String
  resolve : String → Context → CompileM ω Resolution

def annotate (k : Keywords Node) (ctx : Context) (v : Validator) : Validator :=
  let v := if k.nullable = some true then v.nullable else v
  let v := if k.readOnly = some true then v.readonly else v
  let v := match k.description with
    | some text => v.describe text
    | none => v
  match k.default with
  | some value => if ctx.defaultsEnabled then v.withDefault value else v
  | none => v

/-- **The answer to a request of a recipe.** -/
def answer (sub : Sub ω) (k : Keywords Node) (ctx : Context) {references : List String} :
    Request references → CompileM ω Validator
  | .schema step below ruled =>
    let node := (k.child? step).getD Node.empty
    let here := below.foldl Context.child ctx
    if ruled then sub.compile node here else sub.raw node here
  | .reference target _ => sub.refer target ctx

def answerAll (sub : Sub ω) (k : Keywords Node) (ctx : Context) {references : List String} :
    List (Request references) → CompileM ω (List Validator)
  | [] => return []
  | request :: rest => do
    let v ← answer sub k ctx request
    let vs ← answerAll sub k ctx rest
    return v :: vs

def compileRecipe (sub : Sub ω) (recipe : Recipe) (k : Keywords Node) (ctx : Context) : CompileM ω Validator :=
  match recipe.requests k.shape ctx.path with
  | .error e => throw e.1
  | .ok requests => do
    let answers ← answerAll sub k ctx requests
    return recipe.make k.shape ctx.path sub.setup.style answers

def compileKind (sub : Sub ω) (kind : Kind) (k : Keywords Node) (ctx : Context) : CompileM ω Validator :=
  match kind with
  | .custom _ recipe => compileRecipe sub recipe k ctx
  | .object => compileObject sub k ctx
  | .array => compileArray sub k ctx
  | .string | .number | .integer | .boolean | .null => return primitive kind k.toFacts
  | .enum => return enumeration k.toFacts
  | .const => return constant k.toFacts
  | .allOf => compileAllOf sub k ctx
  | .anyOf => compileAnyOf sub k ctx
  | .oneOf => compileOneOf sub k ctx
  | .not => compileNot sub k ctx
  | .conditional => compileConditional sub k ctx
  | .multiType => compileMultiType sub k ctx
  | .reference =>
    match k.ref with
    | some reference => sub.refer reference ctx
    | none => return Validator.any
  | .any => return Validator.any

def compileNode (sub : Sub ω) (node : Node) (ctx : Context) : CompileM ω Validator :=
  match sub.setup.hook node ctx with
  | some v => return v
  | none =>
    match node with
    | .bool true => return Validator.any
    | .bool false => return Validator.never
    | .object k => do
      let v ← compileKind sub (select sub.setup.recipes k) k ctx
      return annotate k ctx v

namespace Session

/-- **What a reference to a node becomes that is being expanded already**: the name of the root if it is the root and
has one, else any value. -/
def recursion (s : Session ω) (key : String) : Validator :=
  match s.rootName with
  | some name => if key.isEmpty then Validator.lazy name else Validator.any
  | none => Validator.any

/-- **A reference**, where `active` holds the keys of the nodes that are being expanded. -/
def refer (s : Session ω) (compileAt : List String → Node → Context → CompileM ω Validator) (active : List String)
    (reference : String) (ctx : Context) : CompileM ω Validator := do
  match ← s.resolve reference ctx with
  | .validator v => return v
  | .inline pointer =>
    let key := Reference.keyOf pointer
    if active.contains key then return s.recursion key
    else
      match s.root.pointer? key with
      | none => throw (.unresolvable reference ctx.path)
      | some target => compileAt (key :: active) target ctx

/-- **A node before the rules**; `budget` bounds the nesting of the calls. -/
def compileRaw (s : Session ω) : Nat → List String → Node → Context → CompileM ω Validator
  | 0, _, _, _ => throw .budgetSpent
  | budget + 1, active, node, ctx =>
    let sub : Sub ω := {
      setup := s.setup
      raw := compileRaw s budget active
      refer := s.refer (compileRaw s budget) active }
    compileNode sub node ctx

/-- **A bound on the nesting of calls**: on the way from the root, or from the target of a reference, to the next
reference every level costs at most two calls, and no reference is expanded inside itself. -/
def budget (s : Session ω) : Nat :=
  let references := s.root.refs.length + s.setup.recipes.references.length
  (references + 1) * (2 * s.root.height + 3) + 1

/-- **A node after the rules.** -/
def compile (s : Session ω) (active : List String) (node : Node) (ctx : Context) : CompileM ω Validator := do
  let v ← s.compileRaw s.budget active node ctx
  applyRules s.setup ctx v

/-- **The root of the document**, which counts as being expanded. -/
def compileRoot (s : Session ω) (ctx : Context) : CompileM ω Validator := s.compile [""] s.root ctx

end Session

/-! ## Documents that stand alone -/

/-- **Options that cannot go together**: why, and what to do about it. -/
def checkOptions (options : Options) : Except Error Unit :=
  if options.typeAlias.isSome && options.name.isNone then
    .error (.conflict "a type alias requires a name for the exported validator" none)
  else if options.typeAlias.isSome && options.wrap != .esm then
    .error (.conflict ("a type alias cannot be emitted with `" ++ options.wrap.name ++ "` wrapping")
      (some "type aliases are only emitted for `esm` modules"))
  else if options.wrap == .const && options.name.isNone then
    .error (.conflict "`const` wrapping requires a name" none)
  else .ok ()

/-- **References of a document that stands alone**: all of them stay in it. -/
def resolveLocally (reference : String) (ctx : Context) : CompileM Unit Resolution :=
  let r := Reference.parse reference
  if r.document.isEmpty then return .inline r.fragment else throw (.unresolvable reference ctx.path)

def standalone (setup : Setup) (root : Node) : Session Unit where
  setup := setup
  root := root
  rootName := setup.options.name.map Name.safeIdentifier
  resolve := resolveLocally

/-- **The compilation of a document that stands alone**, from a cache of patterns to the next. -/
def runStandalone (setup : Setup) (root : Node) (patterns : PatternCache) : Except Error Validator × PatternCache :=
  match checkOptions setup.options with
  | .error e => (.error e, patterns)
  | .ok () =>
    let (outcome, state) :=
      ((standalone setup root).compileRoot (Context.root setup.options none)).run.run ⟨patterns, ()⟩
    (outcome, state.patterns)

def compileValidator (setup : Setup) (root : Node) : Except Error Validator :=
  (runStandalone setup root PatternCache.empty).1

def compileText (setup : Setup) (root : Node) : Except Error String :=
  (compileValidator setup root).map setup.render

end Compile
end Valgen
