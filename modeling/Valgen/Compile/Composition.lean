import Valgen.Compile.Session
/-!
# Compile.Composition — `allOf`, `anyOf`, `oneOf`, `not`, conditions and several types

The members of `allOf` are intersected as a balanced tree, so that the nesting of the result grows with the logarithm
of their number.  `not` and `if` become functions in the text, since the library has no validators for them.
-/
namespace Valgen
namespace Compile

open Schema (Keywords Node)

variable {ω : Type}

/-- **A member of `allOf`**: truth values are written as objects. -/
def asObject : Node → Node
  | .bool true => Node.empty
  | .bool false => Node.nothing
  | node => node

/-- **The intersection of members as a balanced tree**: one member is compiled at its index, and of several the first
half before the second; of none it is the validator of no value. -/
def intersect (sub : Sub ω) (ctx : Context) : List (Node × Nat) → CompileM ω Validator
  | [] => return Validator.never
  | [(node, index)] => sub.compile node (ctx.descend "allOf" (.index index))
  | first :: second :: rest => do
    let members := first :: second :: rest
    let half := members.length / 2
    let left ← intersect sub ctx (members.take half)
    let right ← intersect sub ctx (members.drop half)
    return Validator.ofBase (.intersection left right)
termination_by members => members.length
decreasing_by
  · simp only [List.length_take, List.length_cons]; omega
  · simp only [List.length_drop, List.length_cons]; omega

def compileAllOf (sub : Sub ω) (k : Keywords Node) (ctx : Context) : CompileM ω Validator :=
  intersect sub ctx ((k.allOf.getD []).zipIdx.map (fun member => (asObject member.1, member.2)))

/-- **Members of which some, or exactly one, has to accept.**  One member stands for itself, none for every value. -/
def compileAlternatives (sub : Sub ω) (keyword : String) (join : List Validator → Base) (members : List Node)
    (ctx : Context) : CompileM ω Validator :=
  match members with
  | [] => return Validator.any
  | [node] => sub.compile node (ctx.descend keyword (.index 0))
  | _ => do
    let vs ← sub.compileEach keyword ctx 0 members
    return Validator.ofBase (join vs)

def compileAnyOf (sub : Sub ω) (k : Keywords Node) (ctx : Context) : CompileM ω Validator :=
  compileAlternatives sub "anyOf" .union (k.anyOf.getD []) ctx

def compileOneOf (sub : Sub ω) (k : Keywords Node) (ctx : Context) : CompileM ω Validator :=
  compileAlternatives sub "oneOf" .xor (k.oneOf.getD []) ctx

def failsPredicate (text : String) : String := "(value) => !" ++ text ++ ".safeParse(value).success"

def compileNot (sub : Sub ω) (k : Keywords Node) (ctx : Context) : CompileM ω Validator :=
  match k.not with
  | none => return Validator.any
  | some node => do
    let negated ← sub.compile node (ctx.child (.key "not"))
    let message := (k.messageFor "not").getD "Invalid input: Should NOT be valid against schema"
    return Validator.any.refine (failsPredicate (sub.setup.render negated)) (some message)

/-- **The field of an error that lists its issues.** -/
def issuesField : Dialect → String
  | .v3 => "errors"
  | .v4 => "issues"

/-- **The function that checks a value by a condition and its two branches.** -/
def conditionBody (condition yes no issues : String) : String :=
  "(value, ctx) => \x7b const result = " ++ condition ++ ".safeParse(value).success ? " ++ yes ++
    ".safeParse(value) : " ++ no ++ ".safeParse(value); if (!result.success) \x7b result.error." ++ issues ++
    ".forEach((issue) => ctx.addIssue(issue)); \x7d \x7d"

/-- **A condition**: `then` where `if` accepts, `else` where it does not. -/
def compileConditional (sub : Sub ω) (k : Keywords Node) (ctx : Context) : CompileM ω Validator :=
  match k.ifSchema with
  | none => throw (.malformed "if" "`then`/`else` without `if`" ctx.path)
  | some node => do
    let condition ← sub.compile node (ctx.child (.key "if"))
    let yes ← sub.compileOrAny k.thenSchema (ctx.child (.key "then"))
    let no ← sub.compileOrAny k.elseSchema (ctx.child (.key "else"))
    let body := conditionBody (sub.setup.render condition) (sub.setup.render yes) (sub.setup.render no)
      (issuesField ctx.dialect)
    return (Validator.ofBase (.union [yes, no])).superRefine body

/-- **A schema narrowed to one of its types**, without the annotations that the whole keeps. -/
def narrow (k : Keywords Node) (typeName : String) : Keywords Node :=
  { k with type := some (.single typeName), description := none, nullable := none, readOnly := none }

/-- **The branches of the types**, each without the default. -/
def compileTypes (sub : Sub ω) (k : Keywords Node) (ctx : Context) : List String → CompileM ω (List Validator)
  | [] => return []
  | typeName :: rest => do
    let v ← sub.raw (.object (narrow k typeName)) ctx.withoutDefault
    let vs ← compileTypes sub k ctx rest
    return v :: vs

/-- **Several types**: a union with a branch for each. -/
def compileMultiType (sub : Sub ω) (k : Keywords Node) (ctx : Context) : CompileM ω Validator := do
  match ← compileTypes sub k ctx k.types with
  | [v] => return v
  | vs => return Validator.ofBase (.union vs)

end Compile
end Valgen
