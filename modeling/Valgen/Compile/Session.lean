import Valgen.Compile.Context
import Valgen.Compile.Recipe
import Valgen.Rule
import Valgen.Schema.Pointer
import Valgen.Schema.Reference
import Valgen.Validator.Render
/-!
# Compile.Session — the compilation of one document

`Setup` is what a compiler is set up with.  A compilation may fail and keeps a state while it runs: the patterns that
were asked for, and whatever the resolution of references needs to remember (`ω`, nothing for a document that stands
alone).

The compilers of the keywords do not call each other; they are given the two things they need, how a subschema and how
a reference is compiled (`Sub`).
-/
namespace Valgen
namespace Compile

open Schema (Keywords Node Reference)

structure Setup where
  options : Options := {}
  recipes : RecipeBook := []
  rules : Pipeline := []
  /-- A validator that takes the place of a node's own, decided before anything else. -/
  hook : Node → Context → Option Validator := fun _ _ => none

namespace Setup

def style (setup : Setup) : Style := ⟨setup.options.dialect, setup.options.jsdocs⟩

def render (setup : Setup) (v : Validator) : String := v.render setup.style

end Setup

/-- **What a compilation remembers.** -/
structure State (ω : Type) where
  patterns : PatternCache := PatternCache.empty
  world : ω

/-- **A computation of the compiler**: it changes the state and may fail; what it did before it failed stays done. -/
abbrev CompileM (ω : Type) : Type → Type := ExceptT Error (StateM (State ω))

variable {ω : Type}

def applyRules (setup : Setup) (ctx : Context) (v : Validator) : CompileM ω Validator := do
  let state ← get
  let (v, patterns) := Pipeline.run setup.rules ctx.path v state.patterns
  set { state with patterns := patterns }
  return v

/-- **How the parts of a schema are compiled.** -/
structure Sub (ω : Type) where
  setup : Setup
  /-- A subschema, before the rules. -/
  raw : Node → Context → CompileM ω Validator
  /-- A reference. -/
  refer : String → Context → CompileM ω Validator

namespace Sub

/-- **A subschema, after the rules.** -/
def compile (sub : Sub ω) (node : Node) (ctx : Context) : CompileM ω Validator := do
  let v ← sub.raw node ctx
  applyRules sub.setup ctx v

/-- **A subschema that may be absent**, which accepts every value then. -/
def compileOrAny (sub : Sub ω) (node : Option Node) (ctx : Context) : CompileM ω Validator :=
  match node with
  | some node => sub.compile node ctx
  | none => return Validator.any

/-- **Subschemas in a list**, each at its index below a keyword, from the index `start` on. -/
def compileEach (sub : Sub ω) (keyword : String) (ctx : Context) (start : Nat) :
    List Node → CompileM ω (List Validator)
  | [] => return []
  | node :: rest => do
    let v ← sub.compile node (ctx.descend keyword (.index start))
    let vs ← compileEach sub keyword ctx (start + 1) rest
    return v :: vs

end Sub

end Compile
end Valgen
