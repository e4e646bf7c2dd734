import Valgen.Path.Pattern
import Valgen.Validator.Basic
/-!
# Rule — changes to compiled validators by shape and place

Every validator that leaves the compiler passes through a list of rules.  A rule looks at the validator and its path
and either gives a replacement or leaves it alone; each rule sees what the one before it made.  What it decides may
depend on the patterns that the path matches (`Inquiry`): it asks a `PatternCache` for them, and the rules that are
built in do so only when the validator's shape does not settle the matter already.  Any other decision is a rule, too
(`Rule.user`).
-/
namespace Valgen

/-- **A decision about what stands at a path**, which may ask whether the path matches a pattern, any number
of times. -/
inductive Inquiry (α : Type) where
  | answer (value : α)
  | ask (pattern : String) (next : Bool → Inquiry α)

namespace Inquiry

variable {α : Type}

/-- **The decision at a path**, and the cache after its questions. -/
def run (path : Path) : Inquiry α → PatternCache → α × PatternCache
  | .answer value, cache => (value, cache)
  | .ask pattern next, cache =>
    let (hit, cache) := cache.ask pattern path
    run path (next hit) cache

/-- **The decision at a path.** -/
def decided (path : Path) : Inquiry α → α
  | .answer value => value
  | .ask pattern next => decided path (next ((Pattern.parse pattern).matchesPath path))

/-- **What is decided does not depend on the questions asked before.** -/
theorem run_fst (path : Path) : ∀ (inquiry : Inquiry α) (cache : PatternCache),
    (inquiry.run path cache).1 = inquiry.decided path
  | .answer _, _ => rfl
  | .ask pattern next, cache => by
    rw [run, decided, ← PatternCache.ask_fst cache pattern path]
    exact run_fst path _ _

end Inquiry

inductive Rule where
  /-- Objects that strip unlisted keys become strict. -/
  | strictObjects
  /-- Arrays get at least one item. -/
  | nonEmptyArrays
  /-- Nodes whose last step is the key `field` get a brand. -/
  | brandField (field brand : String)
  /-- Nodes at matching paths become optional. -/
  | forceOptional (pattern : String)
  /-- Nodes at matching paths stop being optional. -/
  | forceRequired (pattern : String)
  /-- Nodes at matching paths get a predicate more. -/
  | refineAt (name pattern predicate : String) (message : Option String)
  /-- Whatever a function of the path and the node decides. -/
  | user (name : String) (process : Path → Validator → Inquiry (Option Validator))

namespace Rule

/-- **The name of a rule**, by which it can be removed. -/
def name : Rule → String
  | .strictObjects => "strict-objects"
  | .nonEmptyArrays => "non-empty-arrays"
  | .brandField _ _ => "brand-field"
  | .forceOptional _ => "force-optional"
  | .forceRequired _ => "force-required"
  | .refineAt name _ _ _ => name
  | .user name _ => name

/-- **Whether a condition demands an item.** -/
def demandsItem (c : Constraint) : Bool :=
  match c.check with
  | .min count => 1 ≤ count
  | _ => false

def isMin (c : Constraint) : Bool :=
  match c.check with
  | .min _ => true
  | _ => false

/-- **A strict object for one that strips.** -/
def makeStrict (v : Validator) : Option Validator :=
  match v.base with
  | .object properties .strip => some { v with base := .object properties .strict }
  | _ => none

/-- **An array with an item at least** for one that may be empty. -/
def makeNonEmpty (v : Validator) : Option Validator :=
  match v.base with
  | .array items checks =>
    if checks.any demandsItem then none
    else some { v with base := .array items (⟨.min 1, none⟩ :: checks.filter (fun c => !isMin c)) }
  | _ => none

def whenMatched (pattern : String) (changed : Validator) : Inquiry (Option Validator) :=
  .ask pattern (fun hit => .answer (if hit then some changed else none))

/-- **The replacement a rule gives**, if any. -/
def process (rule : Rule) (path : Path) (v : Validator) : Inquiry (Option Validator) :=
  match rule with
  | .strictObjects => .answer (makeStrict v)
  | .nonEmptyArrays => .answer (makeNonEmpty v)
  | .brandField field brand => .answer (if path.getLast? = some (.key field) then some (v.brand brand) else none)
  | .forceOptional pattern => if v.isOptional then .answer none else whenMatched pattern v.optional
  | .forceRequired pattern => if v.isOptional then whenMatched pattern v.required else .answer none
  | .refineAt _ pattern predicate message => whenMatched pattern (v.refine predicate message)
  | .user _ process => process path v

/-- **What a rule makes of a validator.** -/
def effect (rule : Rule) (path : Path) (v : Validator) : Validator := ((rule.process path v).decided path).getD v

end Rule

abbrev Pipeline : Type := List Rule

namespace Pipeline

/-- **One rule more at a place**; a place behind the end is the end. -/
def insertAt (rules : Pipeline) (index : Nat) (rule : Rule) : Pipeline :=
  rules.take index ++ rule :: rules.drop index

def remove (rules : Pipeline) (name : String) : Pipeline := rules.filter (fun r => r.name != name)

/-- **The validator after every rule**, and the cache after their questions. -/
def run : Pipeline → Path → Validator → PatternCache → Validator × PatternCache
  | [], _, v, cache => (v, cache)
  | rule :: rest, path, v, cache =>
    let (changed, cache) := (rule.process path v).run path cache
    run rest path (changed.getD v) cache

def result (rules : Pipeline) (path : Path) (v : Validator) : Validator :=
  rules.foldl (fun v rule => rule.effect path v) v

theorem result_cons (rule : Rule) (rest : Pipeline) (path : Path) (v : Validator) :
    result (rule :: rest) path v = result rest path (rule.effect path v) := rfl

/-- **What the rules make of a validator does not depend on the questions asked before.** -/
theorem run_fst (rules : Pipeline) (path : Path) :
    ∀ (v : Validator) (cache : PatternCache), (run rules path v cache).1 = result rules path v := by
  induction rules with
  | nil => intro v cache; rfl
  | cons rule rest ih =>
    intro v cache
    rw [run, result_cons, ih, Inquiry.run_fst]
    rfl

end Pipeline
end Valgen
