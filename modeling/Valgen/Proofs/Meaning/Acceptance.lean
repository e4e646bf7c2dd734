import Mathlib.Algebra.Field.Rat
import Mathlib.Algebra.Order.Ring.Unbundled.Rat
import Mathlib.Data.List.Forall2
import Mathlib.Tactic.NormNum
import Valgen.Compile.Document
/-!
# Proofs.Meaning.Acceptance — which values a validator accepts

`accepts I v j` says that the validator `v` accepts the value `j`.  Numbers are compared by their value, whatever their
form.  What lies outside of validators is left open (`Interpretation`): the length of a text, patterns and formats, the
validators that a name or a text stands for, and the predicates of refinements.
-/
namespace Valgen

/-! ## Values -/

def Binary64.value (b : Binary64) : ℚ := (if b.negative then -1 else 1) * (b.mantissa : ℚ) * (2 : ℚ) ^ b.exponent

def Number.value : Number → ℚ
  | .whole value => value
  | .float value => value.value

def Number.IsMultiple (factor x : Number) : Prop := ∃ n : ℤ, x.value = n * factor.value

def Number.IsWhole (x : Number) : Prop := ∃ n : ℤ, x.value = n

theorem Number.value_eq_one {x : Number} (h : x.isOne = true) : x.value = 1 := by
  cases x with
  | whole value =>
    have hone : value = 1 := by simpa [isOne] using h
    simp [Number.value, hone]
  | float value =>
    have hone : value = Binary64.one := by simpa [isOne] using h
    rw [hone]
    show (if false = true then -1 else 1) * ((Nat.pow 2 52 : ℕ) : ℚ) * (2 : ℚ) ^ (-52 : ℤ) = 1
    norm_num

/-- **The multiples of one are the whole numbers.** -/
theorem Number.isMultiple_of_isOne {factor : Number} (h : factor.isOne = true) (x : Number) :
    factor.IsMultiple x ↔ x.IsWhole := by
  unfold IsMultiple IsWhole
  rw [Number.value_eq_one h]
  simp

namespace Json

mutual

/-- **Two values are the same**: numbers by their value, objects whatever the order of their members. -/
def Same : Json → Json → Prop
  | .null, .null => True
  | .bool a, .bool b => a = b
  | .number a, .number b => a.value = b.value
  | .string a, .string b => a = b
  | .array as, .array bs => SameItems as bs
  | .object as, .object bs => as.length = bs.length ∧ SameMembers as bs
  | _, _ => False

def SameItems : List Json → List Json → Prop
  | [], [] => True
  | a :: as, b :: bs => Same a b ∧ SameItems as bs
  | _, _ => False

/-- **Each member is the same as that of its key.** -/
def SameMembers : List (String × Json) → List (String × Json) → Prop
  | [], _ => True
  | (key, a) :: as, bs => (∃ b, Assoc.get? bs key = some b ∧ Same a b) ∧ SameMembers as bs

end

end Json

namespace Meaning

def ExactlyOne {α : Type} (p : α → Prop) : List α → Prop
  | [] => False
  | a :: rest => (p a ∧ ∀ b ∈ rest, ¬ p b) ∨ (¬ p a ∧ ExactlyOne p rest)

/-- **What validators and schemas leave open.** -/
structure Interpretation where
  /-- The length of a text. -/
  length : String → Nat
  /-- Whether a text matches a pattern. -/
  pattern : String → String → Prop
  format : StringFormat → String → Prop
  /-- The values of a validator that is given by its name or its text. -/
  named : String → Json → Prop
  predicate : String → Json → Prop
  /-- The values of the schema that a reference leads to. -/
  reference : String → Json → Prop

variable (I : Interpretation)

/-! ## Conditions -/

def textMeets (text : String) : Check → Prop
  | .min count => count ≤ I.length text
  | .max count => I.length text ≤ count
  | .regex source => I.pattern source text
  | _ => True

def numberMeets (x : Number) : Check → Prop
  | .multipleOf factor => factor.IsMultiple x
  | .gte bound => bound.value ≤ x.value
  | .gt bound => bound.value < x.value
  | .lte bound => x.value ≤ bound.value
  | .lt bound => x.value < bound.value
  | _ => True

def countMeets (count : Nat) : Check → Prop
  | .min least => least ≤ count
  | .max most => count ≤ most
  | _ => True

/-! ## Validators -/

mutual

/-- **A validator accepts a value**: its base and its refinements do, or it is nullable and the value is null. -/
def accepts : Validator → Json → Prop
  | ⟨base, modifiers⟩, j => (acceptsBase base j ∧ acceptsRefinements modifiers j) ∨
      (modifiers.any (fun m => m.slot == .nullable) = true ∧ j = .null)

def acceptsBase : Base → Json → Prop
  | .any, _ => True
  | .unknown, _ => True
  | .never, _ => False
  | .boolean, j => ∃ value, j = .bool value
  | .null, j => j = .null
  | .string format _ checks, j => ∃ text, j = .string text ∧ (∀ f, format = some f → I.format f text) ∧
      ∀ c ∈ checks, textMeets I text c.check
  | .number integer _ checks, j => ∃ x, j = .number x ∧ (integer = true → x.IsWhole) ∧
      ∀ c ∈ checks, numberMeets x c.check
  | .literal value, j => value.Same j
  | .enum values, j => ∃ text ∈ values, j = .string text
  | .object properties unlisted, j => ∃ members, j = .object members ∧ acceptsProperties properties members ∧
      acceptsUnlisted unlisted (members.filter (fun m => !(properties.map Property.key).contains m.1))
  | .array items checks, j => ∃ xs, j = .array xs ∧ (∀ x ∈ xs, accepts items x) ∧
      ∀ c ∈ checks, countMeets xs.length c.check
  | .tuple items rest, j => ∃ xs, j = .array xs ∧ items.length ≤ xs.length ∧ acceptsPlaces items xs ∧
      acceptsRest rest (xs.drop items.length)
  | .record values, j => ∃ members, j = .object members ∧ ∀ m ∈ members, accepts values m.2
  | .union members, j => acceptsSome members j
  | .xor members, j => acceptsOne members j
  | .intersection left right, j => accepts left j ∧ accepts right j
  | .reference expression _, j => I.named expression j
  | .custom text, j => I.named text j

def acceptsRefinements : List Modifier → Json → Prop
  | [], _ => True
  | m :: rest, j => acceptsRefinement m j ∧ acceptsRefinements rest j

/-- **A refinement holds of a value**; the markers ask for nothing. -/
def acceptsRefinement : Modifier → Json → Prop
  | .refine predicate _, j => I.predicate predicate j
  | .superRefine body, j => I.predicate body j
  | .pipe target, j => accepts target j
  | _, _ => True

/-- **The members of an object fit a shape**: one may be absent if it is optional or has a default. -/
def acceptsProperties : List Property → List (String × Json) → Prop
  | [], _ => True
  | ⟨key, value, _⟩ :: rest, members =>
    (∀ j, Assoc.get? members key = some j → accepts value j) ∧
      (Assoc.get? members key = none → value.isOptional = true ∨ value.hasDefault = true) ∧
      acceptsProperties rest members

/-- **What a shape says of the members it does not list.** -/
def acceptsUnlisted : Unlisted → List (String × Json) → Prop
  | .strip, _ => True
  | .strict, members => members = []
  | .passthrough, _ => True
  | .catchall values, members => ∀ m ∈ members, accepts values m.2

def acceptsPlaces : List Validator → List Json → Prop
  | v :: rest, x :: xs => accepts v x ∧ acceptsPlaces rest xs
  | _, _ => True

def acceptsRest : Option Validator → List Json → Prop
  | none, xs => xs = []
  | some v, xs => ∀ x ∈ xs, accepts v x

def acceptsSome : List Validator → Json → Prop
  | [], _ => False
  | v :: rest, j => accepts v j ∨ acceptsSome rest j

def acceptsOne : List Validator → Json → Prop
  | [], _ => False
  | v :: rest, j => (accepts v j ∧ ¬ acceptsSome rest j) ∨ (¬ accepts v j ∧ acceptsOne rest j)

end

variable {I} {j : Json}

theorem accepts_bare {v : Validator} (h : v.modifiers = []) : accepts I v j ↔ acceptsBase I v.base j := by
  cases v with
  | mk base modifiers =>
    obtain rfl : modifiers = [] := h
    simp [accepts, acceptsRefinements]

@[simp] theorem accepts_ofBase (base : Base) : accepts I (Validator.ofBase base) j ↔ acceptsBase I base j :=
  accepts_bare rfl

@[simp] theorem accepts_any : accepts I Validator.any j := (accepts_ofBase _).2 (by simp [acceptsBase])

/-- **A marker asks for nothing of a value that is there.** -/
theorem accepts_optional {v : Validator} (h : v.modifiers = []) : accepts I v.optional j ↔ accepts I v j := by
  cases v with
  | mk base modifiers =>
    obtain rfl : modifiers = [] := h
    simp [Validator.optional, Validator.mark, Validator.hasSlot, Validator.push, accepts, acceptsRefinements,
      acceptsRefinement, Modifier.slot]

theorem acceptsSome_iff {vs : List Validator} : acceptsSome I vs j ↔ ∃ v ∈ vs, accepts I v j := by
  induction vs with
  | nil => simp [acceptsSome]
  | cons v vs ih => simp [acceptsSome, ih]

theorem acceptsOne_iff {vs : List Validator} : acceptsOne I vs j ↔ ExactlyOne (fun v => accepts I v j) vs := by
  induction vs with
  | nil => simp [acceptsOne, ExactlyOne]
  | cons v vs ih => simp [acceptsOne, ExactlyOne, ih, acceptsSome_iff]

theorem acceptsProperties_iff {properties : List Property} {members : List (String × Json)} :
    acceptsProperties I properties members ↔ ∀ p ∈ properties,
      (∀ j, Assoc.get? members p.key = some j → accepts I p.value j) ∧
      (Assoc.get? members p.key = none → p.value.isOptional = true ∨ p.value.hasDefault = true) := by
  induction properties with
  | nil => simp [acceptsProperties]
  | cons p properties ih =>
    cases p
    simp [acceptsProperties, ih, and_assoc]

theorem exactlyOne_congr {α β : Type} {p : α → Prop} {q : β → Prop} {as : List α} {bs : List β}
    (h : List.Forall₂ (fun a b => p a ↔ q b) as bs) : ExactlyOne p as ↔ ExactlyOne q bs := by
  induction h with
  | nil => rfl
  | @cons a b as bs hab hrest ih =>
    have hnone : (∀ x ∈ as, ¬ p x) ↔ ∀ y ∈ bs, ¬ q y := by
      clear ih
      induction hrest with
      | nil => simp
      | cons hxy _ ih => simp [hxy, ih]
    simp [ExactlyOne, hab, hnone, ih]

end Meaning
end Valgen
