import Valgen.Proofs.Validator.Parts
/-!
# Proofs.Validator.Markers — the markers of a validator

Whether a validator is marked optional and whether it has a default (`Marks`).  A marker of another kind changes
neither, and so no rule does but the two that force a property to be optional or required, and those that are given as
functions.
-/
namespace Valgen

namespace Validator

variable (v : Validator)

@[simp] theorem hasSlot_ofBase (base : Base) (slot : Slot) : (ofBase base).hasSlot slot = false := rfl

@[simp] theorem hasSlot_push (m : Modifier) (slot : Slot) :
    (v.push m).hasSlot slot = (v.hasSlot slot || decide (m.slot = slot)) := by
  simp only [hasSlot, push, List.any_append, List.any_cons, List.any_nil, Bool.or_false]
  rfl

theorem hasSlot_mark (m : Modifier) (slot : Slot) :
    (v.mark m).hasSlot slot = (v.hasSlot slot || decide (m.slot = slot)) := by
  unfold mark
  split
  · rename_i hthere
    by_cases hslot : m.slot = slot
    · simp [← hslot, hthere]
    · simp [hslot]
  · rw [hasSlot_push]

theorem hasSlot_withoutSlot {slot other : Slot} (h : other ≠ slot) :
    (v.withoutSlot slot).hasSlot other = v.hasSlot other := by
  have hkept : ∀ m : Modifier, (m.slot != slot && m.slot == other) = (m.slot == other) := by
    intro m
    by_cases hm : m.slot = other
    · simp [hm, h]
    · simp [hm]
  simp only [hasSlot, withoutSlot, List.any_filter, hkept]

theorem hasSlot_replace (m : Modifier) (slot : Slot) :
    (v.replace m).hasSlot slot = (v.hasSlot slot || decide (m.slot = slot)) := by
  rw [replace, hasSlot_push]
  by_cases hslot : m.slot = slot
  · simp [hslot]
  · rw [hasSlot_withoutSlot v (Ne.symm hslot)]

@[simp] theorem isOptional_optional : v.optional.isOptional = true := by
  simp [optional, isOptional, hasSlot_mark, Modifier.slot]

@[simp] theorem isOptional_required : v.required.isOptional = false := by
  simp [required, isOptional, hasSlot, withoutSlot]

/-- **A validator is not marked optional, and has a default if and only if.** -/
structure Marks (defaulted : Prop) : Prop where
  mandatory : v.isOptional = false
  hasDefault : v.hasDefault = true ↔ defaulted

theorem marks_ofBase (base : Base) : (ofBase base).Marks False := ⟨rfl, by simp [hasDefault]⟩

variable {v}

/-- **Refinements are no markers.** -/
theorem Marks.push {defaulted : Prop} (h : v.Marks defaulted) {m : Modifier} (hm : m.slot = .refinement) :
    (v.push m).Marks defaulted := by
  constructor
  · simpa [isOptional, hm] using h.mandatory
  · simpa [Validator.hasDefault, hm] using h.hasDefault

end Validator

/-! ## Rules -/

/-- **Whether a rule may set or clear the markers.** -/
def Rule.forces : Rule → Bool
  | .forceOptional _ | .forceRequired _ | .user _ _ => true
  | _ => false

theorem Rule.isUser_of_forces {rule : Rule} (h : rule.forces = false) : rule.isUser = false := by
  cases rule with
  | forceOptional | forceRequired | user => cases h
  | _ => rfl

theorem Rule.Makes.hasSlot {rule : Rule} {v w : Validator} (h : rule.Makes v w) (hrule : rule.forces = false)
    {slot : Slot} (hslot : slot = .optional ∨ slot = .default) : w.hasSlot slot = v.hasSlot slot := by
  cases h with
  | same | strict | nonEmpty => rfl
  | branded => rcases hslot with rfl | rfl <;> simp [Validator.brand, Validator.hasSlot_replace, Modifier.slot]
  | optional | required | user => cases hrule
  | refined => rcases hslot with rfl | rfl <;> simp [Validator.refine, Modifier.slot]

theorem Pipeline.hasSlot_result {rules : Pipeline} (hrules : ∀ rule ∈ rules, rule.forces = false) (path : Path)
    (v : Validator) {slot : Slot} (hslot : slot = .optional ∨ slot = .default) :
    (rules.result path v).hasSlot slot = v.hasSlot slot :=
  result_induction path (P := fun w => w.hasSlot slot = v.hasSlot slot)
    (fun rule hmem w hw => ((rule.makes_effect path w).hasSlot (hrules rule hmem) hslot).trans hw) rfl

theorem Validator.Marks.result {v : Validator} {defaulted : Prop} (h : v.Marks defaulted) {rules : Pipeline}
    (hrules : ∀ rule ∈ rules, rule.forces = false) (path : Path) : (rules.result path v).Marks defaulted := by
  constructor
  · rw [isOptional, Pipeline.hasSlot_result hrules path v (.inl rfl)]
    exact h.mandatory
  · rw [Validator.hasDefault, Pipeline.hasSlot_result hrules path v (.inr rfl)]
    exact h.hasDefault

end Valgen
