import Valgen.Proofs.Validator.Parts
/-!
# Proofs.Validator.Shapes — the shapes that rules are there to remove

`strictObjects` is there for objects that strip unlisted keys and `nonEmptyArrays` for arrays that may be empty
(`Rule.Lacks`).  A rule leaves none of its own at the base of a validator, and no other rule brings one back, so a
pipeline that holds the rule ends without one; and where there is none, the rules leave the base alone.
-/
namespace Valgen

namespace Rule

/-- **A base that a shape rule is there to remove.** -/
inductive Lacks : Rule → Base → Prop
  | strips (properties : List Property) : Lacks .strictObjects (.object properties .strip)
  | mayBeEmpty {items : Validator} {checks : List Constraint} : checks.any demandsItem = false →
    Lacks .nonEmptyArrays (.array items checks)

theorem lacks_object_iff {rule : Rule} {properties : List Property} {rest : Unlisted} :
    rule.Lacks (.object properties rest) ↔ rule = .strictObjects ∧ rest = .strip := by
  constructor
  · rintro ⟨⟩
    exact ⟨rfl, rfl⟩
  · rintro ⟨rfl, rfl⟩
    exact .strips properties

theorem lacks_array_iff {rule : Rule} {items : Validator} {checks : List Constraint} :
    rule.Lacks (.array items checks) ↔ rule = .nonEmptyArrays ∧ checks.any demandsItem = false := by
  constructor
  · rintro (_ | h)
    exact ⟨rfl, h⟩
  · rintro ⟨rfl, h⟩
    exact .mayBeEmpty h

theorem not_lacks_strict_iff {base : Base} :
    ¬ Lacks .strictObjects base ↔ ∀ properties, base ≠ .object properties .strip := by
  constructor
  · rintro h properties rfl
    exact h (.strips properties)
  · rintro h ⟨properties⟩
    exact h properties rfl

theorem not_demandsItem_iff {c : Constraint} :
    demandsItem c = false ↔ ∀ n message, c = ⟨.min n, message⟩ → ¬ 1 ≤ n := by
  obtain ⟨check, message⟩ := c
  cases check <;> simp [demandsItem]

theorem not_lacks_nonEmpty_iff {base : Base} : ¬ Lacks .nonEmptyArrays base ↔
    ∀ items checks, base = .array items checks → ∃ n message, ⟨.min n, message⟩ ∈ checks ∧ 1 ≤ n := by
  have hdemands : ∀ checks : List Constraint, ¬ checks.any demandsItem = false ↔
      ∃ n message, ⟨.min n, message⟩ ∈ checks ∧ 1 ≤ n := by
    intro checks
    simp only [List.any_eq_false, Bool.not_eq_true, not_demandsItem_iff]
    grind
  constructor
  · rintro h items checks rfl
    exact (hdemands checks).1 (fun hnone => h (.mayBeEmpty hnone))
  · rintro h (_ | hnone)
    exact (hdemands _).2 (h _ _ rfl) hnone

theorem Makes.not_lacks {rule other : Rule} {v w : Validator} (h : other.Makes v w) (hother : other.isUser = false)
    (hv : ¬ rule.Lacks v.base) : ¬ rule.Lacks w.base := by
  cases h with
  | same => exact hv
  | strict hbase => rintro ⟨⟩
  | nonEmpty hbase =>
    rintro (_ | hnone)
    simp [demandsItem] at hnone
  | branded => exact hv
  | optional => rwa [Validator.optional, Validator.base_mark]
  | required => exact hv
  | refined => exact hv
  | user => cases hother

theorem not_lacks_effect (rule : Rule) (path : Path) (v : Validator) : ¬ rule.Lacks (rule.effect path v).base := by
  unfold effect
  cases rule with
  | strictObjects =>
    rw [process, makeStrict, Inquiry.decided]
    split
    · rintro ⟨⟩
    · rename_i hother
      rw [Option.getD_none]
      intro hlacks
      cases hbase : v.base <;> rw [hbase] at hlacks <;> cases hlacks
      exact hother _ hbase
  | nonEmptyArrays =>
    rw [process, makeNonEmpty, Inquiry.decided]
    split
    · split
      · rename_i items checks hbase hdemands
        rw [Option.getD_none, hbase]
        rintro (_ | hnone)
        rw [hdemands] at hnone
        cases hnone
      · rintro (_ | hnone)
        simp [demandsItem] at hnone
    · rename_i hother
      rw [Option.getD_none]
      intro hlacks
      cases hbase : v.base <;> rw [hbase] at hlacks <;> cases hlacks
      exact hother _ _ hbase
  | _ => rintro ⟨⟩

theorem makeStrict_of_not_lacks {v : Validator} (h : ¬ Lacks .strictObjects v.base) : makeStrict v = none := by
  unfold makeStrict
  split
  · rename_i properties hbase
    exact absurd (hbase ▸ .strips properties) h
  · rfl

theorem makeNonEmpty_of_not_lacks {v : Validator} (h : ¬ Lacks .nonEmptyArrays v.base) : makeNonEmpty v = none := by
  unfold makeNonEmpty
  split
  · rename_i items checks hbase
    by_cases hdemands : checks.any demandsItem = true
    · rw [if_pos hdemands]
    · exact absurd (hbase ▸ .mayBeEmpty (Bool.eq_false_iff.2 hdemands)) h
  · rfl

theorem Makes.base {rule : Rule} {v w : Validator} (h : rule.Makes v w) (hrule : rule.isUser = false)
    (hstrict : rule ≠ .strictObjects) (harrays : rule ≠ .nonEmptyArrays) : w.base = v.base := by
  cases h with
  | same | branded | required | refined => rfl
  | strict => exact absurd rfl hstrict
  | nonEmpty => exact absurd rfl harrays
  | optional => exact v.base_mark _
  | user => cases hrule

theorem base_effect_of_not_lacks {rule : Rule} (hrule : rule.isUser = false) {v : Validator} (h : ¬ rule.Lacks v.base)
    (path : Path) : (rule.effect path v).base = v.base := by
  have hmakes := rule.makes_effect path v
  cases rule with
  | strictObjects => rw [effect, process, makeStrict_of_not_lacks h, Inquiry.decided, Option.getD_none]
  | nonEmptyArrays => rw [effect, process, makeNonEmpty_of_not_lacks h, Inquiry.decided, Option.getD_none]
  | _ => exact hmakes.base hrule Rule.noConfusion Rule.noConfusion

end Rule

namespace Pipeline

theorem not_lacks_result {rule : Rule} (path : Path) : ∀ {rules : Pipeline},
    (∀ rule ∈ rules, rule.isUser = false) → ∀ v : Validator, rule ∈ rules → ¬ rule.Lacks (rules.result path v).base
  | other :: rest, hrules, v, hmem => by
    obtain ⟨_, hothers⟩ := List.forall_mem_cons.1 hrules
    rw [result_cons]
    rcases List.mem_cons.1 hmem with rfl | hrest
    · exact result_induction path (fun r hr w hw => (r.makes_effect path w).not_lacks (hothers r hr) hw)
        (rule.not_lacks_effect path v)
    · exact not_lacks_result path hothers _ hrest

theorem base_result_of_not_lacks (path : Path) : ∀ {rules : Pipeline}, (∀ rule ∈ rules, rule.isUser = false) →
    ∀ {v : Validator}, (∀ rule ∈ rules, ¬ rule.Lacks v.base) → (rules.result path v).base = v.base
  | [], _, _, _ => rfl
  | rule :: rest, hrules, v, h => by
    obtain ⟨hrule, hothers⟩ := List.forall_mem_cons.1 hrules
    obtain ⟨hlacks, hrest⟩ := List.forall_mem_cons.1 h
    have hbase := Rule.base_effect_of_not_lacks hrule hlacks path
    rw [result_cons, base_result_of_not_lacks path hothers (by rwa [hbase]), hbase]

end Pipeline
end Valgen
