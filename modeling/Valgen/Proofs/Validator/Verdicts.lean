import Mathlib.Tactic.SplitIfs
import Valgen.Proofs.Validator.Calls
import Valgen.Proofs.Validator.Markers
import Valgen.Proofs.Validator.Shapes
/-!
# Proofs.Validator.Verdicts — rules that have the last word

Rules run one after another, and what a later one says about a kind of modifiers replaces what the earlier ones said
(`Pipeline.read_result`).  So the last rule that forces a validator at its path decides whether it is optional
(`Pipeline.isOptional_result`), and running the same rules again says the same about every kind.  Only the order of
different kinds may change, and that does not show in the text (`Pipeline.text_run_again`).
-/
namespace Valgen

namespace Rule

/-- **Whether a rule makes what stands at a path optional or required**, if it does either. -/
def forced? (path : Path) : Rule → Option Bool
  | .forceOptional pattern => if (Pattern.parse pattern).matchesPath path then some true else none
  | .forceRequired pattern => if (Pattern.parse pattern).matchesPath path then some false else none
  | _ => none

/-- **What a rule leaves of a kind of modifiers at a path**, if it is about that kind. -/
def leaves? (path : Path) : Rule → Slot → Option (List Modifier)
  | .brandField field brand, .brand => if path.getLast? = some (.key field) then some [.brand brand] else none
  | .forceOptional pattern, .optional => if (Pattern.parse pattern).matchesPath path then some [.optional] else none
  | .forceRequired pattern, .optional => if (Pattern.parse pattern).matchesPath path then some [] else none
  | _, _ => none

/-- **The rules that add no refinement** and are not given as functions. -/
def isBuiltIn : Rule → Bool
  | .refineAt _ _ _ _ | .user _ _ => false
  | _ => true

theorem isUser_of_isBuiltIn {rule : Rule} (h : rule.isBuiltIn = true) : rule.isUser = false := by
  cases rule with
  | refineAt | user => cases h
  | _ => rfl

/-! ## One rule -/

-- The two rules that force look at the marker first and ask for the path only if it is not as they want it.  They could
-- as well set it in any case.
theorem effect_forceOptional (pattern : String) (path : Path) (v : Validator) :
    effect (.forceOptional pattern) path v =
      if (Pattern.parse pattern).matchesPath path then v.optional else v := by
  rw [effect, process]
  split
  · rename_i hoptional
    have hsame : v.optional = v := if_pos hoptional
    rw [hsame, ite_self, Inquiry.decided, Option.getD_none]
  · rw [decided_whenMatched]
    split <;> rfl

theorem effect_forceRequired (pattern : String) (path : Path) (v : Validator) :
    effect (.forceRequired pattern) path v =
      if (Pattern.parse pattern).matchesPath path then v.required else v := by
  rw [effect, process]
  split
  · rw [decided_whenMatched]
    split <;> rfl
  · rename_i hoptional
    have hnone : ∀ m ∈ v.modifiers, m.slot != .optional := by
      simpa [Validator.isOptional, Validator.hasSlot] using hoptional
    have hsame : v.required = v := by
      obtain ⟨base, modifiers⟩ := v
      exact congrArg (Validator.mk base) (List.filter_eq_self.2 hnone)
    rw [hsame, ite_self, Inquiry.decided, Option.getD_none]

theorem isOptional_effect {rule : Rule} (hrule : rule.isUser = false) (path : Path) (v : Validator) :
    (rule.effect path v).isOptional = (rule.forced? path).getD v.isOptional := by
  cases rule with
  | forceOptional pattern =>
    rw [effect_forceOptional, forced?]
    split
    · exact v.isOptional_optional
    · rfl
  | forceRequired pattern =>
    rw [effect_forceRequired, forced?]
    split
    · exact v.isOptional_required
    · rfl
  | user => cases hrule
  | _ => exact (makes_effect _ path v).hasSlot rfl (.inl rfl)

end Rule

namespace Validator

/-- **At most one modifier of each kind**, refinements apart. -/
def Single (v : Validator) : Prop := ∀ slot, slot ≠ .refinement → (v.ofSlot slot).length ≤ 1

theorem Single.ofSlot_optional {v : Validator} (h : v.Single) : v.optional.ofSlot .optional = [.optional] := by
  refine (v.ofSlot_mark .optional .optional).trans ?_
  split
  · rfl
  · rename_i hthere
    have hlength := h .optional Slot.noConfusion
    match hslot : v.ofSlot .optional with
    | [] => exact absurd ⟨rfl, hslot⟩ hthere
    | [m] =>
      have hm : m ∈ v.ofSlot .optional := hslot ▸ List.mem_singleton_self m
      have hkind := (List.mem_filter.1 hm).2
      cases m with
      | optional => rfl
      | _ => cases hkind
    | _ :: _ :: _ =>
      rw [hslot] at hlength
      simp at hlength

end Validator

namespace Rule

theorem Makes.modifiers {rule : Rule} {v w : Validator} (h : rule.Makes v w)
    (hshape : rule = .strictObjects ∨ rule = .nonEmptyArrays) : w.modifiers = v.modifiers := by
  cases h with
  | same | strict | nonEmpty => rfl
  | branded | optional | required | refined | user => simp at hshape

/-- **What a rule leaves of a kind of modifiers**: what it says about that kind, else what was there. -/
theorem ofSlot_effect {rule : Rule} (hrule : rule.isBuiltIn = true) (path : Path) {v : Validator} (hv : v.Single)
    (slot : Slot) : (rule.effect path v).ofSlot slot = (rule.leaves? path slot).getD (v.ofSlot slot) := by
  cases rule with
  | strictObjects =>
    rw [Validator.ofSlot, (makes_effect _ path v).modifiers (.inl rfl)]
    rfl
  | nonEmptyArrays =>
    rw [Validator.ofSlot, (makes_effect _ path v).modifiers (.inr rfl)]
    rfl
  | brandField field brand =>
    have hbrand : ∀ slot, (v.brand brand).ofSlot slot = if .brand = slot then [.brand brand] else v.ofSlot slot :=
      v.ofSlot_replace (.brand brand)
    by_cases hlast : path.getLast? = some (.key field)
    · cases slot <;> simp [effect, process, Inquiry.decided, leaves?, hlast, hbrand]
    · cases slot <;> simp [effect, process, Inquiry.decided, leaves?, hlast]
  | forceOptional pattern =>
    rw [effect_forceOptional]
    split
    · rename_i hhit
      by_cases hslot : slot = .optional
      · rw [hslot, hv.ofSlot_optional, leaves?, if_pos hhit, Option.getD_some]
      · have hother : v.optional.ofSlot slot = v.ofSlot slot := v.ofSlot_apply_of_ne slot .optional (Ne.symm hslot)
        rw [hother]
        cases slot <;> simp [leaves?] at hslot ⊢
    · rename_i hmiss
      cases slot <;> simp [leaves?, hmiss]
  | forceRequired pattern =>
    have hrequired : ∀ slot, v.required.ofSlot slot = if .optional = slot then [] else v.ofSlot slot :=
      fun slot => v.ofSlot_withoutSlot slot .optional
    rw [effect_forceRequired]
    split
    · rename_i hhit
      cases slot <;> simp [leaves?, hhit, hrequired]
    · rename_i hmiss
      cases slot <;> simp [leaves?, hmiss]
  | refineAt | user => cases hrule

theorem length_leaves?_le {rule : Rule} {path : Path} {slot : Slot} {modifiers : List Modifier}
    (h : rule.leaves? path slot = some modifiers) : modifiers.length ≤ 1 := by
  unfold leaves? at h
  split at h
  case h_4 => cases h
  all_goals
    split_ifs at h
    cases h
    simp

theorem single_effect {rule : Rule} (hrule : rule.isBuiltIn = true) (path : Path) {v : Validator} (hv : v.Single) :
    (rule.effect path v).Single := by
  intro slot hslot
  rw [ofSlot_effect hrule path hv slot]
  cases hleaves : rule.leaves? path slot with
  | none => exact hv slot hslot
  | some modifiers => exact length_leaves?_le hleaves

end Rule

/-! ## Rules one after another -/

namespace Pipeline

/-- **What rules leave of something is what the last one says that is about it.** -/
theorem read_result {β : Type} {P : Validator → Prop} {path : Path} (read : Validator → β) (write : Rule → Option β) :
    ∀ {rules : Pipeline} {v : Validator},
      (∀ rule ∈ rules, ∀ v, P v → P (rule.effect path v) ∧
        read (rule.effect path v) = (write rule).getD (read v)) → P v →
      P (rules.result path v) ∧ read (rules.result path v) = (rules.filterMap write).getLast?.getD (read v)
  | [], v, _, hv => ⟨hv, rfl⟩
  | rule :: rest, v, h, hv => by
    obtain ⟨hrule, hrest⟩ := List.forall_mem_cons.1 h
    obtain ⟨hnext, hread⟩ := hrule v hv
    obtain ⟨hlast, hresult⟩ := read_result read write hrest hnext
    rw [result_cons]
    refine ⟨hlast, ?_⟩
    rw [hresult, hread]
    cases hwrite : write rule with
    | none => rw [List.filterMap_cons_none hwrite, Option.getD_none]
    | some value => rw [List.filterMap_cons_some hwrite, List.getLast?_cons, Option.getD_some, Option.getD_some]

/-- **Whether rules make what stands at a path optional or required**: the last one that matches decides. -/
def forced? (rules : Pipeline) (path : Path) : Option Bool := (rules.filterMap (Rule.forced? path)).getLast?

theorem isOptional_result {rules : Pipeline} (hrules : ∀ rule ∈ rules, rule.isUser = false) (path : Path)
    (v : Validator) : (rules.result path v).isOptional = (rules.forced? path).getD v.isOptional :=
  (read_result (P := fun _ => True) Validator.isOptional (Rule.forced? path)
    (fun rule hmem v _ => ⟨trivial, Rule.isOptional_effect (hrules rule hmem) path v⟩) trivial).2

section
variable {rules : Pipeline} (hrules : ∀ rule ∈ rules, rule.isBuiltIn = true) (path : Path) {v : Validator}
include hrules

theorem ofSlot_result (hv : v.Single) (slot : Slot) : (rules.result path v).Single ∧
    (rules.result path v).ofSlot slot =
      (rules.filterMap (fun rule => rule.leaves? path slot)).getLast?.getD (v.ofSlot slot) := by
  refine read_result (fun w => w.ofSlot slot) (fun rule => rule.leaves? path slot) (fun rule hmem w hw => ?_) hv
  exact ⟨Rule.single_effect (hrules rule hmem) path hw, Rule.ofSlot_effect (hrules rule hmem) path hw slot⟩

theorem ofSlot_result_result (hv : v.Single) (slot : Slot) :
    (rules.result path (rules.result path v)).ofSlot slot = (rules.result path v).ofSlot slot := by
  obtain ⟨hsingle, honce⟩ := ofSlot_result hrules path hv slot
  rw [(ofSlot_result hrules path hsingle slot).2, honce]
  cases (rules.filterMap (fun rule => rule.leaves? path slot)).getLast? <;> rfl

end

/-- **Rules that run again change nothing in the text**, if there was at most one modifier of each kind. -/
theorem text_run_again {rules : Pipeline} (hrules : ∀ rule ∈ rules, rule.isBuiltIn = true) (path : Path) {v : Validator}
    (hv : v.Single) (style : Style) (depth : Nat) (cache other : PatternCache) :
    Render.validator style depth (rules.run path (rules.run path v cache).1 other).1 =
      Render.validator style depth (rules.run path v cache).1 := by
  have hnone : ∀ rule ∈ rules, rule.isUser = false := fun rule hmem => Rule.isUser_of_isBuiltIn (hrules rule hmem)
  have hbase : (rules.result path (rules.result path v)).base = (rules.result path v).base :=
    base_result_of_not_lacks path hnone (fun _ hmem => not_lacks_result path hnone v hmem)
  have hslots := funext (ofSlot_result_result hrules path hv)
  rw [run_fst, run_fst, Render.validator_eq, Render.validator_eq, hbase, hslots]

def everyRule : Pipeline :=
  [.brandField "ids" "Ids", .strictObjects, .forceRequired "$", .forceOptional "$..ids", .nonEmptyArrays]

def plainArray : Validator := .ofBase (.array .any [⟨.min 0, none⟩])

-- The second run takes the brand out and puts it behind the marker.
theorem text_run_again_everyRule :
    (everyRule.result [.key "ids"] plainArray).modifiers.map Modifier.slot = [.brand, .optional] ∧
    (everyRule.result [.key "ids"] (everyRule.result [.key "ids"] plainArray)).modifiers.map Modifier.slot =
      [.optional, .brand] ∧
    ∀ style depth, Render.validator style depth
        (everyRule.result [.key "ids"] (everyRule.result [.key "ids"] plainArray)) =
      Render.validator style depth (everyRule.result [.key "ids"] plainArray) := by
  refine ⟨by decide +kernel, by decide +kernel, fun style depth => ?_⟩
  have hsingle : plainArray.Single := by
    intro slot _
    cases slot <;> decide
  have hbuiltIn : ∀ rule ∈ everyRule, rule.isBuiltIn = true := by decide
  have hagain := text_run_again hbuiltIn [.key "ids"] hsingle style depth PatternCache.empty PatternCache.empty
  rwa [run_fst, run_fst] at hagain

end Pipeline
end Valgen
