import Mathlib.Data.List.Basic
import Mathlib.Data.List.Induction
import Mathlib.Data.List.Nodup
import Valgen.Proofs.Validator.Parts
import Valgen.Validator.Render
/-!
# Proofs.Validator.Calls — validators that are built by calls

A validator starts from a base and is changed by one call after another (`Validator.built`).  Refinements add up; of a
marker there is only what the calls leave of it in the end (`Validator.Step.survivor`), whatever came between
(`ofSlot_built`).  Kinds are gone through one after another, which comes to sorting the calls by the places of their
kinds (`arrange_eq_mergeSort`).  The text is therefore settled by the refinements and by what is left of the markers
(`text_of_calls`).
-/
namespace Valgen

inductive Validator.Step where
  | optional
  | required
  | nullable
  | readonly
  | withDefault (value : Json)
  | describe (text : String)
  | brand (name : String)
  | refine (predicate : String) (message : Option String)
  | superRefine (body : String)
  | pipe (target : Validator)

namespace Validator
namespace Step

def apply (v : Validator) : Step → Validator
  | .optional => v.optional
  | .required => v.required
  | .nullable => v.nullable
  | .readonly => v.readonly
  | .withDefault value => v.withDefault value
  | .describe text => v.describe text
  | .brand name => v.brand name
  | .refine predicate message => v.refine predicate message
  | .superRefine body => v.superRefine body
  | .pipe target => v.pipe target

def slot : Step → Slot
  | .optional | .required => .optional
  | .nullable => .nullable
  | .readonly => .readonly
  | .withDefault _ => .default
  | .describe _ => .describe
  | .brand _ => .brand
  | .refine _ _ | .superRefine _ | .pipe _ => .refinement

/-- **The refinement that a call adds**, if it adds one. -/
def refinement? : Step → Option Modifier
  | .refine predicate message => some (.refine predicate message)
  | .superRefine body => some (.superRefine body)
  | .pipe target => some (.pipe target)
  | _ => none

/-- **Whether a call makes the value optional or required**, if it does either. -/
def optionality? : Step → Option Bool
  | .optional => some true
  | .required => some false
  | _ => none

def isNullable : Step → Bool
  | .nullable => true
  | _ => false

def isReadonly : Step → Bool
  | .readonly => true
  | _ => false

def default? : Step → Option Json
  | .withDefault value => some value
  | _ => none

def description? : Step → Option String
  | .describe text => some text
  | _ => none

def brand? : Step → Option String
  | .brand name => some name
  | _ => none

/-- **What calls leave of a marker in the end.** -/
def survivor (steps : List Step) : Slot → Option Modifier
  | .refinement => none
  | .optional => if (steps.filterMap optionality?).getLast? = some true then some .optional else none
  | .nullable => if steps.any isNullable then some .nullable else none
  | .readonly => if steps.any isReadonly then some .readonly else none
  | .default => (steps.filterMap default?).getLast?.map .default
  | .describe => (steps.filterMap description?).getLast?.map .describe
  | .brand => (steps.filterMap brand?).getLast?.map .brand

/-- **Calls agree in what matters**: the refinements, whether the value is optional in the end, whether it was made
nullable and read-only, and the last default, description and brand. -/
structure Alike (steps others : List Step) : Prop where
  refinements : steps.filterMap refinement? = others.filterMap refinement?
  optional : (steps.filterMap optionality?).getLast? = some true ↔ (others.filterMap optionality?).getLast? = some true
  nullable : steps.any isNullable = others.any isNullable
  readonly : steps.any isReadonly = others.any isReadonly
  default : (steps.filterMap default?).getLast? = (others.filterMap default?).getLast?
  description : (steps.filterMap description?).getLast? = (others.filterMap description?).getLast?
  brand : (steps.filterMap brand?).getLast? = (others.filterMap brand?).getLast?

theorem Alike.survivor {steps others : List Step} (h : Alike steps others) : survivor steps = survivor others := by
  funext slot
  cases slot with
  | refinement => rfl
  | optional => simp only [Step.survivor, h.optional]
  | nullable => simp only [Step.survivor, h.nullable]
  | readonly => simp only [Step.survivor, h.readonly]
  | default => simp only [Step.survivor, h.default]
  | describe => simp only [Step.survivor, h.description]
  | brand => simp only [Step.survivor, h.brand]

end Step

/-- **The validator that calls build**, one after another, from a base. -/
def built (base : Base) (steps : List Step) : Validator := steps.foldl Step.apply (ofBase base)

theorem built_snoc (base : Base) (steps : List Step) (step : Step) :
    built base (steps ++ [step]) = step.apply (built base steps) := by
  rw [built, List.foldl_append]
  rfl

theorem base_built (base : Base) (steps : List Step) : (built base steps).base = base := by
  induction steps using List.reverseRecOn with
  | nil => rfl
  | append_singleton steps step ih =>
    rw [built_snoc]
    refine Eq.trans ?_ ih
    cases step with
    | optional | nullable | readonly => exact base_mark _ _
    | _ => rfl

/-! ## The modifiers of a kind -/

/-- **The modifiers of a kind**, in order. -/
def ofSlot (v : Validator) (slot : Slot) : List Modifier := v.modifiers.filter (fun m => m.slot == slot)

variable (v : Validator) (m : Modifier) (slot : Slot)

theorem ofSlot_push : (v.push m).ofSlot slot = v.ofSlot slot ++ if m.slot = slot then [m] else [] := by
  by_cases h : m.slot = slot <;> simp [ofSlot, push, h]

theorem ofSlot_push_of_ne {m : Modifier} {slot : Slot} (h : m.slot ≠ slot) :
    (v.push m).ofSlot slot = v.ofSlot slot := by
  rw [ofSlot_push, if_neg h, List.append_nil]

theorem ofSlot_withoutSlot (other : Slot) :
    (v.withoutSlot other).ofSlot slot = if other = slot then [] else v.ofSlot slot := by
  unfold ofSlot withoutSlot
  rw [List.filter_filter]
  split
  · rename_i heq
    simp [heq]
  · rename_i hne
    refine List.filter_congr (fun m _ => ?_)
    by_cases hm : m.slot = slot
    · simp [hm, Ne.symm hne]
    · simp [hm]

theorem ofSlot_replace : (v.replace m).ofSlot slot = if m.slot = slot then [m] else v.ofSlot slot := by
  rw [replace, ofSlot_push, ofSlot_withoutSlot]
  split <;> simp

theorem ofSlot_mark : (v.mark m).ofSlot slot =
    if m.slot = slot ∧ v.ofSlot slot = [] then [m] else v.ofSlot slot := by
  have hthere : v.hasSlot m.slot = true ↔ v.ofSlot m.slot ≠ [] := by simp [hasSlot, ofSlot]
  unfold mark
  split
  · rename_i h
    rw [if_neg]
    rintro ⟨rfl, hnone⟩
    exact hthere.1 h hnone
  · rename_i h
    rw [hthere, not_not] at h
    rw [ofSlot_push]
    by_cases hslot : m.slot = slot
    · simp [hslot, hslot ▸ h]
    · simp [hslot]

/-- **A call leaves the modifiers of other kinds alone.** -/
theorem ofSlot_apply_of_ne (step : Step) (h : step.slot ≠ slot) : (step.apply v).ofSlot slot = v.ofSlot slot := by
  cases step with
  | required => exact (ofSlot_withoutSlot v slot _).trans (if_neg h)
  | optional | nullable | readonly => exact (ofSlot_mark v _ slot).trans (if_neg (fun hm => h hm.1))
  | withDefault | describe | brand => exact (ofSlot_replace v _ slot).trans (if_neg h)
  | refine | superRefine | pipe => exact ofSlot_push_of_ne v h

theorem Step.survivor_snoc_of_ne (steps : List Step) {step : Step} {slot : Slot} (h : step.slot ≠ slot) :
    survivor (steps ++ [step]) slot = survivor steps slot := by
  cases slot with
  | refinement => rfl
  | optional =>
    have hnone : step.optionality? = none := by cases step <;> simp_all [Step.slot, optionality?]
    simp [survivor, hnone]
  | nullable =>
    have hnone : step.isNullable = false := by cases step <;> simp_all [Step.slot, isNullable]
    simp [survivor, hnone]
  | readonly =>
    have hnone : step.isReadonly = false := by cases step <;> simp_all [Step.slot, isReadonly]
    simp [survivor, hnone]
  | default =>
    have hnone : step.default? = none := by cases step <;> simp_all [Step.slot, default?]
    simp [survivor, hnone]
  | describe =>
    have hnone : step.description? = none := by cases step <;> simp_all [Step.slot, description?]
    simp [survivor, hnone]
  | brand =>
    have hnone : step.brand? = none := by cases step <;> simp_all [Step.slot, brand?]
    simp [survivor, hnone]

theorem ofSlot_mark_self {v : Validator} {m : Modifier} {there : Prop} [Decidable there]
    (h : v.ofSlot m.slot = (if there then some m else none).toList) : (v.mark m).ofSlot m.slot = [m] := by
  rw [ofSlot_mark, h]
  split_ifs <;> simp_all

/-- **A call about a marker leaves of it what it says**, if it came to what the calls before it left. -/
theorem ofSlot_apply_of_survivor {v : Validator} {steps : List Step} {step : Step}
    (h : v.ofSlot step.slot = (Step.survivor steps step.slot).toList) (hmarker : step.slot ≠ .refinement) :
    (step.apply v).ofSlot step.slot = (Step.survivor (steps ++ [step]) step.slot).toList := by
  cases step with
  | optional => exact (ofSlot_mark_self h).trans (by simp [Step.slot, Step.survivor, Step.optionality?])
  | required => exact (ofSlot_withoutSlot v _ _).trans (by simp [Step.slot, Step.survivor, Step.optionality?])
  | nullable => exact (ofSlot_mark_self h).trans (by simp [Step.slot, Step.survivor, Step.isNullable])
  | readonly => exact (ofSlot_mark_self h).trans (by simp [Step.slot, Step.survivor, Step.isReadonly])
  | withDefault value =>
    exact (ofSlot_replace v _ _).trans (by simp [Step.slot, Modifier.slot, Step.survivor, Step.default?])
  | describe text =>
    exact (ofSlot_replace v _ _).trans (by simp [Step.slot, Modifier.slot, Step.survivor, Step.description?])
  | brand name => exact (ofSlot_replace v _ _).trans (by simp [Step.slot, Modifier.slot, Step.survivor, Step.brand?])
  | refine | superRefine | pipe => exact absurd rfl hmarker

/-- **Of a marker there is what the calls leave of it.** -/
theorem ofSlot_built (base : Base) (steps : List Step) {slot : Slot} (hslot : slot ≠ .refinement) :
    (built base steps).ofSlot slot = (Step.survivor steps slot).toList := by
  induction steps using List.reverseRecOn with
  | nil => cases slot <;> rfl
  | append_singleton steps step ih =>
    rw [built_snoc]
    by_cases hstep : step.slot = slot
    · subst hstep
      exact ofSlot_apply_of_survivor ih hslot
    · rw [ofSlot_apply_of_ne _ slot step hstep, Step.survivor_snoc_of_ne steps hstep, ih]

/-- **The refinements are those of the calls, in their order.** -/
theorem refinements_built (base : Base) (steps : List Step) :
    (built base steps).ofSlot .refinement = steps.filterMap Step.refinement? := by
  induction steps using List.reverseRecOn with
  | nil => rfl
  | append_singleton steps step ih =>
    rw [built_snoc, List.filterMap_append, ← ih]
    by_cases hstep : step.slot = .refinement
    · cases step with
      | refine | superRefine | pipe => exact (ofSlot_push _ _ _).trans (by simp [Step.refinement?, Modifier.slot])
      | _ => cases hstep
    · have hnone : step.refinement? = none := by
        cases step with
        | refine | superRefine | pipe => exact absurd rfl hstep
        | _ => rfl
      rw [ofSlot_apply_of_ne _ _ step hstep, List.filterMap_cons_none hnone, List.filterMap_nil, List.append_nil]

end Validator

/-! ## The order of the calls -/

namespace Render

/-- **Whether one entry may stand before another**: its key does not stand behind the other's. -/
def byRank {κ β : Type} [DecidableEq κ] (keys : List κ) (a b : κ × β) : Bool := keys.idxOf a.1 ≤ keys.idxOf b.1

section

variable {κ β : Type} [DecidableEq κ] {keys : List κ}

theorem byRank_trans (a b c : κ × β) (h : byRank keys a b) (h' : byRank keys b c) : byRank keys a c :=
  decide_eq_true (Nat.le_trans (of_decide_eq_true h) (of_decide_eq_true h'))

theorem byRank_total (a b : κ × β) : byRank keys a b || byRank keys b a := by
  simp [byRank, Nat.le_total]

theorem notMem_of_idxOf_le {before after : List κ} {key other : κ} (hkey : key ∉ before)
    (h : (before ++ key :: after).idxOf key ≤ (before ++ key :: after).idxOf other) : other ∉ before := by
  intro hother
  rw [List.idxOf_append_of_notMem hkey, List.idxOf_append_of_mem hother] at h
  have := List.idxOf_lt_length_of_mem hother
  omega

/-- **Entries that are sorted by their keys are those of the first key, then those of the second, and so on.** -/
theorem flatMap_filter_of_pairwise (hkeys : keys.Nodup) : ∀ {entries : List (κ × β)}, (∀ e ∈ entries, e.1 ∈ keys) →
    entries.Pairwise (byRank keys · ·) → keys.flatMap (fun key => entries.filter (fun e => e.1 == key)) = entries
  | [], _, _ => by simp
  | a :: entries, h, hsorted => by
    obtain ⟨ha, hrest⟩ := List.forall_mem_cons.1 h
    obtain ⟨hleast, hsorted⟩ := List.pairwise_cons.1 hsorted
    have ih := flatMap_filter_of_pairwise hkeys hrest hsorted
    -- No key before that of the first entry has an entry, and those behind it do not have the first.
    obtain ⟨before, after, rfl⟩ := List.append_of_mem ha
    obtain ⟨hbefore, hafter⟩ : a.1 ∉ before ∧ a.1 ∉ after := by
      simpa using (List.nodup_cons.1 (List.nodup_middle.1 hkeys)).1
    have hnone : before.flatMap (fun key => entries.filter (fun e => e.1 == key)) = [] := by
      refine List.flatMap_eq_nil_iff.2 (fun key hkey => List.filter_eq_nil_iff.2 (fun e he heq => ?_))
      have := notMem_of_idxOf_le hbefore (of_decide_eq_true (hleast e he))
      exact this (eq_of_beq heq ▸ hkey)
    have hskip : ∀ {others : List κ}, a.1 ∉ others →
        others.flatMap (fun key => (a :: entries).filter (fun e => e.1 == key)) =
          others.flatMap (fun key => entries.filter (fun e => e.1 == key)) := by
      intro others hothers
      refine List.flatMap_congr (fun key hkey => List.filter_cons_of_neg (fun heq => ?_))
      exact hothers (eq_of_beq heq ▸ hkey)
    have hown : (a :: entries).filter (fun e => e.1 == a.1) = a :: entries.filter (fun e => e.1 == a.1) :=
      List.filter_cons_of_pos (beq_self_eq_true a.1)
    rw [List.flatMap_append, hnone, List.nil_append, List.flatMap_cons] at ih
    rw [List.flatMap_append, hskip hbefore, hnone, List.nil_append, List.flatMap_cons, hskip hafter, hown,
      List.cons_append, ih]

/-- **Sorting leaves the entries of a key in their order.** -/
theorem filter_mergeSort (entries : List (κ × β)) (key : κ) :
    (entries.mergeSort (byRank keys)).filter (fun e => e.1 == key) = entries.filter (fun e => e.1 == key) := by
  have hpair : (entries.filter (fun e => e.1 == key)).Pairwise (byRank keys · ·) := by
    refine List.pairwise_of_forall_mem_list (fun a ha b hb => decide_eq_true (Nat.le_of_eq ?_))
    rw [eq_of_beq (List.mem_filter.1 ha).2, eq_of_beq (List.mem_filter.1 hb).2]
  have hsub := (List.sublist_mergeSort byRank_trans byRank_total hpair List.filter_sublist).filter
    (fun e => e.1 == key)
  simp only [List.filter_filter, Bool.and_self] at hsub
  exact (hsub.eq_of_length ((List.mergeSort_perm entries _).filter _).length_eq.symm).symm

theorem flatMap_filter_eq_mergeSort (hkeys : keys.Nodup) {entries : List (κ × β)} (h : ∀ e ∈ entries, e.1 ∈ keys) :
    keys.flatMap (fun key => entries.filter (fun e => e.1 == key)) = entries.mergeSort (byRank keys) := by
  have hsorted := flatMap_filter_of_pairwise hkeys (fun e he => h e (List.mem_mergeSort.1 he))
    (List.pairwise_mergeSort byRank_trans byRank_total entries)
  simpa only [filter_mergeSort] using hsorted

end

theorem slots_nodup (dialect : Dialect) : dialect.slots.Nodup := by
  cases dialect with
  | v3 | v4 => decide

theorem mem_slots (dialect : Dialect) (slot : Slot) : slot ∈ dialect.slots := by
  cases dialect with
  | v3 | v4 => cases slot <;> decide

/-- **The calls are sorted by the places that the dialect gives to their kinds**; those of a kind stay in
their order. -/
theorem arrange_eq_mergeSort (dialect : Dialect) (calls : List (Slot × Call)) :
    arrange dialect calls = (calls.mergeSort (byRank dialect.slots)).map Prod.snd := by
  rw [← flatMap_filter_eq_mergeSort (slots_nodup dialect) (fun e _ => mem_slots dialect e.1), List.map_flatMap]
  rfl
end Render

/-! ## Their text -/

theorem CallChain.build_foldl_add : ∀ (calls : List Call) (chain : CallChain),
    (calls.foldl add chain).build = chain.build ++ String.join (calls.map Call.text)
  | [], chain => by simp
  | call :: rest, chain => by
    rw [List.foldl_cons, build_foldl_add rest, build_add, List.map_cons, String.join_cons, String.append_assoc]

namespace Render

variable (style : Style) (depth : Nat)

theorem modifierCalls_eq_map (modifiers : List Modifier) :
    modifierCalls style depth modifiers = modifiers.map (fun m => (m.slot, modifierCall style depth m)) := by
  induction modifiers with
  | nil => rw [modifierCalls, List.map_nil]
  | cons m rest ih => rw [modifierCalls, ih, List.map_cons]

/-- **The text of a validator is that of its base and of its modifiers, kind after kind.** -/
theorem validator_eq (v : Validator) : validator style depth v = (base style depth v.base).build ++
    String.join ((style.dialect.slots.flatMap v.ofSlot).map (fun m => (modifierCall style depth m).text)) := by
  have harrange : arrange style.dialect (modifierCalls style depth v.modifiers) =
      (style.dialect.slots.flatMap v.ofSlot).map (modifierCall style depth) := by
    simp only [arrange, modifierCalls_eq_map, List.filter_map, List.map_map, List.map_flatMap, Validator.ofSlot]
    rfl
  obtain ⟨base, modifiers⟩ := v
  rw [validator, harrange, CallChain.build_foldl_add, List.map_map]
  rfl

theorem slots_eq (dialect : Dialect) : ∃ markers, dialect.slots = .refinement :: markers ∧ .refinement ∉ markers := by
  cases dialect
  · exact ⟨_, rfl, by decide⟩
  · exact ⟨_, rfl, by decide⟩

theorem flatMap_ofSlot_built (dialect : Dialect) (base : Base) (steps : List Validator.Step) :
    dialect.slots.flatMap (Validator.built base steps).ofSlot =
      steps.filterMap Validator.Step.refinement? ++ dialect.slots.filterMap (Validator.Step.survivor steps) := by
  obtain ⟨markers, hslots, hmarkers⟩ := slots_eq dialect
  have hsurvivors : markers.flatMap (Validator.built base steps).ofSlot =
      markers.filterMap (Validator.Step.survivor steps) := by
    rw [List.filterMap_eq_flatMap_toList]
    refine List.flatMap_congr (fun slot hslot => ?_)
    exact Validator.ofSlot_built base steps (fun heq => hmarkers (heq ▸ hslot))
  rw [hslots, List.flatMap_cons, Validator.refinements_built, hsurvivors]
  rfl

/-- **The text of a validator that calls build**: of each marker there is one at most; the text is that of the base,
of the refinements in the order of their calls, and of the markers that are left, in the order the dialect fixes; and
calls that agree in what matters give the same text. -/
theorem text_of_calls (base : Base) (steps : List Validator.Step) :
    (∀ slot, slot ≠ .refinement → ((Validator.built base steps).ofSlot slot).length ≤ 1) ∧
      validator style depth (Validator.built base steps) = (Render.base style depth base).build ++
        String.join ((steps.filterMap Validator.Step.refinement? ++
          style.dialect.slots.filterMap (Validator.Step.survivor steps)).map
            (fun m => (modifierCall style depth m).text)) ∧
      ∀ others, Validator.Step.Alike steps others →
        validator style depth (Validator.built base others) = validator style depth (Validator.built base steps) := by
  have htext : ∀ steps, validator style depth (Validator.built base steps) = (Render.base style depth base).build ++
      String.join ((steps.filterMap Validator.Step.refinement? ++
        style.dialect.slots.filterMap (Validator.Step.survivor steps)).map
          (fun m => (modifierCall style depth m).text)) := by
    intro steps
    rw [validator_eq, flatMap_ofSlot_built, Validator.base_built]
  refine ⟨fun slot hslot => ?_, htext steps, fun others halike => ?_⟩
  · rw [Validator.ofSlot_built base steps hslot]
    exact Option.length_toList_le
  · rw [htext, htext, halike.refinements, halike.survivor]

-- Of several descriptions the last is left, and a marker that was taken away and set again stands where it always does.
example : validator ⟨.v4, false⟩ 0 (Validator.built .boolean [.optional, .describe "a", .refine "p" none, .required,
    .describe "b", .nullable, .optional]) = "z.boolean().refine(p).nullable().optional().describe(\"b\")" := by
  decide +kernel

end Render
end Valgen
