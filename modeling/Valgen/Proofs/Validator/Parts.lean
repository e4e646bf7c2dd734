import Valgen.Rule
/-!
# Proofs.Validator.Parts — the validators inside a validator

A validator holds others in its base and, where another one follows it, in its modifiers (`Validator.parts`);
`Shows P v` says that somewhere in `v`, at whatever depth, there is a base of the kind `P`.  Markers and rules leave the
parts of a validator alone: a rule changes the outermost base or the modifiers and nothing else (`Rule.Makes`).
-/
namespace Valgen

def Unlisted.parts : Unlisted → List Validator
  | .catchall values => [values]
  | _ => []

def Base.parts : Base → List Validator
  | .object properties unlisted => properties.map Property.value ++ unlisted.parts
  | .array items _ => [items]
  | .tuple items rest => items ++ rest.toList
  | .record values => [values]
  | .union members => members
  | .xor members => members
  | .intersection left right => [left, right]
  | _ => []

/-- **A base whose text comes from elsewhere.** -/
def Base.isForeign : Base → Bool
  | .reference _ _ => true
  | .custom _ => true
  | _ => false

def Modifier.parts : Modifier → List Validator
  | .pipe target => [target]
  | _ => []

theorem Modifier.parts_of_slot {m : Modifier} (h : m.slot ≠ .refinement) : m.parts = [] := by
  cases m with
  | pipe target => exact absurd rfl h
  | _ => rfl

theorem Base.sizeOf_lt_of_mem_parts {base : Base} {c : Validator} (h : c ∈ base.parts) : sizeOf c < sizeOf base := by
  cases base with
  | object properties unlisted =>
    rw [Base.object.sizeOf_spec]
    rcases List.mem_append.1 h with h | h
    · obtain ⟨p, hp, rfl⟩ := List.mem_map.1 h
      have hlt := List.sizeOf_lt_of_mem hp
      obtain ⟨key, value, description⟩ := p
      rw [Property.mk.sizeOf_spec] at hlt
      dsimp only
      omega
    · cases unlisted with
      | catchall values =>
        rw [List.mem_singleton.1 h, Unlisted.catchall.sizeOf_spec]
        omega
      | strip | strict | passthrough => cases h
  | array items checks =>
    rw [List.mem_singleton.1 h, Base.array.sizeOf_spec]
    omega
  | tuple items rest =>
    rw [Base.tuple.sizeOf_spec]
    rcases List.mem_append.1 h with h | h
    · have hlt := List.sizeOf_lt_of_mem h
      omega
    · rw [Option.mem_toList.1 h, Option.some.sizeOf_spec]
      omega
  | record values =>
    rw [List.mem_singleton.1 h, Base.record.sizeOf_spec]
    omega
  | union members =>
    have hlt : sizeOf c < sizeOf members := List.sizeOf_lt_of_mem h
    rw [Base.union.sizeOf_spec]
    omega
  | xor members =>
    have hlt : sizeOf c < sizeOf members := List.sizeOf_lt_of_mem h
    rw [Base.xor.sizeOf_spec]
    omega
  | intersection left right =>
    rw [Base.intersection.sizeOf_spec]
    rcases List.mem_cons.1 h with rfl | h
    · omega
    · rw [List.mem_singleton.1 h]
      omega
  | any | unknown | never | boolean | null | string | number | literal | enum | reference | custom => cases h

namespace Validator

def parts (v : Validator) : List Validator := v.base.parts ++ v.modifiers.flatMap Modifier.parts

theorem sizeOf_lt_of_mem_parts {v c : Validator} (h : c ∈ v.parts) : sizeOf c < sizeOf v := by
  obtain ⟨base, modifiers⟩ := v
  rw [mk.sizeOf_spec]
  rcases List.mem_append.1 h with h | h
  · have hlt := Base.sizeOf_lt_of_mem_parts h
    dsimp only at hlt
    omega
  · obtain ⟨m, hm, hc⟩ := List.mem_flatMap.1 h
    have hlt := List.sizeOf_lt_of_mem hm
    cases m with
    | pipe target =>
      rw [List.mem_singleton.1 hc]
      rw [Modifier.pipe.sizeOf_spec] at hlt
      dsimp only at hlt
      omega
    | _ => cases hc

/-- **A validator stands somewhere in another one**, or is that one. -/
inductive Inside (root : Validator) : Validator → Prop
  | root : Inside root root
  | part {v w : Validator} : Inside root v → w ∈ v.parts → Inside root w

/-- **Somewhere in a validator there is a base of a kind.** -/
def Shows (P : Base → Prop) (v : Validator) : Prop := ∃ w, v.Inside w ∧ P w.base

theorem Inside.eq_or_below {v w : Validator} (h : v.Inside w) : w = v ∨ ∃ c ∈ v.parts, c.Inside w := by
  induction h with
  | root => exact .inl rfl
  | part _ hmem ih =>
    rcases ih with rfl | ⟨c, hc, hbelow⟩
    · exact .inr ⟨_, hmem, .root⟩
    · exact .inr ⟨c, hc, hbelow.part hmem⟩

theorem Inside.of_part {v c w : Validator} (h : c.Inside w) (hc : c ∈ v.parts) : v.Inside w := by
  induction h with
  | root => exact .part .root hc
  | part _ hmem ih => exact ih.part hmem

theorem shows_iff {P : Base → Prop} {v : Validator} : v.Shows P ↔ P v.base ∨ ∃ c ∈ v.parts, c.Shows P := by
  constructor
  · rintro ⟨w, hinside, hw⟩
    rcases hinside.eq_or_below with rfl | ⟨c, hc, hbelow⟩
    · exact .inl hw
    · exact .inr ⟨c, hc, w, hbelow, hw⟩
  · rintro (hbase | ⟨c, hc, w, hinside, hw⟩)
    · exact ⟨v, .root, hbase⟩
    · exact ⟨w, hinside.of_part hc, hw⟩

theorem forall_inside_iff {P : Validator → Prop} {v : Validator} :
    (∀ w, v.Inside w → P w) ↔ P v ∧ ∀ c ∈ v.parts, ∀ w, c.Inside w → P w := by
  constructor
  · exact fun h => ⟨h v .root, fun c hc w hw => h w (hw.of_part hc)⟩
  · rintro ⟨hroot, hparts⟩ w hw
    rcases hw.eq_or_below with rfl | ⟨c, hc, hbelow⟩
    · exact hroot
    · exact hparts c hc w hbelow

/-- **What a validator has if its parts have it, every validator has.** -/
theorem induction_on_parts {P : Validator → Prop} (h : ∀ v, (∀ c ∈ v.parts, P c) → P v) (v : Validator) : P v :=
  h v (fun c _ => induction_on_parts h c)
termination_by sizeOf v
decreasing_by exact sizeOf_lt_of_mem_parts ‹_›

variable (v : Validator)

@[simp] theorem parts_ofBase (base : Base) : (ofBase base).parts = base.parts := by simp [parts, ofBase]

/-! ## Markers -/

@[simp] theorem parts_push (m : Modifier) : (v.push m).parts = v.parts ++ m.parts := by
  simp [parts, push]

theorem parts_withoutSlot {slot : Slot} (h : slot ≠ .refinement) : (v.withoutSlot slot).parts = v.parts := by
  have hkept : ∀ modifiers : List Modifier,
      (modifiers.filter (fun m => m.slot != slot)).flatMap Modifier.parts = modifiers.flatMap Modifier.parts := by
    intro modifiers
    induction modifiers with
    | nil => rfl
    | cons m rest ih =>
      by_cases hslot : m.slot = slot
      · rw [List.filter_cons_of_neg (by simp [hslot]), List.flatMap_cons, ih,
          Modifier.parts_of_slot (fun heq => h (hslot.symm.trans heq)), List.nil_append]
      · rw [List.filter_cons_of_pos (by simp [hslot]), List.flatMap_cons, List.flatMap_cons, ih]
  simp only [parts, withoutSlot, hkept]

theorem parts_mark {m : Modifier} (h : m.parts = []) : (v.mark m).parts = v.parts := by
  unfold mark
  split
  · rfl
  · rw [parts_push, h, List.append_nil]

theorem parts_replace {m : Modifier} (h : m.slot ≠ .refinement) : (v.replace m).parts = v.parts := by
  rw [replace, parts_push, parts_withoutSlot v h, Modifier.parts_of_slot h, List.append_nil]

@[simp] theorem base_mark (m : Modifier) : (v.mark m).base = v.base := by
  unfold mark
  split <;> rfl

end Validator

/-! ## Rules -/

/-- **Whether a rule is given as a function**, which may make anything of a validator. -/
def Rule.isUser : Rule → Bool
  | .user _ _ => true
  | _ => false

/-- **What a rule can make of a validator.** -/
inductive Rule.Makes : Rule → Validator → Validator → Prop
  | same (rule : Rule) (v : Validator) : Makes rule v v
  | strict {v : Validator} {properties : List Property} : v.base = .object properties .strip →
    Makes .strictObjects v { v with base := .object properties .strict }
  | nonEmpty {v : Validator} {items : Validator} {checks : List Constraint} : v.base = .array items checks →
    Makes .nonEmptyArrays v { v with base := .array items (⟨.min 1, none⟩ :: checks.filter (fun c => !Rule.isMin c)) }
  | branded (field brand : String) (v : Validator) : Makes (.brandField field brand) v (v.brand brand)
  | optional (pattern : String) (v : Validator) : Makes (.forceOptional pattern) v v.optional
  | required (pattern : String) (v : Validator) : Makes (.forceRequired pattern) v v.required
  | refined (name pattern predicate : String) (message : Option String) (v : Validator) :
    Makes (.refineAt name pattern predicate message) v (v.refine predicate message)
  | user (name : String) (process : Path → Validator → Inquiry (Option Validator)) (path : Path) (v : Validator) :
    Makes (.user name process) v ((Rule.user name process).effect path v)

namespace Rule

theorem decided_whenMatched (pattern : String) (path : Path) (changed : Validator) :
    (whenMatched pattern changed).decided path =
      if (Pattern.parse pattern).matchesPath path then some changed else none :=
  rfl

theorem makes_of_whenMatched {rule : Rule} {v changed : Validator} (h : rule.Makes v changed) (pattern : String)
    (path : Path) : rule.Makes v (((whenMatched pattern changed).decided path).getD v) := by
  rw [decided_whenMatched]
  split
  · exact h
  · exact .same rule v

theorem makes_effect (rule : Rule) (path : Path) (v : Validator) : rule.Makes v (rule.effect path v) := by
  unfold effect
  cases rule with
  | strictObjects =>
    rw [process, makeStrict]
    split
    · exact .strict ‹_›
    · exact .same _ v
  | nonEmptyArrays =>
    rw [process, makeNonEmpty]
    split
    · split
      · exact .same _ v
      · exact .nonEmpty ‹_›
    · exact .same _ v
  | brandField field brand =>
    rw [process, Inquiry.decided]
    split
    · exact .branded field brand v
    · exact .same _ v
  | forceOptional pattern =>
    rw [process]
    split
    · exact .same _ v
    · exact makes_of_whenMatched (.optional pattern v) pattern path
  | forceRequired pattern =>
    rw [process]
    split
    · exact makes_of_whenMatched (.required pattern v) pattern path
    · exact .same _ v
  | refineAt name pattern predicate message =>
    exact makes_of_whenMatched (.refined name pattern predicate message v) pattern path
  | user name process => exact .user name process path v

theorem Makes.parts {rule : Rule} {v w : Validator} (h : rule.Makes v w) (hrule : rule.isUser = false) :
    w.parts = v.parts := by
  cases h with
  | same => rfl
  | strict hbase => simp [Validator.parts, hbase, Base.parts, Unlisted.parts]
  | nonEmpty hbase => simp [Validator.parts, hbase, Base.parts]
  | branded => exact v.parts_replace Slot.noConfusion
  | optional => exact v.parts_mark rfl
  | required => exact v.parts_withoutSlot Slot.noConfusion
  | refined => simp [Validator.refine, Modifier.parts]
  | user => cases hrule

end Rule

namespace Pipeline

/-- **What every rule of a pipeline preserves, the pipeline preserves.** -/
theorem result_induction {P : Validator → Prop} (path : Path) : ∀ {rules : Pipeline},
    (∀ rule ∈ rules, ∀ v, P v → P (rule.effect path v)) → ∀ {v : Validator}, P v → P (rules.result path v)
  | [], _, _, hv => hv
  | rule :: rest, h, v, hv => by
    obtain ⟨hrule, hrest⟩ := List.forall_mem_cons.1 h
    rw [result_cons]
    exact result_induction path hrest (hrule v hv)

theorem parts_result {rules : Pipeline} (hrules : ∀ rule ∈ rules, rule.isUser = false) (path : Path) (v : Validator) :
    (rules.result path v).parts = v.parts :=
  result_induction path (P := fun w => w.parts = v.parts)
    (fun rule hmem w hw => ((rule.makes_effect path w).parts (hrules rule hmem)).trans hw) rfl

end Pipeline
end Valgen
