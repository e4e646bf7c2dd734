import Valgen.Proofs.Validator.Parts
import Valgen.Validator.Render
/-!
# Proofs.Validator.Plain — validators up to the descriptions of their properties

The properties of an object carry descriptions, which are written as comments if that is asked for and never matter
otherwise.  `Validator.plain` is the validator without them: it is written with the same text where comments are off
(`Validator.render_plain`) and every way to mark a validator commutes with it.  No rule takes notice of them
(`Rule.IgnoresDescriptions`) but one that is given as a function.
-/
namespace Valgen

mutual

/-- **The validator without the descriptions of properties**, at every depth. -/
def Validator.plain : Validator → Validator
  | ⟨base, modifiers⟩ => ⟨base.plain, plainModifiers modifiers⟩

def Base.plain : Base → Base
  | .object properties rest => .object (plainProperties properties) rest.plain
  | .array items checks => .array items.plain checks
  | .tuple items rest => .tuple (plainAll items) (plain? rest)
  | .record values => .record values.plain
  | .union members => .union (plainAll members)
  | .xor members => .xor (plainAll members)
  | .intersection left right => .intersection left.plain right.plain
  | base => base

def plainModifiers : List Modifier → List Modifier
  | [] => []
  | m :: rest => m.plain :: plainModifiers rest

def Modifier.plain : Modifier → Modifier
  | .pipe target => .pipe target.plain
  | m => m

def plainProperties : List Property → List Property
  | [] => []
  | ⟨key, value, _⟩ :: rest => ⟨key, value.plain, none⟩ :: plainProperties rest

def Unlisted.plain : Unlisted → Unlisted
  | .catchall values => .catchall values.plain
  | rest => rest

def plainAll : List Validator → List Validator
  | [] => []
  | v :: rest => v.plain :: plainAll rest

def plain? : Option Validator → Option Validator
  | none => none
  | some v => some v.plain

end

/-! ## Markers -/

theorem plainModifiers_eq : ∀ modifiers : List Modifier, plainModifiers modifiers = modifiers.map Modifier.plain
  | [] => rfl
  | m :: rest => by
    unfold plainModifiers
    rw [plainModifiers_eq rest]
    rfl

theorem Modifier.slot_plain (m : Modifier) : m.plain.slot = m.slot := by
  cases m <;> rfl

namespace Validator

theorem modifiers_plain (v : Validator) : v.plain.modifiers = v.modifiers.map Modifier.plain := by
  obtain ⟨base, modifiers⟩ := v
  exact plainModifiers_eq modifiers

theorem base_plain (v : Validator) : v.plain.base = v.base.plain := by
  cases v
  rfl

theorem hasSlot_plain (v : Validator) (slot : Slot) : v.plain.hasSlot slot = v.hasSlot slot := by
  unfold hasSlot
  rw [modifiers_plain, List.any_map]
  exact congrArg v.modifiers.any (funext (fun m => congrArg (· == slot) m.slot_plain))

theorem eq_of_plain {v w : Validator} (hbase : w.base = v.base.plain)
    (hmodifiers : w.modifiers = v.modifiers.map Modifier.plain) : w = v.plain := by
  obtain ⟨base, modifiers⟩ := v
  obtain ⟨base', modifiers'⟩ := w
  obtain rfl : base' = base.plain := hbase
  obtain rfl : modifiers' = modifiers.map Modifier.plain := hmodifiers
  rw [Validator.plain, plainModifiers_eq]

theorem push_plain (v : Validator) (m : Modifier) : v.plain.push m.plain = (v.push m).plain := by
  refine eq_of_plain v.base_plain ?_
  unfold push
  rw [modifiers_plain, List.map_append]
  rfl

theorem withoutSlot_plain (v : Validator) (slot : Slot) : v.plain.withoutSlot slot = (v.withoutSlot slot).plain := by
  refine eq_of_plain v.base_plain ?_
  unfold withoutSlot
  rw [modifiers_plain, List.filter_map]
  exact congrArg (List.map Modifier.plain) (List.filter_congr (fun m _ => congrArg (· != slot) m.slot_plain))

theorem mark_plain (v : Validator) (m : Modifier) : v.plain.mark m.plain = (v.mark m).plain := by
  unfold mark
  rw [m.slot_plain, hasSlot_plain]
  split
  · rfl
  · exact push_plain v m

theorem replace_plain (v : Validator) (m : Modifier) : v.plain.replace m.plain = (v.replace m).plain := by
  unfold replace
  rw [m.slot_plain, withoutSlot_plain, push_plain]

end Validator

/-! ## Rules -/

namespace Rule

theorem makeStrict_plain (v : Validator) : makeStrict v.plain = (makeStrict v).map Validator.plain := by
  obtain ⟨base, modifiers⟩ := v
  cases base with
  | object properties rest => cases rest <;> rfl
  | _ => rfl

theorem makeNonEmpty_plain (v : Validator) : makeNonEmpty v.plain = (makeNonEmpty v).map Validator.plain := by
  obtain ⟨base, modifiers⟩ := v
  cases base with
  | array items checks =>
    simp only [makeNonEmpty, Validator.plain, Base.plain]
    split <;> rfl
  | _ => rfl

theorem whenMatched_plain (pattern : String) (path : Path) {v v' : Validator} (h : v' = v.plain) :
    (whenMatched pattern v').decided path = ((whenMatched pattern v).decided path).map Validator.plain := by
  rw [decided_whenMatched, decided_whenMatched, h]
  split <;> rfl

theorem process_plain {rule : Rule} (hrule : rule.isUser = false) (path : Path) (v : Validator) :
    (rule.process path v.plain).decided path = ((rule.process path v).decided path).map Validator.plain := by
  have hoptional : v.plain.isOptional = v.isOptional := v.hasSlot_plain _
  cases rule with
  | strictObjects => exact makeStrict_plain v
  | nonEmptyArrays => exact makeNonEmpty_plain v
  | brandField field brand =>
    simp only [process, Inquiry.decided]
    split
    · exact congrArg some (v.replace_plain (.brand brand))
    · rfl
  | forceOptional pattern =>
    simp only [process, hoptional]
    split
    · rfl
    · exact whenMatched_plain pattern path (v.mark_plain .optional)
  | forceRequired pattern =>
    simp only [process, hoptional]
    split
    · exact whenMatched_plain pattern path (v.withoutSlot_plain _)
    · rfl
  | refineAt name pattern predicate message =>
    exact whenMatched_plain pattern path (v.push_plain (.refine predicate message))
  | user => cases hrule

/-- **A rule takes no notice of descriptions**: validators that differ in the descriptions of properties at most do so
after it, too. -/
def IgnoresDescriptions (rule : Rule) : Prop :=
  ∀ path v v', v'.plain = v.plain → (rule.effect path v').plain = (rule.effect path v).plain

theorem ignoresDescriptions_of_isUser {rule : Rule} (hrule : rule.isUser = false) : rule.IgnoresDescriptions := by
  have heffect : ∀ path v, (rule.effect path v).plain = rule.effect path v.plain := by
    intro path v
    unfold effect
    rw [process_plain hrule]
    cases (rule.process path v).decided path <;> rfl
  intro path v v' h
  rw [heffect, heffect, h]

theorem IgnoresDescriptions.of_user {rule : Rule} (h : rule.isUser = true → rule.IgnoresDescriptions) :
    rule.IgnoresDescriptions := by
  cases hrule : rule.isUser with
  | false => exact ignoresDescriptions_of_isUser hrule
  | true => exact h hrule

end Rule

theorem Pipeline.plain_result (path : Path) : ∀ {rules : Pipeline}, (∀ rule ∈ rules, rule.IgnoresDescriptions) →
    ∀ {v v' : Validator}, v'.plain = v.plain → (rules.result path v').plain = (rules.result path v).plain
  | [], _, _, _, h => h
  | rule :: rest, hrules, v, v', h => by
    obtain ⟨hrule, hrest⟩ := List.forall_mem_cons.1 hrules
    rw [result_cons, result_cons]
    exact plain_result path hrest (hrule path v v' h)

/-! ## Texts -/

namespace Render

variable {style : Style}

theorem comment_none (depth : Nat) {description : Option String} (h : style.jsdocs = false) :
    comment style.jsdocs depth description = [] := by
  rw [h]
  rfl

mutual

theorem validator_plain (h : style.jsdocs = false) (depth : Nat) : ∀ v : Validator,
    validator style depth v.plain = validator style depth v
  | ⟨b, modifiers⟩ => by
    unfold Validator.plain validator
    rw [base_plain h depth b, modifierCalls_plain h depth modifiers]

theorem base_plain (h : style.jsdocs = false) (depth : Nat) : ∀ b : Base,
    base style depth b.plain = base style depth b
  | .object properties rest => by
    unfold Base.plain base
    rw [members_plain h (depth + 1) properties, unlisted_plain h depth rest]
  | .array items checks => by
    unfold Base.plain base
    rw [validator_plain h depth items]
  | .tuple items rest => by
    unfold Base.plain base
    rw [validators_plain h depth items, validator?_plain h depth rest]
  | .record values => by
    unfold Base.plain base
    rw [validator_plain h depth values]
  | .union items => by
    unfold Base.plain base
    rw [validators_plain h depth items]
  | .xor items => by
    unfold Base.plain base
    rw [validators_plain h depth items]
  | .intersection left right => by
    unfold Base.plain base
    rw [validator_plain h depth left, validator_plain h depth right]
  | .any | .unknown | .never | .boolean | .null | .string _ _ _ | .number _ _ _ | .literal _ | .enum _
  | .reference _ _ | .custom _ => rfl

theorem modifierCalls_plain (h : style.jsdocs = false) (depth : Nat) : ∀ modifiers : List Modifier,
    modifierCalls style depth (plainModifiers modifiers) = modifierCalls style depth modifiers
  | [] => rfl
  | m :: rest => by
    unfold plainModifiers modifierCalls
    rw [modifierCall_plain h depth m, m.slot_plain, modifierCalls_plain h depth rest]

theorem modifierCall_plain (h : style.jsdocs = false) (depth : Nat) : ∀ m : Modifier,
    modifierCall style depth m.plain = modifierCall style depth m
  | .pipe target => by
    unfold Modifier.plain modifierCall
    rw [validator_plain h depth target]
  | .optional | .nullable | .readonly | .default _ | .describe _ | .brand _ | .refine _ _ | .superRefine _ => rfl

theorem members_plain (h : style.jsdocs = false) (depth : Nat) : ∀ properties : List Property,
    members style depth (plainProperties properties) = members style depth properties
  | [] => rfl
  | ⟨name, value, description⟩ :: rest => by
    unfold plainProperties members
    rw [comment_none depth h, comment_none depth h, validator_plain h depth value, members_plain h depth rest]

theorem unlisted_plain (h : style.jsdocs = false) (depth : Nat) : ∀ rest : Unlisted,
    unlisted style depth rest.plain = unlisted style depth rest
  | .catchall values => by
    unfold Unlisted.plain unlisted
    rw [validator_plain h depth values]
  | .strip | .strict | .passthrough => rfl

theorem validators_plain (h : style.jsdocs = false) (depth : Nat) : ∀ vs : List Validator,
    validators style depth (plainAll vs) = validators style depth vs
  | [] => rfl
  | v :: rest => by
    unfold plainAll validators
    rw [validator_plain h depth v, validators_plain h depth rest]

theorem validator?_plain (h : style.jsdocs = false) (depth : Nat) : ∀ v : Option Validator,
    validator? style depth (plain? v) = validator? style depth v
  | none => rfl
  | some v => by
    unfold plain? validator?
    rw [validator_plain h depth v]

end

end Render

/-- **Descriptions are not written where comments are off.** -/
theorem Validator.render_plain {style : Style} (h : style.jsdocs = false) (v : Validator) :
    v.plain.render style = v.render style := Render.validator_plain h 0 v

end Valgen
