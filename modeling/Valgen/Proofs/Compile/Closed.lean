import Valgen.Proofs.Compile.Invariants
import Valgen.Proofs.Name
import Valgen.Proofs.Validator.Returns
/-!
# Proofs.Compile.Closed — what a document that stands alone takes from elsewhere

Two invariants of the compilers, for a setup without a hook and without recipes.  The only names that the validator of a
document refers to are the name of the document itself, and it does so lazily (`refersOnlyTo_compileValidator`).  The
texts that it takes over are made of texts of validators, so that without comments they have no carriage return
(`not_mem_return_compileValidator`).
-/
namespace Valgen

/-! ## Names -/

namespace Validator

variable {name : Option String} {v : Validator}

/-- **A validator refers to nothing but a name, and to that lazily**, at every depth. -/
def RefersOnlyTo (name : Option String) (v : Validator) : Prop :=
  ∀ w, v.Inside w → ∀ expression deferred, w.base = .reference expression deferred →
    deferred = true ∧ name = some expression

theorem RefersOnlyTo.part (h : v.RefersOnlyTo name) {c : Validator} (hc : c ∈ v.parts) : c.RefersOnlyTo name :=
  fun w hw => h w (hw.of_part hc)

theorem refersOnlyTo_of_parts
    (hbase : ∀ expression deferred, v.base = .reference expression deferred → deferred = true ∧ name = some expression)
    (hparts : ∀ c ∈ v.parts, c.RefersOnlyTo name) : v.RefersOnlyTo name := by
  intro w hw
  rcases hw.eq_or_below with rfl | ⟨c, hc, hbelow⟩
  · exact hbase
  · exact hparts c hc w hbelow

/-- **What changes nothing of the parts and puts no reference in place of the base.** -/
theorem RefersOnlyTo.congr (h : v.RefersOnlyTo name) {w : Validator} (hparts : w.parts = v.parts)
    (hbase : ∀ expression deferred, w.base = .reference expression deferred → v.base = .reference expression deferred) :
    w.RefersOnlyTo name := by
  refine refersOnlyTo_of_parts (fun expression deferred hw => h v .root _ _ (hbase _ _ hw)) (fun c hc => ?_)
  rw [hparts] at hc
  exact h.part hc

theorem refersOnlyTo_ofBase {base : Base} (hbase : base.isForeign = false)
    (hparts : ∀ c ∈ base.parts, c.RefersOnlyTo name) : (ofBase base).RefersOnlyTo name := by
  refine refersOnlyTo_of_parts ?_ (by rwa [parts_ofBase])
  rintro expression deferred rfl
  cases hbase

end Validator

namespace Rule

theorem Makes.reference {rule : Rule} {v w : Validator} (h : rule.Makes v w) (hrule : rule.isUser = false)
    (expression : String) (deferred : Bool) (hw : w.base = .reference expression deferred) :
    v.base = .reference expression deferred := by
  cases h with
  | same | branded | required | refined => exact hw
  | strict | nonEmpty => cases hw
  | optional => rwa [Validator.optional, Validator.base_mark] at hw
  | user => cases hrule

/-- **A rule adds no reference**: where there is none but to a name, there is none after it. -/
def AddsNoReference (rule : Rule) : Prop :=
  ∀ name path v, v.RefersOnlyTo name → (rule.effect path v).RefersOnlyTo name

theorem addsNoReference_of_isUser {rule : Rule} (hrule : rule.isUser = false) : rule.AddsNoReference := by
  intro name path v hv
  have hmakes := rule.makes_effect path v
  exact hv.congr (hmakes.parts hrule) (hmakes.reference hrule)

theorem AddsNoReference.of_user {rule : Rule} (h : rule.isUser = true → rule.AddsNoReference) :
    rule.AddsNoReference := by
  cases hrule : rule.isUser with
  | false => exact addsNoReference_of_isUser hrule
  | true => exact h hrule

end Rule

namespace Compile

open Schema (Facts Node)

theorem invariant_refersOnlyTo {setup : Setup} (hrules : ∀ rule ∈ setup.rules, rule.AddsNoReference)
    (name : Option String) : Invariant setup (Validator.RefersOnlyTo name) where
  composed := Validator.refersOnlyTo_ofBase
  literal facts value := by
    unfold literalOf
    split
    · exact Validator.refersOnlyTo_of_parts (fun _ _ h => by cases h) (fun _ h => absurd h List.not_mem_nil)
    · exact Validator.refersOnlyTo_of_parts (fun _ _ h => by cases h) (fun _ h => absurd h List.not_mem_nil)
    · exact Validator.refersOnlyTo_ofBase rfl (fun _ h => absurd h List.not_mem_nil)
  mark hslot h := h.congr (Validator.parts_mark _ (Modifier.parts_of_slot hslot))
    (fun _ _ hbase => by rwa [Validator.base_mark] at hbase)
  replace hslot h := h.congr (Validator.parts_replace _ hslot) (fun _ _ hbase => hbase)
  rule path hrule h := hrules _ hrule name path _ h
  negation _ _ := Validator.refersOnlyTo_of_parts (fun _ _ h => by cases h) (fun _ h => absurd h List.not_mem_nil)
  condition _ _ hyes hno := by
    have hunion : (Validator.ofBase (.union [_, _])).RefersOnlyTo name := Validator.refersOnlyTo_ofBase rfl
      (List.forall_mem_cons.2 ⟨hyes, List.forall_mem_singleton.2 hno⟩)
    exact hunion.congr (by simp [Validator.superRefine, Modifier.parts]) (fun _ _ hbase => hbase)

/-- **The validator of a document that stands alone refers to nothing but the name of the document.** -/
theorem refersOnlyTo_compileValidator {setup : Setup} (hhook : ∀ node ctx, setup.hook node ctx = none)
    (hrecipes : setup.recipes = []) (hrules : ∀ rule ∈ setup.rules, rule.AddsNoReference) {root : Node} {v : Validator}
    (h : compileValidator setup root = .ok v) : v.RefersOnlyTo (setup.options.name.map Name.safeIdentifier) := by
  refine (invariant_refersOnlyTo hrules _).compileValidator hhook hrecipes (fun name hname => ?_) h
  refine Validator.refersOnlyTo_of_parts (fun expression deferred hbase => ?_) (fun _ hc => absurd hc List.not_mem_nil)
  cases hbase
  exact ⟨rfl, by rw [hname, Option.map_some]⟩

end Compile

/-! ## Texts that are taken over -/

theorem Modifier.fragments_of_slot {m : Modifier} (h : m.slot ≠ .refinement) : m.fragments = [] := by
  cases m with
  | refine | superRefine | pipe => exact absurd rfl h
  | _ => simp [fragments]

namespace Validator

variable {v : Validator} {m : Modifier}

theorem fragments_push (v : Validator) (m : Modifier) : (v.push m).fragments = v.fragments ++ m.fragments := by
  simp [fragments_eq, push]

/-- **The texts that a validator takes over have no carriage return.** -/
def Returnless (v : Validator) : Prop := ∀ text ∈ v.fragments, '\r' ∉ text.toList

theorem returnless_ofBase {base : Base} (hbase : base.isForeign = false) (h : ∀ c ∈ base.parts, c.Returnless) :
    (ofBase base).Returnless := by
  intro text htext
  rw [fragments_eq, ofBase, List.flatMap_nil, List.append_nil, Base.fragments_eq hbase] at htext
  obtain ⟨c, hc, htext⟩ := List.mem_flatMap.1 htext
  exact h c hc text htext

theorem Returnless.push (h : v.Returnless) (hm : ∀ text ∈ m.fragments, '\r' ∉ text.toList) : (v.push m).Returnless := by
  intro text htext
  rw [fragments_push] at htext
  exact (List.mem_append.1 htext).elim (h text) (hm text)

theorem Returnless.withoutSlot (h : v.Returnless) (slot : Slot) : (v.withoutSlot slot).Returnless := by
  intro text htext
  rw [fragments_eq] at htext
  refine h text ?_
  rw [fragments_eq]
  rcases List.mem_append.1 htext with htext | htext
  · exact List.mem_append_left _ htext
  · obtain ⟨m, hm, htext⟩ := List.mem_flatMap.1 htext
    exact List.mem_append_right _ (List.mem_flatMap.2 ⟨m, List.mem_of_mem_filter hm, htext⟩)

theorem Returnless.pushMarker (h : v.Returnless) (hslot : m.slot ≠ .refinement) : (v.push m).Returnless :=
  h.push (by rw [Modifier.fragments_of_slot hslot]; exact fun _ hm => absurd hm List.not_mem_nil)

theorem Returnless.mark (h : v.Returnless) (hslot : m.slot ≠ .refinement) : (v.mark m).Returnless := by
  unfold Validator.mark
  split
  · exact h
  · exact h.pushMarker hslot

theorem Returnless.replace (h : v.Returnless) (hslot : m.slot ≠ .refinement) : (v.replace m).Returnless :=
  (h.withoutSlot m.slot).pushMarker hslot

theorem Returnless.refine (h : v.Returnless) {predicate : String} (hpredicate : '\r' ∉ predicate.toList)
    (message : Option String) : (v.refine predicate message).Returnless :=
  h.push (by rw [Modifier.fragments]; exact List.forall_mem_singleton.2 hpredicate)

theorem returnless_any : any.Returnless := returnless_ofBase rfl (fun _ h => absurd h List.not_mem_nil)

end Validator

/-- **The text that a rule adds has no carriage return.** -/
def Rule.Returnless : Rule → Prop
  | .refineAt _ _ predicate _ => '\r' ∉ predicate.toList
  | .user name process => ∀ path v, v.Returnless → ((Rule.user name process).effect path v).Returnless
  | _ => True

theorem Rule.Makes.returnless {rule : Rule} {v w : Validator} (h : rule.Makes v w) (hrule : rule.Returnless)
    (hv : v.Returnless) : w.Returnless := by
  have hbase : ∀ {base : Base}, base.fragments = v.base.fragments → Validator.Returnless { v with base := base } := by
    intro base hsame text htext
    rw [Validator.fragments_eq, hsame, ← Validator.fragments_eq] at htext
    exact hv text htext
  cases h with
  | same => exact hv
  | strict hobject => exact hbase (by simp [hobject, Base.fragments, Unlisted.fragments])
  | nonEmpty harray => exact hbase (by simp [harray, Base.fragments])
  | branded => exact hv.replace Slot.noConfusion
  | optional => exact hv.mark Slot.noConfusion
  | required => exact hv.withoutSlot .optional
  | refined name pattern predicate message => exact hv.refine hrule message
  | user name process path => exact hrule path _ hv

namespace Compile

open Schema (Facts Node)

theorem not_mem_return_render {setup : Setup} {v : Validator} (h : v.Returnless)
    (hjsdocs : setup.options.jsdocs = false) : '\r' ∉ (setup.render v).toList :=
  Render.not_mem_return_validator hjsdocs 0 h

theorem not_mem_return_conditionBody {condition yes no : String} (hcondition : '\r' ∉ condition.toList)
    (hyes : '\r' ∉ yes.toList) (hno : '\r' ∉ no.toList) (dialect : Dialect) :
    '\r' ∉ (conditionBody condition yes no (issuesField dialect)).toList := by
  have hissues : '\r' ∉ (issuesField dialect).toList := by cases dialect <;> decide
  generalize issuesField dialect = issues at hissues ⊢
  unfold conditionBody
  simp only [String.toList_append, List.mem_append, not_or]
  refine ⟨⟨⟨⟨⟨⟨⟨⟨?_, hcondition⟩, ?_⟩, hyes⟩, ?_⟩, hno⟩, ?_⟩, hissues⟩, ?_⟩ <;> simp

theorem invariant_returnless {setup : Setup} (hjsdocs : setup.options.jsdocs = false)
    (hrules : ∀ rule ∈ setup.rules, rule.Returnless) : Invariant setup Validator.Returnless where
  composed := Validator.returnless_ofBase
  literal facts value := by
    have hcompact : '\r' ∉ value.compact.toList := (part_compact (R := (Render.returnless rfl).pair) value).2
    unfold literalOf
    split
    · exact Validator.returnless_any.refine (by simp [hcompact]) _
    · exact Validator.returnless_any.refine (by simp [hcompact]) _
    · exact Validator.returnless_ofBase rfl (fun _ h => absurd h List.not_mem_nil)
  mark hslot h := h.mark hslot
  replace hslot h := h.replace hslot
  rule path hrule h := (Rule.makes_effect _ path _).returnless (hrules _ hrule) h
  negation message h :=
    Validator.returnless_any.refine (by simp [failsPredicate, not_mem_return_render h hjsdocs]) message
  condition dialect hc hyes hno := by
    have hunion : (Validator.ofBase (.union [_, _])).Returnless := Validator.returnless_ofBase rfl
      (List.forall_mem_cons.2 ⟨hyes, List.forall_mem_singleton.2 hno⟩)
    refine hunion.push ?_
    rw [Modifier.fragments]
    exact List.forall_mem_singleton.2 (not_mem_return_conditionBody (not_mem_return_render hc hjsdocs)
      (not_mem_return_render hyes hjsdocs) (not_mem_return_render hno hjsdocs) dialect)

theorem not_mem_return_safeIdentifier (name : String) : '\r' ∉ (Name.safeIdentifier name).toList := by
  intro hmem
  cases Name.isContinue_of_mem (Name.isIdentifier_safeIdentifier name) hmem

/-- **Without comments the text of a document that stands alone has no carriage return.** -/
theorem not_mem_return_compileValidator {setup : Setup} (hhook : ∀ node ctx, setup.hook node ctx = none)
    (hrecipes : setup.recipes = []) (hjsdocs : setup.options.jsdocs = false)
    (hrules : ∀ rule ∈ setup.rules, rule.Returnless) {root : Node} {v : Validator}
    (h : compileValidator setup root = .ok v) : '\r' ∉ (setup.render v).toList := by
  refine not_mem_return_render ?_ hjsdocs
  refine (invariant_returnless hjsdocs hrules).compileValidator hhook hrecipes (fun name _ => ?_) h
  intro text htext
  rw [Validator.fragments_eq, Validator.lazy, Validator.ofBase, Base.fragments] at htext
  rw [List.mem_singleton.1 htext]
  exact not_mem_return_safeIdentifier name

end Compile
end Valgen
