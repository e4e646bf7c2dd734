import Valgen.Proofs.Compile.Results
/-!
# Proofs.Compile.Invariants — what holds of everything that is compiled

A property of validators that is kept by all that the compilers do with validators (`Invariant`) holds of what a
document is compiled to, if it holds of what its references end in (`Invariant.compileRaw`, by induction on the nesting
of calls).  The compilers are walked through once, here; what is said of compiled validators is said by an invariant.
-/
namespace Valgen

namespace Compile

open Schema (Facts Keywords Node Reference)

/-- **A property of validators that the compilers of a setup keep**, the setup's hook and recipes aside. -/
structure Invariant (setup : Setup) (P : Validator → Prop) : Prop where
  composed {base : Base} : base.isForeign = false → (∀ v ∈ base.parts, P v) → P (.ofBase base)
  literal (facts : Facts) (value : Json) : P (literalOf facts value)
  mark {v : Validator} {m : Modifier} : m.slot ≠ .refinement → P v → P (v.mark m)
  replace {v : Validator} {m : Modifier} : m.slot ≠ .refinement → P v → P (v.replace m)
  rule {rule : Rule} {v : Validator} (path : Path) : rule ∈ setup.rules → P v → P (rule.effect path v)
  negation {v : Validator} (message : Option String) : P v →
    P (Validator.any.refine (failsPredicate (setup.render v)) message)
  condition {c yes no : Validator} (dialect : Dialect) : P c → P yes → P no →
    P ((Validator.ofBase (.union [yes, no])).superRefine
      (conditionBody (setup.render c) (setup.render yes) (setup.render no) (issuesField dialect)))

namespace Invariant

variable {ω : Type} {P : Validator → Prop}

/-! ## Leaves -/

section
variable {setup : Setup} (hP : Invariant setup P)
include hP

theorem any : P .any := hP.composed rfl (fun _ h => absurd h List.not_mem_nil)

theorem never : P .never := hP.composed rfl (fun _ h => absurd h List.not_mem_nil)

theorem enumeration (facts : Facts) : P (Compile.enumeration facts) := by
  unfold Compile.enumeration
  split
  · exact hP.never
  · exact hP.literal facts _
  · split
    · exact hP.composed rfl (fun _ h => absurd h List.not_mem_nil)
    · refine hP.composed rfl (fun v hv => ?_)
      obtain ⟨value, _, rfl⟩ := List.mem_map.1 hv
      exact hP.literal facts value

theorem constant (facts : Facts) : P (Compile.constant facts) := by
  unfold Compile.constant
  split
  · exact hP.literal facts _
  · exact hP.any

theorem primitive (kind : Kind) (facts : Facts) : P (Compile.primitive kind facts) := by
  unfold Compile.primitive
  split
  · exact hP.enumeration facts
  · split
    · exact hP.constant facts
    · split <;> exact hP.composed rfl (fun _ h => absurd h List.not_mem_nil)

theorem result (path : Path) {v : Validator} (hv : P v) : P (setup.rules.result path v) :=
  Pipeline.result_induction path (fun _ hrule _ h => hP.rule path hrule h) hv

theorem annotate {k : Keywords Node} {ctx : Context} {v : Validator} (hv : P v) : P (Compile.annotate k ctx v) :=
  annotate_induction (fun hslot _ => hP.mark hslot) (fun hslot _ => hP.replace hslot) hv

theorem balanced : ∀ vs : List Validator, (∀ v ∈ vs, P v) → P (Compile.balanced vs) := by
  intro vs
  fun_induction Compile.balanced vs with
  | case1 => exact fun _ => hP.never
  | case2 v => exact fun h => h v List.mem_cons_self
  | case3 v w rest vs half ihtake ihdrop =>
    intro h
    refine hP.composed rfl (fun part hpart => ?_)
    rcases List.mem_cons.1 hpart with rfl | hpart
    · exact ihtake (fun u hu => h u (List.mem_of_mem_take hu))
    · rw [List.mem_singleton.1 hpart]
      exact ihdrop (fun u hu => h u (List.mem_of_mem_drop hu))

theorem intersectIf {present : Bool} {composition : CompileM ω Validator} {v w : Validator}
    (hcomposition : ∀ {other}, Gives composition other → P other) (hv : P v)
    (h : Gives (Compile.intersectIf present v composition) w) : P w := by
  rcases gives_intersectIf h with ⟨_, rfl⟩ | ⟨_, other, hother, rfl⟩
  · exact hv
  · refine hP.composed rfl (fun part hpart => ?_)
    rcases List.mem_cons.1 hpart with rfl | hpart
    · exact hv
    · rw [List.mem_singleton.1 hpart]
      exact hcomposition hother

end

/-! ## Compilers -/

theorem forall_of_forall₂ {α : Type} {R : α → Validator → Prop} {xs : List α} {vs : List Validator}
    (h : List.Forall₂ R xs vs) (hR : ∀ a v, R a v → P v) : ∀ v ∈ vs, P v := by
  induction h with
  | nil => exact fun _ hv => absurd hv List.not_mem_nil
  | cons hhead _ ih =>
    intro v hv
    rcases List.mem_cons.1 hv with rfl | hv
    · exact hR _ _ hhead
    · exact ih v hv

section
variable {sub : Sub ω} {k : Keywords Node} {ctx : Context} {node : Node} {v : Validator}
variable (hP : Invariant sub.setup P) (hraw : ∀ {node ctx v}, Gives (sub.raw node ctx) v → P v)
include hP hraw

theorem compile (h : Gives (sub.compile node ctx) v) : P v := by
  obtain ⟨raw, hgives, rfl⟩ := gives_compile h
  exact hP.result ctx.path (hraw hgives)

theorem compileOrAny {node : Option Node} (h : Gives (sub.compileOrAny node ctx) v) : P v := by
  rcases gives_compileOrAny h with ⟨_, rfl⟩ | ⟨c, _, h⟩
  · exact hP.any
  · exact hP.compile hraw h

theorem compileAllOf (h : Gives (Compile.compileAllOf sub k ctx) v) : P v := by
  obtain ⟨vs, rfl, hvs⟩ := gives_compileAllOf h
  exact hP.balanced vs (forall_of_forall₂ hvs (fun _ _ => hP.compile hraw))

theorem compileAlternatives {keyword : String} {join : List Validator → Base} {members : List Node}
    (hjoin : ∀ vs, (join vs).isForeign = false ∧ (join vs).parts = vs)
    (h : Gives (Compile.compileAlternatives sub keyword join members ctx) v) : P v := by
  rcases gives_compileAlternatives h with ⟨_, rfl⟩ | ⟨c, _, h⟩ | ⟨vs, _, rfl, hvs⟩
  · exact hP.any
  · exact hP.compile hraw h
  · refine hP.composed (hjoin vs).1 ?_
    rw [(hjoin vs).2]
    exact forall_of_forall₂ hvs (fun _ _ => hP.compile hraw)

theorem compileAnyOf (h : Gives (Compile.compileAnyOf sub k ctx) v) : P v :=
  hP.compileAlternatives hraw (fun _ => ⟨rfl, rfl⟩) h

theorem compileOneOf (h : Gives (Compile.compileOneOf sub k ctx) v) : P v :=
  hP.compileAlternatives hraw (fun _ => ⟨rfl, rfl⟩) h

theorem compileNot (h : Gives (Compile.compileNot sub k ctx) v) : P v := by
  rcases gives_compileNot h with rfl | ⟨_, negated, message, hnegated, rfl⟩
  · exact hP.any
  · exact hP.negation message (hP.compile hraw hnegated)

theorem compileConditional (h : Gives (Compile.compileConditional sub k ctx) v) : P v := by
  obtain ⟨_, condition, yes, no, hcondition, hyes, hno, rfl⟩ := gives_compileConditional h
  exact hP.condition ctx.dialect (hP.compile hraw hcondition) (hP.compileOrAny hraw hyes) (hP.compileOrAny hraw hno)

theorem compileMultiType (hseveral : 1 < k.types.length) (h : Gives (Compile.compileMultiType sub k ctx) v) : P v := by
  obtain ⟨vs, rfl, hvs⟩ := gives_compileMultiType hseveral h
  exact hP.composed rfl (forall_of_forall₂ hvs (fun _ _ => hraw))

theorem property {entry : String × Node} {p : Property} (h : PropertyOf sub k ctx entry p) : P p.value := by
  obtain ⟨raw, hgives, hvalue⟩ := h.value
  rw [hvalue]
  refine hP.result _ ?_
  unfold marked
  split
  · exact hraw hgives
  · exact hP.mark Slot.noConfusion (hraw hgives)

theorem unlisted {additional : Option Node} {rest : Unlisted} (h : UnlistedOf sub ctx additional rest) :
    ∀ v ∈ rest.parts, P v := by
  cases h with
  | absent | no | yes => exact fun _ hv => absurd hv List.not_mem_nil
  | values hvalues =>
    intro v hv
    rw [List.mem_singleton.1 hv]
    exact hP.compile hraw hvalues

theorem objectBase (h : ObjectBaseOf sub k ctx v) : P v := by
  cases h with
  | anyMap _ _ =>
    refine hP.composed rfl (fun part hpart => ?_)
    rw [List.mem_singleton.1 hpart]
    exact hP.any
  | map _ _ hvalues =>
    refine hP.composed rfl (fun part hpart => ?_)
    rw [List.mem_singleton.1 hpart]
    exact hP.compile hraw hvalues
  | shape _ hproperties hrest =>
    refine hP.composed rfl (fun part hpart => ?_)
    rcases List.mem_append.1 hpart with hpart | hpart
    · have hvalues := List.forall₂_map_right_iff.2 (hproperties.imp (fun _ _ hp => hP.property hraw hp))
      exact forall_of_forall₂ hvalues (fun _ _ => id) part hpart
    · exact hP.unlisted hraw hrest part hpart

theorem compileObject (h : Gives (Compile.compileObject sub k ctx) v) : P v := by
  obtain ⟨base, first, second, hbase, hfirst, hsecond, hv⟩ := gives_compileObject h
  have hfirst := hP.intersectIf (hP.compileAllOf hraw) (hP.objectBase hraw hbase) hfirst
  have hsecond := hP.intersectIf (hP.compileAnyOf hraw) hfirst hsecond
  exact hP.intersectIf (hP.compileOneOf hraw) hsecond hv

theorem compileArray (h : Gives (Compile.compileArray sub k ctx) v) : P v := by
  cases gives_compileArray h with
  | places _ hitems hrest =>
    refine hP.composed rfl (fun part hpart => ?_)
    rcases List.mem_append.1 hpart with hpart | hpart
    · exact forall_of_forall₂ hitems (fun _ _ => hP.compile hraw) part hpart
    · rcases gives_compileRest hrest with ⟨rfl, _⟩ | ⟨_, w, _, rfl, hw⟩
      · cases hpart
      · rw [List.mem_singleton.1 hpart]
        exact hP.compile hraw hw
  | tuple _ _ hitems =>
    refine hP.composed rfl (fun part hpart => ?_)
    rw [Base.parts, Option.toList_none, List.append_nil] at hpart
    exact forall_of_forall₂ hitems (fun _ _ => hP.compile hraw) part hpart
  | items _ _ hitem =>
    refine hP.composed rfl (fun part hpart => ?_)
    rw [List.mem_singleton.1 hpart]
    exact hP.compile hraw hitem
  | anyItems _ _ =>
    refine hP.composed rfl (fun part hpart => ?_)
    rw [List.mem_singleton.1 hpart]
    exact hP.any

theorem compileKind (hrefer : ∀ {reference ctx v}, Gives (sub.refer reference ctx) v → P v) {kind : Kind}
    (hrecipes : sub.setup.recipes = []) (hselect : select sub.setup.recipes k = kind)
    (h : Gives (Compile.compileKind sub kind k ctx) v) : P v := by
  cases kind with
  | custom typeName recipe =>
    rw [hrecipes] at hselect
    exact absurd (select_eq_custom hselect).2 List.not_mem_nil
  | object => exact hP.compileObject hraw h
  | array => exact hP.compileArray hraw h
  | string | number | integer | boolean | null =>
    rw [gives_pure h]
    exact hP.primitive _ k.toFacts
  | enum =>
    rw [gives_pure h]
    exact hP.enumeration k.toFacts
  | const =>
    rw [gives_pure h]
    exact hP.constant k.toFacts
  | allOf => exact hP.compileAllOf hraw h
  | anyOf => exact hP.compileAnyOf hraw h
  | oneOf => exact hP.compileOneOf hraw h
  | not => exact hP.compileNot hraw h
  | conditional => exact hP.compileConditional hraw h
  | multiType => exact hP.compileMultiType hraw (select_eq_multiType hselect) h
  | reference =>
    unfold Compile.compileKind at h
    dsimp only at h
    split at h
    · exact hrefer h
    · rw [gives_pure h]
      exact hP.any
  | any =>
    rw [gives_pure h]
    exact hP.any

theorem compileNode (hrefer : ∀ {reference ctx v}, Gives (sub.refer reference ctx) v → P v)
    (hhook : sub.setup.hook node ctx = none) (hrecipes : sub.setup.recipes = [])
    (h : Gives (Compile.compileNode sub node ctx) v) : P v := by
  rcases gives_compileNode hhook h with ⟨_, rfl⟩ | ⟨_, rfl⟩ | ⟨k, w, _, hw, rfl⟩
  · exact hP.any
  · exact hP.never
  · exact hP.annotate (hP.compileKind hraw hrefer hrecipes rfl hw)

end

/-! ## Documents -/

section
variable {s : Session ω} (hP : Invariant s.setup P) (hhook : ∀ node ctx, s.setup.hook node ctx = none)
  (hrecipes : s.setup.recipes = [])
  (hresolve : ∀ {reference ctx v}, Gives (s.resolve reference ctx) (.validator v) → P v)
  (hrecursion : ∀ key, P (s.recursion key))
include hP hhook hrecipes hresolve hrecursion

/-- **What holds of the ends of references holds of everything that is compiled.** -/
theorem compileRaw : ∀ (budget : Nat) {active : List String} {node : Node} {ctx : Context} {v : Validator},
    Gives (s.compileRaw budget active node ctx) v → P v
  | 0, _, _, _, _, h => absurd h not_gives_throw
  | budget + 1, active, node, ctx, v, h => by
    let sub : Sub ω := {
      setup := s.setup
      raw := s.compileRaw budget active
      refer := s.refer (s.compileRaw budget) active }
    have hsub : Invariant sub.setup P := hP
    refine hsub.compileNode (compileRaw budget) ?_ (hhook node ctx) hrecipes h
    intro reference ctx w hw
    rcases gives_refer hw with hresolved | ⟨pointer, _, ⟨_, rfl⟩ | ⟨_, target, _, htarget⟩⟩
    · exact hresolve hresolved
    · exact hrecursion _
    · exact compileRaw budget htarget

end

/-- **A document that stands alone.** -/
theorem compileValidator {setup : Setup} (hP : Invariant setup P) (hhook : ∀ node ctx, setup.hook node ctx = none)
    (hrecipes : setup.recipes = [])
    (hname : ∀ name, setup.options.name = some name → P (.lazy (Name.safeIdentifier name)))
    {root : Node} {v : Validator} (h : Compile.compileValidator setup root = .ok v) : P v := by
  obtain ⟨raw, hraw, rfl⟩ := gives_session_compile (gives_of_compileValidator h)
  refine hP.result _ (compileRaw hP hhook hrecipes ?_ ?_ _ hraw)
  · intro reference ctx w hw
    cases (gives_resolve_standalone hw).2
  · intro key
    unfold Session.recursion standalone
    dsimp only
    cases hoption : setup.options.name with
    | none => exact hP.any
    | some name =>
      rw [Option.map_some]
      dsimp only
      split
      · exact hname name hoption
      · exact hP.any

end Invariant
end Compile
end Valgen
