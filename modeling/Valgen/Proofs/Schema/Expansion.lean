import Mathlib.Data.Set.Finite.List
import Mathlib.Logic.Relation
import Valgen.Proofs.Schema.Alike
/-!
# Proofs.Schema.Expansion — schemas without their references

In a document whose references stand alone, stay in it and do not lead back to themselves (`Expandable`), each reference
can be replaced by a copy of what it names, and the references in the copy again, until none is left.  `Expands` says
that a schema is what another one becomes in this way; every such document has an expansion
(`Expandable.exists_expansion`), since the references that a reference leads to are finitely many.
-/
namespace Valgen
namespace Schema

/-- **The schema of the same document that a reference names.** -/
def Node.target? (root : Node) (reference : String) : Option Node :=
  if (Reference.parse reference).document.isEmpty then
    root.pointer? (Reference.keyOf (Reference.parse reference).fragment)
  else none

/-- **A reference leads to those in the schema it names.** -/
def Leads (root : Node) (reference inner : String) : Prop :=
  ∃ target, root.target? reference = some target ∧ inner ∈ target.refs

/-- **A schema with each reference replaced by a copy of what it names**, at every depth. -/
inductive Expands (root : Node) : Node → Node → Prop
  | bool (value : Bool) : Expands root (.bool value) (.bool value)
  | reference {reference : String} {target : Keywords Node} {expanded : Node} :
    root.target? reference = some (.object target) → Expands root (.object target) expanded →
    Expands root (.object { ref := some reference }) expanded
  | object {k : Keywords Node} (copy : Node → Node) : k.ref = none → (∀ c, k.Holds c → Expands root c (copy c)) →
    Expands root (.object k) (.object (k.map copy))

/-- **A document whose references can be replaced**: each stands alone, names an object of the document, and does not
lead back to itself. -/
structure Expandable (root : Node) : Prop where
  alone : ∀ {k reference}, root.Inside (.object k) → k.ref = some reference → k = { ref := some reference }
  resolves : ∀ reference ∈ root.refs, ∃ target, root.target? reference = some (.object target)
  acyclic : ∀ reference ∈ root.refs, ¬ Relation.TransGen (Leads root) reference reference

theorem target?_eq_some_iff {root target : Node} {reference : String} : root.target? reference = some target ↔
    (Reference.parse reference).document.isEmpty = true ∧
      root.pointer? (Reference.keyOf (Reference.parse reference).fragment) = some target := by
  unfold Node.target?
  split_ifs with hdocument <;> simp [hdocument]

theorem inside_of_target? {root target : Node} {reference : String} (h : root.target? reference = some target) :
    root.Inside target := Node.inside_of_pointer? (target?_eq_some_iff.1 h).2

theorem target?_of_tokens {root : Node} {reference : String} {tokens : List (List Char)}
    (hdocument : (Reference.parse reference).document.isEmpty = true)
    (htokens : Pointer.tokens? (Reference.keyOf (Reference.parse reference).fragment).toList = some tokens) :
    root.target? reference = root.follow tokens := by
  unfold Node.target? Node.pointer?
  rw [if_pos hdocument, htokens]
  rfl

theorem Leads.mem_refs {root : Node} {reference inner : String} (h : Leads root reference inner) :
    inner ∈ root.refs := by
  obtain ⟨target, htarget, hinner⟩ := h
  exact (inside_of_target? htarget).within.refs inner hinner

/-- **An expansion has the form of the schema.** -/
theorem Expands.sameForm {root node expanded : Node} (h : Expands root node expanded) : node.SameForm expanded := by
  induction h with
  | bool value => exact .bool value
  | reference _ _ ih =>
    cases ih with
    | object k k' => exact .object _ k'
  | object copy _ _ _ => exact .object _ _

/-- **No reference names a schema with a description.** -/
def Undescribed (root : Node) : Prop :=
  ∀ reference ∈ root.refs, ∀ k, root.target? reference = some (.object k) → k.description = none

/-- **An expansion has the description of the schema**, if no reference names a schema with one. -/
theorem Expands.description {root node expanded : Node} (h : Expands root node expanded) (hroot : Undescribed root)
    (hrefs : ∀ reference ∈ node.refs, reference ∈ root.refs) :
    expanded.keywords?.bind (fun k => k.description) = node.keywords?.bind (fun k => k.description) := by
  induction h with
  | bool value => rfl
  | @reference reference target expanded htarget _ ih =>
    have hnone : target.description = none := hroot _ (hrefs _ (Node.mem_refs_of_ref rfl)) target htarget
    rw [ih (inside_of_target? htarget).within.refs]
    exact hnone
  | object copy _ _ _ => rfl

theorem Expands.self {root : Node} {k : Keywords Node} (href : k.ref = none) (h : ∀ c, k.Holds c → Expands root c c) :
    Expands root (.object k) (.object k) := by
  have hself := Expands.object id href h
  rwa [Keywords.map_id] at hself

theorem expands_empty (root : Node) : Expands root Node.empty Node.empty :=
  .self rfl (fun c hc => by obtain ⟨_, hmem⟩ := Keywords.holds_iff.1 hc; exact absurd hmem List.not_mem_nil)

theorem expands_nothing (root : Node) : Expands root Node.nothing Node.nothing := by
  refine .self rfl (fun c hc => ?_)
  obtain ⟨_, hmem⟩ := Keywords.holds_iff.1 hc
  obtain rfl : c = Node.empty := congrArg Prod.snd (List.mem_singleton.1 hmem)
  exact expands_empty root

/-! ## Every expandable document has an expansion -/

namespace Expandable

variable {root : Node}

/-- **A schema can be expanded if what its references name can.** -/
theorem exists_of_refs (h : Expandable root) : ∀ node : Node, root.Inside node →
    (∀ reference ∈ node.refs, ∃ target expanded, root.target? reference = some (.object target) ∧
      Expands root (.object target) expanded) → ∃ expanded, Expands root node expanded
  | .bool value, _, _ => ⟨_, .bool value⟩
  | .object k, hinside, hrefs => by
    cases href : k.ref with
    | some reference =>
      obtain ⟨target, expanded, htarget, hexpanded⟩ := hrefs reference (Node.mem_refs_of_ref href)
      rw [h.alone hinside href]
      exact ⟨expanded, .reference htarget hexpanded⟩
    | none =>
      have hchildren : ∀ c : Node, ∃ expanded, k.Holds c → Expands root c expanded := by
        intro c
        by_cases hc : k.Holds c
        · obtain ⟨step, hmem⟩ := Keywords.holds_iff.1 hc
          obtain ⟨expanded, hexpanded⟩ := exists_of_refs h c (hinside.child hc)
            (fun reference hr => hrefs reference (Node.mem_refs_of_holds hc hr))
          exact ⟨expanded, fun _ => hexpanded⟩
        · exact ⟨c, fun hc' => absurd hc' hc⟩
      choose copy hcopy using hchildren
      exact ⟨_, .object copy href hcopy⟩
termination_by node => node
decreasing_by exact @Node.sizeOf_lt_of_mem_children (.object k) _ _ hmem

/-- **What a reference names can be expanded**: by induction on the references that are led to. -/
theorem exists_of_reference (h : Expandable root) : ∀ reference ∈ root.refs, ∃ target expanded,
    root.target? reference = some (.object target) ∧ Expands root (.object target) expanded := by
  let leadsBack (a b : { reference // reference ∈ root.refs }) : Prop := Relation.TransGen (Leads root) b.1 a.1
  have hfinite : Finite { reference // reference ∈ root.refs } := (List.finite_toSet root.refs).to_subtype
  have htrans : IsTrans _ leadsBack := ⟨fun _ _ _ hab hbc => hbc.trans hab⟩
  have hirrefl : Std.Irrefl leadsBack := ⟨fun a => h.acyclic a.1 a.2⟩
  have hwf : WellFounded leadsBack := Finite.wellFounded_of_trans_of_irrefl leadsBack
  intro reference hreference
  induction hsub : (⟨reference, hreference⟩ : { reference // reference ∈ root.refs }) using hwf.induction
    generalizing reference with
  | _ a ih =>
    subst hsub
    obtain ⟨target, htarget⟩ := h.resolves reference hreference
    obtain ⟨expanded, hexpanded⟩ := h.exists_of_refs (.object target) (inside_of_target? htarget) (by
      intro inner hinner
      have hleads : Leads root reference inner := ⟨_, htarget, hinner⟩
      exact ih ⟨inner, hleads.mem_refs⟩ (.single hleads) inner hleads.mem_refs rfl)
    exact ⟨target, expanded, htarget, hexpanded⟩

theorem exists_expansion (h : Expandable root) : ∃ expanded, Expands root root expanded :=
  h.exists_of_refs root .root h.exists_of_reference

end Expandable
end Schema
end Valgen
