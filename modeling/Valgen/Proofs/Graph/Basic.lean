import Mathlib.Data.List.Sort
import Mathlib.Data.String.Basic
import Mathlib.Logic.Relation
import Valgen.Project.Graph
/-!
# Proofs.Graph.Basic — graphs that have grown

A graph grows by documents and edges (`Graph.grown`); its nodes then ascend and hold the ends of its edges
(`Graph.WellFormed`).  An edge that is not deferred asks its target to come first (`Graph.Direct`); such edges between
different documents are what the order of a graph depends on (`Graph.dependencies`).
-/
namespace Valgen
namespace Project

/-! ## Ascending lists -/

section
variable {α : Type} [LT α] [DecidableLT α] [DecidableEq α] {s t : α}

theorem mem_insertAscending : ∀ {l : List α}, t ∈ insertAscending s l ↔ t = s ∨ t ∈ l
  | [] => by simp [insertAscending]
  | u :: rest => by
    unfold insertAscending
    split
    · exact List.mem_cons
    · split
      · rename_i heq
        rw [heq, List.mem_cons]
        exact ⟨.inr, fun h => h.elim .inl id⟩
      · rw [List.mem_cons, List.mem_cons, mem_insertAscending (l := rest)]
        exact or_left_comm

theorem mem_ascending {l : List α} : t ∈ ascending l ↔ t ∈ l := by
  unfold ascending
  induction l with
  | nil => exact Iff.rfl
  | cons s rest ih => rw [List.foldr_cons, mem_insertAscending, ih, List.mem_cons]

variable [IsStrictTotalOrder α (· < ·)]

theorem pairwise_insertAscending : ∀ {l : List α}, l.Pairwise (· < ·) → (insertAscending s l).Pairwise (· < ·)
  | [], _ => List.pairwise_singleton _ _
  | u :: rest, h => by
    obtain ⟨hu, hrest⟩ := List.pairwise_cons.1 h
    unfold insertAscending
    split
    · rename_i hlt
      refine List.pairwise_cons.2 ⟨fun t ht => ?_, h⟩
      rcases List.mem_cons.1 ht with rfl | ht'
      · exact hlt
      · exact IsTrans.trans _ _ _ hlt (hu t ht')
    · split
      · exact h
      · rename_i hnlt hne
        refine List.pairwise_cons.2 ⟨fun t ht => ?_, pairwise_insertAscending hrest⟩
        rcases mem_insertAscending.1 ht with rfl | ht'
        · exact ((trichotomous_of (· < ·) t u).resolve_left hnlt).resolve_left hne
        · exact hu t ht'

theorem pairwise_ascending (l : List α) : (ascending l).Pairwise (· < ·) := by
  unfold ascending
  induction l with
  | nil => exact List.Pairwise.nil
  | cons s rest ih => exact pairwise_insertAscending ih

end

namespace Graph

/-- **Nodes ascend, and the ends of the edges are among them.** -/
structure WellFormed (g : Graph) : Prop where
  ascending : g.nodes.Pairwise (· < ·)
  ends : ∀ e ∈ g.edges, e.source ∈ g.nodes ∧ e.target ∈ g.nodes

theorem WellFormed.nodup {g : Graph} (h : g.WellFormed) : g.nodes.Nodup := h.ascending.imp (fun hlt => ne_of_lt hlt)

/-- **Ascending nodes are determined by which there are.** -/
theorem WellFormed.nodes_eq {g g' : Graph} (h : g.WellFormed) (h' : g'.WellFormed)
    (hmem : ∀ x, x ∈ g'.nodes ↔ x ∈ g.nodes) : g'.nodes = g.nodes :=
  h'.ascending.eq_of_mem_iff h.ascending hmem

/-- **A document refers to another in a way that asks it to come first.** -/
def Direct (g : Graph) (a b : String) : Prop := ∃ e ∈ g.edges, e.deferred = false ∧ e.source = a ∧ e.target = b

/-- **A document refers to another**, deferred or not. -/
def Linked (g : Graph) (a b : String) : Prop := ∃ e ∈ g.edges, e.source = a ∧ e.target = b

/-- **No document asks itself to come first**, through others or at once. -/
def Acyclic (g : Graph) : Prop := ∀ a, ¬ Relation.TransGen g.Direct a a

/-- **The documents a document refers to directly.** -/
def dependencies (g : Graph) (id : String) : List String :=
  (g.edges.filter (fun e => isDirect e && e.source == id)).map Edge.target

theorem mem_dependencies {g : Graph} {a b : String} : b ∈ g.dependencies a ↔ g.Direct a b ∧ a ≠ b := by
  unfold dependencies Direct isDirect
  rw [List.mem_map]
  constructor
  · rintro ⟨e, he, rfl⟩
    simp only [List.mem_filter, Bool.and_eq_true, Bool.not_eq_true', bne_iff_ne, beq_iff_eq] at he
    obtain ⟨hmem, ⟨hdirect, hne⟩, rfl⟩ := he
    exact ⟨⟨e, hmem, hdirect, rfl, rfl⟩, hne⟩
  · rintro ⟨⟨e, hmem, hdirect, rfl, rfl⟩, hne⟩
    refine ⟨e, ?_, rfl⟩
    rw [List.mem_filter]
    exact ⟨hmem, by simp [hdirect, hne]⟩

/-! ## Growing graphs -/

theorem mem_edges_addEdge {g : Graph} {edge other : Edge} :
    other ∈ (g.addEdge edge).edges ↔ other ∈ g.edges ∨ other = edge := by
  unfold addEdge
  by_cases h : edge ∈ g.edges
  · rw [if_pos (List.contains_iff_mem.2 h)]
    constructor
    · exact .inl
    · rintro (hold | rfl)
      · exact hold
      · exact h
  · rw [if_neg (fun hc => h (List.contains_iff_mem.1 hc)), List.mem_append, List.mem_singleton]

theorem WellFormed.addNode {g : Graph} (h : g.WellFormed) (id : String) : (g.addNode id).WellFormed := by
  refine ⟨pairwise_insertAscending h.ascending, fun e he => ?_⟩
  exact ⟨mem_insertAscending.2 (.inr (h.ends e he).1), mem_insertAscending.2 (.inr (h.ends e he).2)⟩

theorem WellFormed.addEdge {g : Graph} (h : g.WellFormed) (edge : Edge) : (g.addEdge edge).WellFormed := by
  refine ⟨pairwise_insertAscending (pairwise_insertAscending h.ascending), fun e he => ?_⟩
  unfold Graph.addEdge
  simp only [mem_insertAscending]
  rcases mem_edges_addEdge.1 he with hold | rfl
  · exact ⟨.inr (.inr (h.ends e hold).1), .inr (.inr (h.ends e hold).2)⟩
  · exact ⟨.inr (.inl rfl), .inl rfl⟩

theorem mem_nodes_addEdge {g : Graph} {edge : Edge} {x : String} :
    x ∈ (g.addEdge edge).nodes ↔ x = edge.target ∨ x = edge.source ∨ x ∈ g.nodes := by
  unfold addEdge
  rw [mem_insertAscending, mem_insertAscending]

theorem direct_addEdge {g : Graph} {edge : Edge} {a b : String} :
    (g.addEdge edge).Direct a b ↔ g.Direct a b ∨ (edge.deferred = false ∧ edge.source = a ∧ edge.target = b) := by
  unfold Direct
  simp only [mem_edges_addEdge, or_and_right, exists_or, exists_eq_left]

/-- **A path with one edge more** that leaves a document nothing leads to: the old path, or one that begins with it. -/
theorem transGen_direct_addEdge {g : Graph} {edge : Edge} (hfree : ∀ a, ¬ g.Direct a edge.source)
    (hne : edge.source ≠ edge.target) {a b : String} (hpath : Relation.TransGen (g.addEdge edge).Direct a b) :
    Relation.TransGen g.Direct a b ∨ (a = edge.source ∧ Relation.ReflTransGen g.Direct edge.target b) := by
  induction hpath using Relation.TransGen.head_induction_on with
  | single hstep =>
    rcases direct_addEdge.1 hstep with hold | ⟨_, rfl, rfl⟩
    · exact .inl (.single hold)
    · exact .inr ⟨rfl, .refl⟩
  | head hstep _ ih =>
    rcases direct_addEdge.1 hstep with hold | ⟨_, rfl, rfl⟩
    · rcases ih with hrest | ⟨rfl, _⟩
      · exact .inl (.head hold hrest)
      · exact absurd hold (hfree _)
    · rcases ih with hrest | ⟨heq, _⟩
      · exact .inr ⟨rfl, hrest.to_reflTransGen⟩
      · exact absurd heq.symm hne

/-- **An edge closes no cycle** if it is deferred, or leads to another document from one that nothing leads to. -/
theorem Acyclic.addEdge {g : Graph} {edge : Edge} (h : g.Acyclic)
    (hfree : edge.deferred = false → (∀ a, ¬ g.Direct a edge.source) ∧ edge.source ≠ edge.target) :
    (g.addEdge edge).Acyclic := by
  intro a hcycle
  by_cases hdeferred : edge.deferred = false
  · obtain ⟨hnone, hne⟩ := hfree hdeferred
    rcases transGen_direct_addEdge hnone hne hcycle with hold | ⟨rfl, hback⟩
    · exact h a hold
    · rcases Relation.ReflTransGen.cases_tail hback with heq | ⟨_, _, hlast⟩
      · exact hne heq
      · exact hnone _ hlast
  · refine h a (Relation.TransGen.mono (fun x y hstep => ?_) _ _ hcycle)
    rcases direct_addEdge.1 hstep with hold | ⟨hdirect, _⟩
    · exact hold
    · exact absurd hdirect hdeferred

inductive Growth where
  | node (id : String)
  | edge (edge : Edge)

def grow (g : Graph) : Growth → Graph
  | .node id => g.addNode id
  | .edge edge => g.addEdge edge

/-- **The graph that documents and edges build**, added one after another. -/
def grown (growths : List Growth) : Graph := growths.foldl grow {}

theorem wellFormed_grown (growths : List Growth) : (grown growths).WellFormed := by
  suffices hgrow : ∀ {g : Graph}, g.WellFormed → (growths.foldl grow g).WellFormed from
    hgrow ⟨List.Pairwise.nil, fun e he => absurd he List.not_mem_nil⟩
  induction growths with
  | nil => exact id
  | cons growth rest ih =>
    intro g h
    cases growth with
    | node id => exact ih (h.addNode id)
    | edge edge => exact ih (h.addEdge edge)

end Graph
end Project
end Valgen
