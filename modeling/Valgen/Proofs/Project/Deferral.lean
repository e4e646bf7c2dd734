import Valgen.Proofs.Graph.Cycles
import Valgen.Proofs.Project.Precedence
/-!
# Proofs.Project.Deferral — references are deferred where cycles need it

A reference is deferred if its target is under way.  Then the target is visited for the sake of references that lead to
the document that refers, but the edges of these are recorded only when the visits in between end.  So the way back from
a deferred edge is a debt (`Owes`) that each visit passes on to the document that refers to the visited one, until the
target itself is closed.
-/
namespace Valgen
namespace Project

open Compile (Setup)
open Relation (ReflTransGen TransGen)

/-- **There is a way back along an edge.** -/
def Returns (w : Work) (edge : Edge) : Prop := TransGen w.graph.Linked edge.target edge.source

/-- **Every deferred edge that was not there before has a way back**, or its target is still under way, and the document
whose references are resolved leads to its source. -/
def Owes (id : String) (w w' : Work) : Prop := ∀ edge ∈ w'.graph.edges, edge.deferred = true →
  edge ∈ w.graph.edges ∨ Returns w' edge ∨
    (w.phase? edge.target = some .compiling ∧ ReflTransGen w'.graph.Linked id edge.source)

section
variable {w w' : Work} {a b : String}

theorem linked_mono (h : ∀ edge ∈ w.graph.edges, edge ∈ w'.graph.edges) (hlink : w.graph.Linked a b) :
    w'.graph.Linked a b := by
  obtain ⟨edge, he, hends⟩ := hlink
  exact ⟨edge, h edge he, hends⟩

theorem Returns.mono {edge : Edge} (h : Returns w edge) (hedges : ∀ edge ∈ w.graph.edges, edge ∈ w'.graph.edges) :
    Returns w' edge :=
  TransGen.mono (fun _ _ => linked_mono hedges) _ _ h

/-- **A document whose references lead to the source of an edge to it closes the way back.** -/
theorem returns_of_reaches {edge : Edge} (he : edge ∈ w.graph.edges)
    (hreaches : ReflTransGen w.graph.Linked edge.target edge.source) : Returns w edge := by
  unfold Returns
  rcases Relation.reflTransGen_iff_eq_or_transGen.1 hreaches with heq | hpath
  · exact .single ⟨edge, he, heq, heq.symm⟩
  · exact hpath

end

theorem Evolves.owes {setup : Setup} {id : String} {w w' : Work} (h : Evolves setup id w w') : Owes id w w' := by
  induction h with
  | refl => exact fun edge he _ => .inl he
  | trans h₁ h₂ ih₁ ih₂ =>
    intro edge he hdeferred
    rcases ih₂ edge he hdeferred with hmid | hback | ⟨htarget, hpath⟩
    · rcases ih₁ edge hmid hdeferred with hold | hback | ⟨htarget, hpath⟩
      · exact .inl hold
      · exact .inr (.inl (hback.mono (fun _ => h₂.mem_edges)))
      · refine .inr (.inr ⟨htarget, ?_⟩)
        exact ReflTransGen.mono (fun _ _ => linked_mono (fun _ => h₂.mem_edges)) _ _ hpath
    · exact .inr (.inl hback)
    · exact .inr (.inr ⟨h₁.compiling_of_phase? htarget, hpath⟩)
  | fresh v _ _ _ _ _ ih => exact ih
  | @known id w d e deferred _ _ _ _ htarget =>
    intro edge he hdeferred
    rcases Graph.mem_edges_addEdge.1 he with hold | rfl
    · exact .inl hold
    · obtain rfl : deferred = true := hdeferred
      exact .inr (.inr ⟨htarget, .refl⟩)
  | @visit id w w₁ d e _ _ _ _ _ _ _ ih =>
    intro edge he hdeferred
    have hmono : ∀ edge ∈ w₁.graph.edges,
        edge ∈ ((w₁.closeDocument d).addEdge ⟨id, d.id, e.name?, false⟩).graph.edges :=
      fun _ hmem => Graph.mem_edges_addEdge.2 (.inl hmem)
    rcases Graph.mem_edges_addEdge.1 he with hinner | rfl
    · rcases ih edge hinner hdeferred with hold | hback | ⟨htarget, hpath⟩
      · exact .inl hold
      · exact .inr (.inl (hback.mono hmono))
      · have hpath' := ReflTransGen.mono (fun _ _ => linked_mono hmono) _ _ hpath
        by_cases hself : edge.target = d.id
        · exact .inr (.inl (returns_of_reaches he (hself ▸ hpath')))
        · -- The debt passes to the document that refers, which now has its edge.
          rw [phase?_openDocument_of_ne hself] at htarget
          have hlink : ((w₁.closeDocument d).addEdge ⟨id, d.id, e.name?, false⟩).graph.Linked id d.id :=
            ⟨_, Graph.mem_edges_addEdge.2 (.inr rfl), rfl, rfl⟩
          exact .inr (.inr ⟨htarget, .head hlink hpath'⟩)
    · cases hdeferred

/-- **With no document under way, every deferred edge has a way back.** -/
theorem Finishes.returns {setup : Setup} {w w' : Work} (h : Finishes setup w w')
    (hidle : ∀ x, w.phase? x ≠ some .compiling)
    (hw : ∀ edge ∈ w.graph.edges, edge.deferred = true → Returns w edge) :
    ∀ edge ∈ w'.graph.edges, edge.deferred = true → Returns w' edge := by
  induction h with
  | refl => exact hw
  | @visit w w₁ w₂ d hd hreg hrun hall _ ih =>
    have hstep : Finishes setup w (w₁.closeDocument d) := .visit hd hreg hrun hall (.refl _)
    refine ih (fun x hx => ?_) (fun edge he hdeferred => ?_)
    · rcases hstep.phase?_cases x with hsame | ⟨_, hcompiled⟩
      · exact hidle x (hsame ▸ hx)
      · rw [hcompiled] at hx
        cases hx
    · rcases hrun.owes edge he hdeferred with hold | hback | ⟨htarget, hpath⟩
      · exact (hw edge hold hdeferred).mono (fun _ => hstep.grows.edges _)
      · exact hback
      · by_cases hself : edge.target = d.id
        · exact returns_of_reaches he (hself ▸ hpath)
        · rw [phase?_openDocument_of_ne hself] at htarget
          exact absurd htarget (hidle edge.target)

theorem Completes.returns {p : Project} {w : Work} (h : Completes p w) {edge : Edge} (he : edge ∈ w.graph.edges)
    (hdeferred : edge.deferred = true) : Returns w edge := by
  refine h.finishes.returns (fun x hx => ?_) (fun edge he => ?_) edge he hdeferred
  · exact absurd (phase?_start_eq hx) (by decide)
  · rw [edges_start] at he
    exact absurd he List.not_mem_nil

/-- **No edge leads from a document to itself.** -/
def Loopless (w : Work) : Prop := ∀ edge ∈ w.graph.edges, edge.source ≠ edge.target

theorem Loopless.addEdge {w : Work} (h : Loopless w) {edge : Edge} (hne : edge.source ≠ edge.target) :
    Loopless (w.addEdge edge) := by
  intro other he
  rcases Graph.mem_edges_addEdge.1 he with hold | rfl
  · exact h other hold
  · exact hne

theorem Evolves.loopless {setup : Setup} {id : String} {w w' : Work} (h : Evolves setup id w w') (hw : Loopless w) :
    Loopless w' := by
  induction h with
  | refl => exact hw
  | trans _ _ ih₁ ih₂ => exact ih₂ (ih₁ hw)
  | fresh v _ _ _ _ _ ih => exact ih hw
  | @known id w d e _ _ _ hne _ _ =>
    have himported : Loopless (w.addImport id d) := hw
    exact himported.addEdge hne.symm
  | @visit id w w₁ d e _ _ hne _ _ _ _ ih =>
    have hclosed : Loopless (w₁.closeDocument d) := ih hw
    exact hclosed.addEdge hne.symm

theorem Completes.loopless {p : Project} {w : Work} (h : Completes p w) : Loopless w := by
  have hfinishes : ∀ {w w' : Work}, Finishes p.setup w w' → Loopless w → Loopless w' := by
    intro w w' hrun hw
    induction hrun with
    | refl => exact hw
    | visit _ _ hrun _ _ ih => exact ih (hrun.loopless hw)
  refine hfinishes h.finishes (fun edge he => ?_)
  rw [edges_start] at he
  exact absurd he List.not_mem_nil

/-- **References are deferred exactly where cycles need it**: of the edges and cycles of the graph, all of which the
output lists, the ends of a deferred edge stand in one cycle, every cycle has a deferred edge, and where no two
documents reach each other no edge is deferred. -/
theorem deferred_exactly_in_cycles {p : Project} {out : Output} (h : p.compile.1 = .ok out) :
    out.edges = p.compile.2.graph.edges ∧ out.cycles = p.compile.2.graph.cycles ∧
      (∀ e ∈ out.edges, e.deferred = true → ∃ c ∈ out.cycles, e.source ∈ c ∧ e.target ∈ c) ∧
      (∀ c ∈ out.cycles, ∃ e ∈ out.edges, e.deferred = true ∧ e.source ∈ c ∧ e.target ∈ c) ∧
      ((∀ a b, a ≠ b → ¬ p.compile.2.graph.Mutual a b) → ∀ e ∈ out.edges, e.deferred = false) := by
  have hcompletes := completes_of_compile h
  have hwf := hcompletes.charted.wellFormed
  obtain rfl := output_of_compile h
  have hmutual : ∀ e ∈ p.finalWork.graph.edges, e.deferred = true → p.finalWork.graph.Mutual e.source e.target :=
    fun e he hdeferred => ⟨.single ⟨e, he, rfl, rfl⟩, hcompletes.returns he hdeferred⟩
  refine ⟨rfl, rfl, fun e he hdeferred => ?_, fun c hc => ?_, fun hnone e he => ?_⟩
  · exact (Graph.exists_mem_cycles_iff hwf).2 (hmutual e he hdeferred)
  · exact Graph.exists_deferred_of_mem_cycles hwf hcompletes.backward.acyclic hc
  · by_contra hdeferred
    rw [Bool.not_eq_false] at hdeferred
    exact hnone e.source e.target (hcompletes.loopless e he) (hmutual e he hdeferred)

theorem deferred_exactly_in_cycles_mutualPair : ∃ c ∈ mutualPairOutput.cycles, "b" ∈ c ∧ "a" ∈ c :=
  (deferred_exactly_in_cycles compile_mutualPair).2.2.1 ⟨"b", "a", some "Item", true⟩ (by decide) rfl

end Project
end Valgen
