import Valgen.Proofs.Project.Outcome
/-!
# Proofs.Project.Precedence — direct references lead back

A direct edge is recorded when its target is compiled and its source is under way.  What is under way is therefore never
the target of a direct edge, so that no direct edge closes a cycle (`Backward`), and the order of the documents has the
target of each before its source.
-/
namespace Valgen
namespace Project

open Compile (Setup)

/-- **Direct references lead to compiled documents, and form no cycle.** -/
structure Backward (w : Work) : Prop where
  compiled : ∀ a b, w.graph.Direct a b → w.phase? b = some .compiled
  acyclic : w.graph.Acyclic

namespace Backward

variable {w w' : Work}

theorem start (r : Registry) : Backward (Work.start r) := by
  have hnone : ∀ a b, ¬ (Work.start r).graph.Direct a b := by
    rintro a b ⟨e, he, _⟩
    rw [edges_start] at he
    exact List.not_mem_nil he
  refine ⟨fun a b hab => absurd hab (hnone a b), fun a hcycle => ?_⟩
  obtain ⟨b, hab, _⟩ := Relation.TransGen.head'_iff.1 hcycle
  exact hnone a b hab

theorem congr (h : Backward w) (hgraph : w'.graph = w.graph)
    (hphase : ∀ x, w.phase? x = some .compiled → w'.phase? x = some .compiled) : Backward w' := by
  refine ⟨fun a b hab => hphase b (h.compiled a b ?_), ?_⟩
  · rwa [hgraph] at hab
  · rw [hgraph]
    exact h.acyclic

theorem openDocument (h : Backward w) {d : Document} (hreg : w.phase? d.id = some .registered) :
    Backward (w.openDocument d) := by
  refine h.congr rfl (fun x hx => ?_)
  rwa [phase?_openDocument_of_ne (Work.ne_of_phase? hx hreg (by decide))]

theorem closeDocument (h : Backward w) {d : Document} (hphase : w.phase? d.id = some .compiling) :
    Backward (w.closeDocument d) := by
  refine h.congr rfl (fun x hx => ?_)
  by_cases hne : x = d.id
  · rw [hne]
    exact phase?_closeDocument_self hphase
  · rwa [phase?_closeDocument_of_ne hne]

/-- **An edge is recorded while its source is under way**, a direct one with a compiled target. -/
theorem addEdge (h : Backward w) {edge : Edge} (hsource : w.phase? edge.source = some .compiling)
    (htarget : edge.deferred = false → w.phase? edge.target = some .compiled) : Backward (w.addEdge edge) := by
  refine ⟨fun a b hab => ?_, h.acyclic.addEdge (fun hdirect => ⟨fun a ha => ?_, fun heq => ?_⟩)⟩
  · rcases Graph.direct_addEdge.1 hab with hold | ⟨hdirect, _, rfl⟩
    · exact h.compiled a b hold
    · exact htarget hdirect
  · exact Work.ne_of_phase? (h.compiled a edge.source ha) hsource (by decide) rfl
  · exact Work.ne_of_phase? hsource (htarget hdirect) (by decide) heq

end Backward

theorem Evolves.backward {setup : Setup} {id : String} {w w' : Work} (h : Evolves setup id w w') (hw : Backward w) :
    Backward w' := by
  induction h with
  | refl => exact hw
  | trans _ _ ih₁ ih₂ => exact ih₂ (ih₁ hw)
  | fresh v _ _ _ _ _ ih => exact (ih (hw.congr rfl (fun _ hx => hx))).congr rfl (fun _ hx => hx)
  | @known id w d e deferred hphase _ _ _ hbegun =>
    have himported : Backward (w.addImport id d) := hw.congr rfl (fun _ hx => hx)
    refine himported.addEdge hphase (fun hdirect => ?_)
    obtain rfl : deferred = false := hdirect
    exact hbegun
  | @visit id w w₁ d e hphase _ hne _ hreg hrun _ ih =>
    have himported : Backward (w.addImport id d) := hw.congr rfl (fun _ hx => hx)
    have hvisited : w₁.phase? d.id = some .compiling := hrun.phase?_visited hreg
    have hclosed := (ih (himported.openDocument hreg)).closeDocument hvisited
    -- The document that refers was under way before the visit, and is so after it.
    refine hclosed.addEdge ?_ (fun _ => phase?_closeDocument_self hvisited)
    rw [phase?_closeDocument_of_ne hne.symm]
    refine hrun.phase?_of_compiling ?_
    rwa [phase?_openDocument_of_ne hne.symm]

theorem Finishes.backward {setup : Setup} {w w' : Work} (h : Finishes setup w w') (hw : Backward w) : Backward w' := by
  induction h with
  | refl => exact hw
  | visit _ hreg hrun _ _ ih =>
    have hopened := hrun.backward (hw.openDocument hreg)
    exact ih (hopened.closeDocument (hrun.phase?_visited hreg))

theorem Completes.backward {p : Project} {w : Work} (h : Completes p w) : Backward w :=
  h.finishes.backward (Backward.start p.registry)

/-- **Direct references form no cycle, and each leads to a document that stands before the one it comes from.** -/
theorem direct_target_before_source {p : Project} {out : Output} (h : p.compile.1 = .ok out) :
    out.edges = p.compile.2.graph.edges ∧ p.compile.2.graph.Acyclic ∧ (out.documents.map DocumentOutput.id).Nodup ∧
      ∀ e ∈ out.edges, e.deferred = false → ∃ before between after,
        out.documents.map DocumentOutput.id = before ++ e.target :: (between ++ e.source :: after) := by
  have hcompletes := completes_of_compile h
  have hwf := hcompletes.charted.wellFormed
  have hacyclic := hcompletes.backward.acyclic
  obtain rfl := output_of_compile h
  rw [hcompletes.map_id_documents]
  refine ⟨rfl, hacyclic, hwf.order_perm.nodup_iff.2 hwf.nodup, fun e he hdirect => ?_⟩
  have hsource : e.source ∈ p.finalWork.graph.order := hwf.order_perm.mem_iff.2 (hwf.ends e he).1
  have hedge : p.finalWork.graph.Direct e.source e.target := ⟨e, he, hdirect, rfl, rfl⟩
  have hne : e.source ≠ e.target := by
    intro heq
    rw [heq] at hedge
    exact hacyclic e.target (.single hedge)
  obtain ⟨front, after, hsplit⟩ := List.append_of_mem hsource
  have htarget := Graph.settled_order hwf hacyclic front e.source after hsplit e.target
    (Graph.mem_dependencies.2 ⟨hedge, hne⟩)
  obtain ⟨before, between, rfl⟩ := List.append_of_mem htarget
  refine ⟨before, between, after, ?_⟩
  rw [hsplit, List.append_assoc, List.cons_append]

def mutualFirst : Document where
  id := "a"
  node := .object {
    ref := some "b#"
    defs := some [("Item", .object { ref := some "#" }), ("Tree", .object { ref := some "#/$defs/Tree" })] }
  wishes := {}
  importName := "a"

def mutualSecond : Document where
  id := "b"
  node := .object { ref := some "a#/$defs/Item" }
  wishes := {}
  importName := "b"

/-- **Two documents that refer to each other**, the first with two definitions. -/
def mutualPair : Project where
  registry := [mutualFirst, mutualSecond]

/-- **Their output**: the second comes first, and refers to the first for later. -/
def mutualPairOutput : Output where
  documents := [
    { id := "b", importName := "b", module := "./b",
      imports := [{ id := "a", importName := "a", module := "./a" }],
      exports := [{ name? := none, binding := "b", expression := "z.lazy(() => a.Item)", isDefault := true }] },
    { id := "a", importName := "a", module := "./a",
      imports := [{ id := "b", importName := "b", module := "./b" }],
      exports := [
        { name? := none, binding := "a", expression := "b.b", isDefault := true },
        { name? := some "Item", binding := "Item", expression := "a", isDefault := false },
        { name? := some "Tree", binding := "Tree", expression := "z.lazy(() => Tree)", isDefault := false }] }]
  edges := [⟨"b", "a", some "Item", true⟩, ⟨"a", "b", none, false⟩]
  cycles := [["a", "b"]]

theorem compile_mutualPair : mutualPair.compile.1 = .ok mutualPairOutput := by
  have houtput : mutualPair.compile.1.toOption = some mutualPairOutput := by decide +kernel
  cases hcompile : mutualPair.compile.1 with
  | error e =>
    rw [hcompile] at houtput
    cases houtput
  | ok out =>
    rw [hcompile] at houtput
    rw [Option.some.inj houtput]

theorem direct_target_before_source_mutualPair : mutualPair.compile.2.graph.Acyclic ∧
    ∃ before between after,
      mutualPairOutput.documents.map DocumentOutput.id = before ++ "b" :: (between ++ "a" :: after) := by
  obtain ⟨_, hacyclic, _, hbefore⟩ := direct_target_before_source compile_mutualPair
  exact ⟨hacyclic, hbefore ⟨"a", "b", none, false⟩ (by decide) rfl⟩

end Project
end Valgen
