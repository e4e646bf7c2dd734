import Valgen.Proofs.Project.Outcome
import Valgen.Proofs.Project.Reached
/-!
# Proofs.Project.Imports — a document imports what it refers to

A document that refers to another imports it first and has an edge to it in the end.  In between the import stands
without its edge, while the other document is compiled.  So that an edge has its import is an invariant of the work
(`Traced`), but that an import has its edge holds of compiled documents only, and of the document under way for the
imports it got since (`Evolves.sourced`).
-/
namespace Valgen
namespace Project

open Compile (Setup)

/-! ## Lists of imports -/

def Document.toImport (d : Document) : DocumentImport where
  id := d.id
  importName := d.importName
  module := d.module

theorem mem_addImport_of_mem {i j : DocumentImport} : ∀ {l : List DocumentImport}, j ∈ l → j ∈ addImport i l
  | k :: rest, h => by
    unfold addImport
    split
    · exact List.mem_cons_of_mem _ h
    · split
      · exact h
      · rcases List.mem_cons.1 h with rfl | hrest
        · exact List.mem_cons_self
        · exact List.mem_cons_of_mem _ (mem_addImport_of_mem hrest)

theorem eq_or_mem_of_mem_addImport {i j : DocumentImport} : ∀ {l : List DocumentImport},
    j ∈ addImport i l → j = i ∨ j ∈ l
  | [], h => .inl (List.mem_singleton.1 h)
  | k :: rest, h => by
    unfold addImport at h
    split at h
    · exact List.mem_cons.1 h
    · split at h
      · exact .inr h
      · rcases List.mem_cons.1 h with rfl | hrest
        · exact .inr List.mem_cons_self
        · exact (eq_or_mem_of_mem_addImport hrest).imp_right (List.mem_cons_of_mem _)

/-- **An import is there once it is added**, or one of its name. -/
theorem exists_mem_addImport (i : DocumentImport) : ∀ l : List DocumentImport,
    ∃ j ∈ addImport i l, j = i ∨ (j ∈ l ∧ j.importName = i.importName)
  | [] => ⟨i, List.mem_singleton.2 rfl, .inl rfl⟩
  | k :: rest => by
    unfold addImport
    split
    · exact ⟨i, List.mem_cons_self, .inl rfl⟩
    · split
      · rename_i heq
        exact ⟨k, List.mem_cons_self, .inr ⟨List.mem_cons_self, heq.symm⟩⟩
      · obtain ⟨j, hj, hcases⟩ := exists_mem_addImport i rest
        refine ⟨j, List.mem_cons_of_mem _ hj, hcases.imp_right (fun h => ?_)⟩
        exact ⟨List.mem_cons_of_mem _ h.1, h.2⟩

theorem pairwise_addImport {i : DocumentImport} : ∀ {l : List DocumentImport},
    l.Pairwise (fun j k => j.importName < k.importName) →
    (addImport i l).Pairwise (fun j k => j.importName < k.importName)
  | [], _ => List.pairwise_singleton _ _
  | k :: rest, h => by
    obtain ⟨hk, hrest⟩ := List.pairwise_cons.1 h
    unfold addImport
    split
    · rename_i hlt
      refine List.pairwise_cons.2 ⟨fun j hj => ?_, h⟩
      rcases List.mem_cons.1 hj with rfl | hj'
      · exact hlt
      · exact lt_trans hlt (hk j hj')
    · split
      · exact h
      · rename_i hnlt hne
        refine List.pairwise_cons.2 ⟨fun j hj => ?_, pairwise_addImport hrest⟩
        rcases eq_or_mem_of_mem_addImport hj with rfl | hj'
        · exact lt_of_le_of_ne (not_lt.1 hnlt) (Ne.symm hne)
        · exact hk j hj'

/-! ## The imports of a document -/

namespace Work

def imports (w : Work) (id : String) : List DocumentImport := (w.output? id).elim [] DocumentOutput.imports

variable (w : Work) (setup : Setup) (source x : String) (d : Document) (e : Export) (v : Validator) (edge : Edge)

theorem imports_of_output? {w : Work} {x : String} {o : DocumentOutput} (h : w.output? x = some o) :
    w.imports x = o.imports := by
  unfold imports
  rw [h]
  rfl

theorem imports_congr {w w' : Work} {x : String} (h : w'.output? x = w.output? x) : w'.imports x = w.imports x := by
  unfold imports
  rw [h]

theorem imports_addImport_of_ne {w : Work} {source x : String} (h : x ≠ source) (d : Document) :
    (w.addImport source d).imports x = w.imports x := by
  refine imports_congr ?_
  rw [output?_addImport, if_neg h]

theorem imports_addImport_self {w : Work} {source : String} {o : DocumentOutput} (h : w.output? source = some o)
    (d : Document) : (w.addImport source d).imports source = Project.addImport d.toImport o.imports := by
  unfold imports
  rw [output?_addImport, if_pos rfl, h]
  rfl

@[simp] theorem imports_openDocument : (w.openDocument d).imports x = w.imports x := by
  unfold imports
  rw [output?_openDocument]
  cases w.output? x with
  | some o => rfl
  | none =>
    rw [Option.none_or]
    split <;> rfl

@[simp] theorem imports_closeDocument : (w.closeDocument d).imports x = w.imports x := rfl

@[simp] theorem imports_finishExport : (w.finishExport setup d e v).imports x = w.imports x := by
  unfold imports
  rw [output?_finishExport]
  split
  · rename_i h
    rw [h]
    cases w.output? d.id <;> rfl
  · rfl

@[simp] theorem imports_addEdge : (w.addEdge edge).imports x = w.imports x := rfl

end Work

/-! ## Edges have imports -/

/-- **No two documents are imported under one name.** -/
def Named (w : Work) : Prop := ∀ d d', w.document? d.id = some d → w.document? d'.id = some d' →
  d.importName = d'.importName → d = d'

theorem Named.congr {w w' : Work} (h : Named w) (hdoc : ∀ x, w'.document? x = w.document? x) : Named w' := by
  intro d d' hd hd'
  rw [hdoc] at hd hd'
  exact h d d' hd hd'

theorem Registry.Distinct.named {r : Registry} (h : r.Distinct) : Named (Work.start r) := by
  intro d d' hd hd' hname
  rw [document?_start] at hd hd'
  obtain ⟨c, hc, rfl⟩ := Option.map_eq_some_iff.1 hd
  obtain ⟨c', hc', rfl⟩ := Option.map_eq_some_iff.1 hd'
  rw [List.inj_on_of_nodup_map h.importNames (List.mem_of_find?_eq_some hc) (List.mem_of_find?_eq_some hc') hname]

/-- **Imports ascend by name and are those of documents, and an edge has its import.** -/
structure Traced (w : Work) : Prop where
  ascending : ∀ x, (w.imports x).Pairwise (fun i j => i.importName < j.importName)
  known : ∀ x, ∀ i ∈ w.imports x, ∃ d, w.document? d.id = some d ∧ i = d.toImport
  imported : ∀ edge ∈ w.graph.edges, edge.target ∈ (w.imports edge.source).map DocumentImport.id

namespace Traced

variable {w w' : Work}

theorem start (r : Registry) : Traced (Work.start r) := by
  refine ⟨fun x => List.Pairwise.nil, fun x i hi => absurd hi List.not_mem_nil, fun edge he => ?_⟩
  rw [edges_start] at he
  exact absurd he List.not_mem_nil

theorem congr (h : Traced w) (himports : ∀ x, w'.imports x = w.imports x) (hgraph : w'.graph = w.graph)
    (hdoc : ∀ x, w'.document? x = w.document? x) : Traced w' := by
  refine ⟨fun x => ?_, fun x i hi => ?_, fun edge he => ?_⟩
  · rw [himports]
    exact h.ascending x
  · rw [himports] at hi
    obtain ⟨d, hd, rfl⟩ := h.known x i hi
    exact ⟨d, (hdoc d.id).trans hd, rfl⟩
  · rw [himports]
    rw [hgraph] at he
    exact h.imported edge he

theorem addImport (h : Traced w) {source : String} {o : DocumentOutput} (ho : w.output? source = some o) {d : Document}
    (hd : w.document? d.id = some d) : Traced (w.addImport source d) := by
  have hself := Work.imports_addImport_self ho d
  have hold := Work.imports_of_output? ho
  refine ⟨fun x => ?_, fun x i hi => ?_, fun edge he => ?_⟩
  · by_cases hx : x = source
    · rw [hx, hself, ← hold]
      exact pairwise_addImport (h.ascending source)
    · rw [Work.imports_addImport_of_ne hx]
      exact h.ascending x
  · by_cases hx : x = source
    · rw [hx, hself, ← hold] at hi
      rcases eq_or_mem_of_mem_addImport hi with rfl | hi'
      · exact ⟨d, hd, rfl⟩
      · exact h.known source i hi'
    · rw [Work.imports_addImport_of_ne hx] at hi
      exact h.known x i hi
  · have himported := h.imported edge he
    by_cases hx : edge.source = source
    · rw [hx] at himported ⊢
      rw [hself, ← hold]
      obtain ⟨i, hi, hid⟩ := List.mem_map.1 himported
      exact List.mem_map.2 ⟨i, mem_addImport_of_mem hi, hid⟩
    · rw [Work.imports_addImport_of_ne hx]
      exact himported

/-- **A document that is imported is among the imports**, since no other document has its name. -/
theorem id_mem_addImport (h : Traced w) (hnamed : Named w) {source : String} {o : DocumentOutput}
    (ho : w.output? source = some o) {d : Document} (hd : w.document? d.id = some d) :
    d.id ∈ ((w.addImport source d).imports source).map DocumentImport.id := by
  rw [Work.imports_addImport_self ho d]
  obtain ⟨j, hj, rfl | ⟨hold, hname⟩⟩ := exists_mem_addImport d.toImport o.imports
  · exact List.mem_map.2 ⟨_, hj, rfl⟩
  · rw [← Work.imports_of_output? ho] at hold
    obtain ⟨d', hd', rfl⟩ := h.known source j hold
    obtain rfl := hnamed d' d hd' hd hname
    exact List.mem_map.2 ⟨_, hj, rfl⟩

theorem addEdge (h : Traced w) {edge : Edge} (himported : edge.target ∈ (w.imports edge.source).map DocumentImport.id) :
    Traced (w.addEdge edge) := by
  refine ⟨h.ascending, h.known, fun other he => ?_⟩
  rcases Graph.mem_edges_addEdge.1 he with hold | rfl
  · exact h.imported other hold
  · exact himported

end Traced

theorem Consistent.exists_output {setup : Setup} {w : Work} (h : Consistent setup w) {x : String}
    (hphase : w.phase? x = some .compiling) : ∃ o, w.output? x = some o := by
  have hdoc : (w.document? x).isSome := Work.isSome_document?_iff.2 (by simp [hphase])
  obtain ⟨d, hd⟩ := Option.isSome_iff_exists.1 hdoc
  obtain ⟨o, _, ho, _⟩ := h.listed x d hd (by simp [hphase])
  exact ⟨o, ho⟩

/-- **A visit leaves the imports of the document that refers.** -/
theorem Evolves.imports_visit {setup : Setup} {id : String} {w w₁ : Work} {d : Document}
    (hphase : w.phase? id = some .compiling) (hne : d.id ≠ id)
    (hrun : Evolves setup d.id (w.openDocument d) w₁) : (w₁.closeDocument d).imports id = w.imports id := by
  have hopen : (w.openDocument d).phase? id = some .compiling := by rwa [phase?_openDocument_of_ne hne.symm]
  have hframe := (hrun.frame hne.symm ((hrun.phase?_of_compiling hopen).trans hopen.symm)).1
  rw [Work.imports_closeDocument, Work.imports_congr hframe, Work.imports_openDocument]

theorem Evolves.traced {setup : Setup} {id : String} {w w' : Work} (h : Evolves setup id w w')
    (hcons : Consistent setup w) (hnamed : Named w) (hw : Traced w) : Traced w' := by
  induction h with
  | refl => exact hw
  | trans h₁ _ ih₁ ih₂ =>
    exact ih₂ (h₁.consistent hcons) (hnamed.congr h₁.document?_eq) (ih₁ hcons hnamed hw)
  | @fresh id w w₁ d e v hd hphase he hnone _ ih =>
    obtain rfl := Work.id_of_document? hd
    have hbegun : Traced (w.beginExport d e) := hw.congr (fun _ => rfl) rfl (fun _ => rfl)
    have hinner := ih (hcons.beginExport hd hphase he hnone) hnamed hbegun
    exact hinner.congr (fun x => w₁.imports_finishExport setup x d e v) rfl (fun _ => rfl)
  | known _ hphase hd _ _ _ =>
    obtain ⟨o, ho⟩ := hcons.exists_output hphase
    exact (hw.addImport ho hd).addEdge (hw.id_mem_addImport hnamed ho hd)
  | @visit id w w₁ d e hphase hd hne _ hreg hrun _ ih =>
    obtain ⟨o, ho⟩ := hcons.exists_output hphase
    have hopen : Traced ((w.addImport id d).openDocument d) :=
      (hw.addImport ho hd).congr (fun x => by simp) rfl (fun x => by simp)
    have hinner := ih ((hcons.addImport id d).openDocument hd hreg) (hnamed.congr (fun x => by simp)) hopen
    have hclose : Traced (w₁.closeDocument d) := hinner.congr (fun _ => rfl) rfl (fun x => by simp)
    refine hclose.addEdge ?_
    rw [Evolves.imports_visit (w := w.addImport id d) hphase hne hrun]
    exact hw.id_mem_addImport hnamed ho hd

theorem Finishes.traced {setup : Setup} {w w' : Work} (h : Finishes setup w w') (hcons : Consistent setup w)
    (hnamed : Named w) (hw : Traced w) : Traced w' := by
  induction h with
  | refl => exact hw
  | @visit w w₁ w₂ d hd hreg hrun hall _ ih =>
    have hopen : Traced (w.openDocument d) := hw.congr (fun x => by simp) rfl (fun x => by simp)
    have hinner := hrun.traced (hcons.openDocument hd hreg) (hnamed.congr (fun x => by simp)) hopen
    have hstep : Finishes setup w (w₁.closeDocument d) := .visit hd hreg hrun hall (.refl _)
    refine ih (hstep.consistent hcons) (hnamed.congr hstep.document?_eq) ?_
    exact hinner.congr (fun _ => rfl) rfl (fun x => by simp)

/-! ## Imports have edges -/

/-- **Every import of a document has its edge.** -/
def Sourced (w : Work) (x : String) : Prop :=
  ∀ i ∈ w.imports x, ∃ edge ∈ w.graph.edges, edge.source = x ∧ edge.target = i.id

/-- **Every import that a document did not have before has its edge.** -/
def Accounts (id : String) (w w' : Work) : Prop :=
  ∀ i ∈ w'.imports id, i ∈ w.imports id ∨ ∃ edge ∈ w'.graph.edges, edge.source = id ∧ edge.target = i.id

/-- **Every import of a compiled document has its edge.** -/
def AllSourced (w : Work) : Prop := ∀ x, w.phase? x = some .compiled → Sourced w x

section
variable {w w' : Work} {id : String} {d : Document} {edge : Edge}

theorem Sourced.grow {x : String} (h : Sourced w x) (himports : w'.imports x = w.imports x)
    (hedges : ∀ edge ∈ w.graph.edges, edge ∈ w'.graph.edges) : Sourced w' x := by
  intro i hi
  rw [himports] at hi
  obtain ⟨edge, he, hends⟩ := h i hi
  exact ⟨edge, hedges edge he, hends⟩

theorem AllSourced.addImport (h : AllSourced w) (hphase : w.phase? id = some .compiling) (d : Document) :
    AllSourced (w.addImport id d) := by
  intro x hx
  have hne := Work.ne_of_phase? (w := w) hx hphase (by decide)
  exact (h x hx).grow (Work.imports_addImport_of_ne hne d) (fun _ he => he)

theorem AllSourced.addEdge (h : AllSourced w) (edge : Edge) : AllSourced (w.addEdge edge) :=
  fun x hx => (h x hx).grow rfl (fun _ he => Graph.mem_edges_addEdge.2 (.inl he))

theorem AllSourced.openDocument (h : AllSourced w) (hreg : w.phase? d.id = some .registered) :
    AllSourced (w.openDocument d) := by
  intro x hx
  have hne := Work.ne_of_phase? hx (phase?_openDocument_self hreg) (by decide)
  rw [phase?_openDocument_of_ne hne] at hx
  exact (h x hx).grow (w.imports_openDocument x d) (fun _ he => he)

theorem AllSourced.closeDocument (h : AllSourced w) (hself : Sourced w d.id) : AllSourced (w.closeDocument d) := by
  intro x hx
  by_cases hne : x = d.id
  · rw [hne]
    exact hself
  · rw [phase?_closeDocument_of_ne hne] at hx
    exact h x hx

/-- **A document that is compiled has the edges of all its imports**, for it began without any. -/
theorem Accounts.sourced (h : Accounts d.id (w.openDocument d) w') (hnone : w.output? d.id = none) :
    Sourced w' d.id := by
  intro i hi
  rcases h i hi with hold | hedge
  · rw [Work.imports_openDocument] at hold
    unfold Work.imports at hold
    rw [hnone] at hold
    exact absurd hold List.not_mem_nil
  · exact hedge

/-- **An import that is recorded accounts for itself.** -/
theorem accounts_record {o : DocumentOutput} (ho : w.output? id = some o)
    (himports : w'.imports id = (w.addImport id d).imports id) (hsource : edge.source = id)
    (htarget : edge.target = d.id) : Accounts id w (w'.addEdge edge) := by
  intro i hi
  rw [Work.imports_addEdge, himports, Work.imports_addImport_self ho d] at hi
  rcases eq_or_mem_of_mem_addImport hi with rfl | hold
  · exact .inr ⟨edge, Graph.mem_edges_addEdge.2 (.inr rfl), hsource, htarget⟩
  · rw [Work.imports_of_output? ho]
    exact .inl hold

end

/-- **The compiled documents have the edges of their imports**, and the document under way of those it got. -/
theorem Evolves.sourced {setup : Setup} {id : String} {w w' : Work} (h : Evolves setup id w w')
    (hcons : Consistent setup w) (hw : AllSourced w) : AllSourced w' ∧ Accounts id w w' := by
  induction h with
  | refl => exact ⟨hw, fun i hi => .inl hi⟩
  | trans h₁ h₂ ih₁ ih₂ =>
    obtain ⟨hall₁, hnew₁⟩ := ih₁ hcons hw
    obtain ⟨hall₂, hnew₂⟩ := ih₂ (h₁.consistent hcons) hall₁
    refine ⟨hall₂, fun i hi => ?_⟩
    rcases hnew₂ i hi with hmid | hedge
    · rcases hnew₁ i hmid with hold | ⟨edge, he, hends⟩
      · exact .inl hold
      · exact .inr ⟨edge, h₂.mem_edges he, hends⟩
    · exact .inr hedge
  | @fresh id w w₁ d e v hd hphase he hnone _ ih =>
    obtain rfl := Work.id_of_document? hd
    obtain ⟨hall, hnew⟩ := ih (hcons.beginExport hd hphase he hnone) hw
    refine ⟨fun x hx => (hall x hx).grow (w₁.imports_finishExport setup x d e v) (fun _ he => he), fun i hi => ?_⟩
    rw [Work.imports_finishExport] at hi
    exact hnew i hi
  | known _ hphase _ _ _ _ =>
    obtain ⟨o, ho⟩ := hcons.exists_output hphase
    exact ⟨(hw.addImport hphase _).addEdge _, accounts_record ho rfl rfl rfl⟩
  | @visit id w w₁ d e hphase hd hne _ hreg hrun _ ih =>
    obtain ⟨o, ho⟩ := hcons.exists_output hphase
    have himported := hcons.addImport id d
    obtain ⟨hall, hnew⟩ := ih (himported.openDocument hd hreg) ((hw.addImport hphase d).openDocument hreg)
    refine ⟨(hall.closeDocument (hnew.sourced (himported.waiting d.id hreg).1)).addEdge _, ?_⟩
    exact accounts_record ho (Evolves.imports_visit (w := w.addImport id d) hphase hne hrun) rfl rfl

theorem Finishes.sourced {setup : Setup} {w w' : Work} (h : Finishes setup w w') (hcons : Consistent setup w)
    (hw : AllSourced w) : AllSourced w' := by
  induction h with
  | refl => exact hw
  | @visit w w₁ w₂ d hd hreg hrun hall _ ih =>
    obtain ⟨hsourced, hnew⟩ := hrun.sourced (hcons.openDocument hd hreg) (hw.openDocument hreg)
    have hstep : Finishes setup w (w₁.closeDocument d) := .visit hd hreg hrun hall (.refl _)
    exact ih (hstep.consistent hcons) (hsourced.closeDocument (hnew.sourced (hcons.waiting d.id hreg).1))

/-! ## In the end -/

section
variable {p : Project} {w : Work}

theorem Completes.traced (h : Completes p w) (hp : p.registry.Distinct) : Traced w :=
  h.finishes.traced (consistent_start p.setup p.registry) hp.named (Traced.start p.registry)

theorem Completes.sourced (h : Completes p w) {x : String} (hx : (w.document? x).isSome) : Sourced w x := by
  refine h.finishes.sourced (consistent_start p.setup p.registry) (fun y hy => ?_) x (h.compiled x hx)
  exact absurd (phase?_start_eq hy) (by decide)

/-- **A document imports those it has edges to.** -/
theorem Completes.mem_imports_iff (h : Completes p w) (hp : p.registry.Distinct) {x y : String}
    (hx : (w.document? x).isSome) :
    y ∈ (w.imports x).map DocumentImport.id ↔ ∃ edge ∈ w.graph.edges, edge.source = x ∧ edge.target = y := by
  constructor
  · intro hy
    obtain ⟨i, hi, rfl⟩ := List.mem_map.1 hy
    exact h.sourced hx i hi
  · rintro ⟨edge, he, rfl, rfl⟩
    exact (h.traced hp).imported edge he

/-- **A document imports no other twice.** -/
theorem Traced.nodup_imports (h : Traced w) (x : String) : ((w.imports x).map DocumentImport.id).Nodup := by
  have hnames : (w.imports x).Nodup := (h.ascending x).imp (fun hlt heq => ne_of_lt hlt (congrArg _ heq))
  refine hnames.map_on (fun i hi j hj hid => ?_)
  obtain ⟨d, hd, rfl⟩ := h.known x i hi
  obtain ⟨d', hd', rfl⟩ := h.known x j hj
  have hsame : d.id = d'.id := hid
  rw [hsame, hd'] at hd
  rw [Option.some.inj hd]

end

end Project
end Valgen
