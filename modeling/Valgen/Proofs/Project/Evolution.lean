import Valgen.Proofs.Project.Work
/-!
# Proofs.Project.Evolution — how the work of a compilation changes

`Evolves setup id w w'` says how the work changes while references of the document `id` are resolved: an export of the
document is compiled, with whatever its own references change in between; a reference to another document is recorded,
deferred if that one is under way and direct if it is compiled; or a document that waits is visited, from its first
export to its last, and then recorded.  `Finishes` is a run over documents that wait, with nothing under way.

Everything that holds of all compilations is an induction on these two.  This file has what they say of the views one by
one: documents stay what they are, a phase or an export that is under way stays so, and what is compiled stays compiled;
nothing about another document changes unless it is visited (`Evolves.frame`).
-/
namespace Valgen
namespace Project

open Compile (Setup)

/-- **How the work changes while references of a document are resolved.** -/
inductive Evolves (setup : Setup) : String → Work → Work → Prop
  | refl (id : String) (w : Work) : Evolves setup id w w
  | trans {id : String} {w w₁ w₂ : Work} : Evolves setup id w w₁ → Evolves setup id w₁ w₂ → Evolves setup id w w₂
  /-- An export of the document itself. -/
  | fresh {id : String} {w w₁ : Work} {d : Document} {e : Export} (v : Validator) :
    w.document? id = some d → w.phase? id = some .compiling → e ∈ d.exports → w.cache.progress? id e = none →
    Evolves setup id (w.beginExport d e) w₁ → Evolves setup id w (w₁.finishExport setup d e v)
  /-- A reference to a document that has begun: deferred if that one is under way, direct if it is compiled. -/
  | known {id : String} {w : Work} {d : Document} {e : Export} (deferred : Bool) :
    w.phase? id = some .compiling → w.document? d.id = some d → d.id ≠ id → e ∈ d.exports →
    w.phase? d.id = some (if deferred then .compiling else .compiled) →
    Evolves setup id w ((w.addImport id d).addEdge ⟨id, d.id, e.name?, deferred⟩)
  /-- A reference to a document that waits. -/
  | visit {id : String} {w w₁ : Work} {d : Document} {e : Export} :
    w.phase? id = some .compiling → w.document? d.id = some d → d.id ≠ id → e ∈ d.exports →
    w.phase? d.id = some .registered → Evolves setup d.id ((w.addImport id d).openDocument d) w₁ →
    (∀ f ∈ d.exports, (w₁.cache.get? d.id f).isSome) →
    Evolves setup id w ((w₁.closeDocument d).addEdge ⟨id, d.id, e.name?, false⟩)

/-- **How the work changes when documents that wait are compiled one after another.** -/
inductive Finishes (setup : Setup) : Work → Work → Prop
  | refl (w : Work) : Finishes setup w w
  | visit {w w₁ w₂ : Work} {d : Document} :
    w.document? d.id = some d → w.phase? d.id = some .registered → Evolves setup d.id (w.openDocument d) w₁ →
    (∀ f ∈ d.exports, (w₁.cache.get? d.id f).isSome) → Finishes setup (w₁.closeDocument d) w₂ → Finishes setup w w₂

/-- **A document that is visited is under way.** -/
theorem phase?_openDocument_self {w : Work} {d : Document} (h : w.phase? d.id = some .registered) :
    (w.openDocument d).phase? d.id = some .compiling := by
  rw [Work.phase?_openDocument, if_pos rfl, h]
  rfl

theorem phase?_openDocument_of_ne {w : Work} {d : Document} {x : String} (h : x ≠ d.id) :
    (w.openDocument d).phase? x = w.phase? x := by
  rw [Work.phase?_openDocument, if_neg h]

theorem phase?_closeDocument_self {w : Work} {d : Document} {phase : Phase} (h : w.phase? d.id = some phase) :
    (w.closeDocument d).phase? d.id = some .compiled := by
  rw [Work.phase?_closeDocument, if_pos rfl, h]
  rfl

theorem phase?_closeDocument_of_ne {w : Work} {d : Document} {x : String} (h : x ≠ d.id) :
    (w.closeDocument d).phase? x = w.phase? x := by
  rw [Work.phase?_closeDocument, if_neg h]

/-- **A visit leaves phases as they are, but that of its document**, if the run inside it does. -/
theorem phase?_closeDocument_cases {w w₁ : Work} {d : Document} {x : String} (hreg : w.phase? d.id = some .registered)
    (h : w₁.phase? x = (w.openDocument d).phase? x ∨
      ((w.openDocument d).phase? x = some .registered ∧ w₁.phase? x = some .compiled)) :
    (w₁.closeDocument d).phase? x = w.phase? x ∨
      (w.phase? x = some .registered ∧ (w₁.closeDocument d).phase? x = some .compiled) := by
  by_cases hx : x = d.id
  · rw [hx, phase?_openDocument_self hreg] at h
    rcases h with hsame | ⟨hr, _⟩
    · rw [hx]
      exact .inr ⟨hreg, phase?_closeDocument_self hsame⟩
    · cases hr
  · rw [phase?_openDocument_of_ne hx] at h
    rw [phase?_closeDocument_of_ne hx]
    exact h

namespace Evolves

variable {setup : Setup} {id : String} {w w' : Work}

/-- **A phase stays, or a document that waited is compiled.** -/
theorem phase?_cases (h : Evolves setup id w w') (x : String) :
    w'.phase? x = w.phase? x ∨ (w.phase? x = some .registered ∧ w'.phase? x = some .compiled) := by
  induction h with
  | refl => exact .inl rfl
  | trans _ _ ih₁ ih₂ =>
    rcases ih₁ with h₁ | ⟨hr, hc⟩
    · rwa [h₁] at ih₂
    · rcases ih₂ with h₂ | ⟨hr', _⟩
      · exact .inr ⟨hr, h₂.trans hc⟩
      · rw [hc] at hr'
        cases hr'
  | fresh v _ _ _ _ _ ih => simpa using ih
  | known => exact .inl rfl
  | visit _ _ _ _ hreg _ _ ih => exact phase?_closeDocument_cases hreg ih

theorem phase?_of_compiling (h : Evolves setup id w w') {x : String} (hx : w.phase? x = some .compiling) :
    w'.phase? x = some .compiling := by
  rcases h.phase?_cases x with hsame | ⟨hr, _⟩
  · rw [hsame, hx]
  · rw [hx] at hr
    cases hr

theorem phase?_of_compiled (h : Evolves setup id w w') {x : String} (hx : w.phase? x = some .compiled) :
    w'.phase? x = some .compiled := by
  rcases h.phase?_cases x with hsame | ⟨hr, _⟩
  · rw [hsame, hx]
  · rw [hx] at hr
    cases hr

/-- **A document that is visited is under way to the end of the visit.** -/
theorem phase?_visited {d : Document} (h : Evolves setup id (w.openDocument d) w')
    (hreg : w.phase? d.id = some .registered) : w'.phase? d.id = some .compiling :=
  h.phase?_of_compiling (phase?_openDocument_self hreg)

theorem compiling_of_phase? (h : Evolves setup id w w') {x : String} (hx : w'.phase? x = some .compiling) :
    w.phase? x = some .compiling := by
  rcases h.phase?_cases x with hsame | ⟨_, hc⟩
  · rw [← hsame, hx]
  · rw [hx] at hc
    cases hc

/-- **An export stays where it stands, or one that had not begun is compiled.** -/
theorem progress?_cases (h : Evolves setup id w w') (x : String) (f : Export) :
    w'.cache.progress? x f = w.cache.progress? x f ∨
      (w.cache.progress? x f = none ∧ ∃ v, w'.cache.progress? x f = some (.compiled v)) := by
  induction h with
  | refl => exact .inl rfl
  | trans _ _ ih₁ ih₂ =>
    rcases ih₁ with h₁ | ⟨hn, v, hv⟩
    · rwa [h₁] at ih₂
    · rcases ih₂ with h₂ | ⟨hn', _⟩
      · exact .inr ⟨hn, v, h₂.trans hv⟩
      · rw [hv] at hn'
        cases hn'
  | @fresh id w w₁ d e v hd _ _ hnone _ ih =>
    have hid := Work.id_of_document? hd
    rw [Work.progress?_finishExport]
    by_cases hx : (x, f) = (d.id, e)
    · rw [if_pos hx]
      rw [hid] at hx
      cases hx
      exact .inr ⟨hnone, v, rfl⟩
    · rw [if_neg hx]
      rwa [Work.progress?_beginExport, if_neg hx] at ih
  | known => exact .inl rfl
  | visit _ _ _ _ _ _ _ ih => simpa using ih

theorem get?_of_get? (h : Evolves setup id w w') {x : String} {f : Export} {v : Validator}
    (hv : w.cache.get? x f = some v) : w'.cache.get? x f = some v := by
  rw [Cache.get?_eq_some_iff] at hv ⊢
  rcases h.progress?_cases x f with hsame | ⟨hnone, _⟩
  · rw [hsame, hv]
  · rw [hv] at hnone
    cases hnone

/-- **The exports under way stay the same.** -/
theorem isCompiling_eq (h : Evolves setup id w w') (x : String) (f : Export) :
    w'.cache.isCompiling x f = w.cache.isCompiling x f := by
  unfold Cache.isCompiling
  rcases h.progress?_cases x f with hsame | ⟨hnone, v, hv⟩
  · rw [hsame]
  · rw [hnone, hv]

/-- **An edge stays recorded.** -/
theorem mem_edges (h : Evolves setup id w w') {edge : Edge} (he : edge ∈ w.graph.edges) : edge ∈ w'.graph.edges := by
  induction h with
  | refl => exact he
  | trans _ _ ih₁ ih₂ => exact ih₂ (ih₁ he)
  | fresh v _ _ _ _ _ ih => exact ih he
  | known => exact Graph.mem_edges_addEdge.2 (.inl he)
  | visit _ _ _ _ _ _ _ ih => exact Graph.mem_edges_addEdge.2 (.inl (ih he))

/-- **Nothing about another document changes unless it is visited.** -/
theorem frame (h : Evolves setup id w w') {x : String} (hx : x ≠ id) (hphase : w'.phase? x = w.phase? x) :
    w'.output? x = w.output? x ∧ (∀ f, w'.cache.progress? x f = w.cache.progress? x f) ∧
      ∀ edge ∈ w'.graph.edges, edge.source = x → edge ∈ w.graph.edges := by
  induction h with
  | refl => exact ⟨rfl, fun _ => rfl, fun _ he _ => he⟩
  | @trans id w w₁ w₂ h₁ h₂ ih₁ ih₂ =>
    -- A document that the first part visited would be compiled in the end.
    have hmid : w₁.phase? x = w.phase? x := by
      rcases h₁.phase?_cases x with hsame | ⟨hr, hc⟩
      · exact hsame
      · rw [h₂.phase?_of_compiled hc, hr] at hphase
        cases hphase
    obtain ⟨ho₁, hp₁, he₁⟩ := ih₁ hx hmid
    obtain ⟨ho₂, hp₂, he₂⟩ := ih₂ hx (hphase.trans hmid.symm)
    refine ⟨ho₂.trans ho₁, fun f => (hp₂ f).trans (hp₁ f), fun edge he hs => ?_⟩
    exact he₁ edge (he₂ edge he hs) hs
  | @fresh id w w₁ d e v hd _ _ _ _ ih =>
    have hne : x ≠ d.id := Work.id_of_document? hd ▸ hx
    obtain ⟨ho, hp, he⟩ := ih hx hphase
    refine ⟨?_, fun f => ?_, he⟩
    · rw [Work.output?_finishExport, if_neg hne, ho, Work.output?_beginExport]
    · have hpair : (x, f) ≠ (d.id, e) := fun heq => hne (congrArg Prod.fst heq)
      rw [Work.progress?_finishExport, if_neg hpair, hp, Work.progress?_beginExport, if_neg hpair]
  | known =>
    refine ⟨?_, fun _ => rfl, fun edge he hs => ?_⟩
    · rw [Work.output?_addEdge, Work.output?_addImport, if_neg hx]
    · rcases Graph.mem_edges_addEdge.1 he with hold | hnew
      · exact hold
      · exact absurd (hs.symm.trans (congrArg Edge.source hnew)) hx
  | @visit id w w₁ d e _ _ _ _ hreg hvisit _ ih =>
    have hne : x ≠ d.id := by
      intro heq
      have hclosed := phase?_closeDocument_self (hvisit.phase?_visited hreg)
      rw [Work.phase?_addEdge, heq, hclosed, hreg] at hphase
      cases hphase
    rw [Work.phase?_addEdge, phase?_closeDocument_of_ne hne] at hphase
    obtain ⟨ho, hp, he⟩ := ih hne (hphase.trans (phase?_openDocument_of_ne hne).symm)
    refine ⟨?_, hp, fun edge hedge hs => ?_⟩
    · rw [Work.output?_addEdge, Work.output?_closeDocument, ho, Work.output?_openDocument, if_neg hne, Option.or_none,
        Work.output?_addImport, if_neg hx]
    · rcases Graph.mem_edges_addEdge.1 hedge with hold | hnew
      · exact he edge hold hs
      · exact absurd (hs.symm.trans (congrArg Edge.source hnew)) hx

end Evolves

/-! ## Growth -/

/-- **The work only grew**: documents stay, edges stay recorded, and the exports of an output stay at its front. -/
structure Grows (w w' : Work) : Prop where
  documents : ∀ id, w'.document? id = w.document? id
  edges : ∀ edge ∈ w.graph.edges, edge ∈ w'.graph.edges
  exports : ∀ id o, w.output? id = some o → ∃ o', w'.output? id = some o' ∧ o.exports <+: o'.exports

namespace Grows

theorem refl (w : Work) : Grows w w := ⟨fun _ => rfl, fun _ he => he, fun _ o ho => ⟨o, ho, List.prefix_refl _⟩⟩

theorem trans {w w₁ w₂ : Work} (h₁ : Grows w w₁) (h₂ : Grows w₁ w₂) : Grows w w₂ := by
  refine ⟨fun id => (h₂.documents id).trans (h₁.documents id), fun edge he => h₂.edges edge (h₁.edges edge he), ?_⟩
  intro id o ho
  obtain ⟨o₁, ho₁, hp₁⟩ := h₁.exports id o ho
  obtain ⟨o₂, ho₂, hp₂⟩ := h₂.exports id o₁ ho₁
  exact ⟨o₂, ho₂, hp₁.trans hp₂⟩

variable (w : Work) (setup : Setup) (source : String) (d : Document) (e : Export) (v : Validator) (edge : Edge)

theorem addImport : Grows w (w.addImport source d) := by
  refine ⟨fun _ => rfl, fun _ he => he, fun id o ho => ?_⟩
  rw [Work.output?_addImport]
  by_cases h : id = source
  · rw [if_pos h, ← h, ho]
    exact ⟨_, rfl, List.prefix_refl _⟩
  · rw [if_neg h]
    exact ⟨o, ho, List.prefix_refl _⟩

theorem openDocument : Grows w (w.openDocument d) := by
  refine ⟨fun id => w.document?_openDocument id d, fun _ he => he, fun id o ho => ⟨o, ?_, List.prefix_refl _⟩⟩
  rw [Work.output?_openDocument, ho, Option.some_or]

theorem closeDocument : Grows w (w.closeDocument d) :=
  ⟨fun id => w.document?_closeDocument id d, fun _ he => he, fun _ o ho => ⟨o, ho, List.prefix_refl _⟩⟩

theorem beginExport : Grows w (w.beginExport d e) :=
  ⟨fun _ => rfl, fun _ he => he, fun _ o ho => ⟨o, ho, List.prefix_refl _⟩⟩

theorem finishExport : Grows w (w.finishExport setup d e v) := by
  refine ⟨fun _ => rfl, fun _ he => he, fun id o ho => ?_⟩
  rw [Work.output?_finishExport]
  by_cases h : id = d.id
  · rw [if_pos h, ← h, ho]
    exact ⟨_, rfl, List.prefix_append _ _⟩
  · rw [if_neg h]
    exact ⟨o, ho, List.prefix_refl _⟩

theorem addEdge : Grows w (w.addEdge edge) :=
  ⟨fun _ => rfl, fun _ he => Graph.mem_edges_addEdge.2 (.inl he), fun _ o ho => ⟨o, ho, List.prefix_refl _⟩⟩

end Grows

theorem Evolves.grows {setup : Setup} {id : String} {w w' : Work} (h : Evolves setup id w w') : Grows w w' := by
  induction h with
  | refl => exact Grows.refl _
  | trans _ _ ih₁ ih₂ => exact ih₁.trans ih₂
  | fresh v _ _ _ _ _ ih => exact (Grows.beginExport _ _ _).trans (ih.trans (Grows.finishExport _ _ _ _ v))
  | known => exact (Grows.addImport _ _ _).trans (Grows.addEdge _ _)
  | visit _ _ _ _ _ _ _ ih =>
    exact ((Grows.addImport _ _ _).trans (Grows.openDocument _ _)).trans
      (ih.trans ((Grows.closeDocument _ _).trans (Grows.addEdge _ _)))

theorem Evolves.document?_eq {setup : Setup} {id : String} {w w' : Work} (h : Evolves setup id w w') (x : String) :
    w'.document? x = w.document? x := h.grows.documents x

/-! ## Documents one after another -/

namespace Finishes

variable {setup : Setup} {w w' : Work}

theorem trans {w'' : Work} (h : Finishes setup w w') (h' : Finishes setup w' w'') : Finishes setup w w'' := by
  induction h with
  | refl => exact h'
  | visit hd hreg hrun hall _ ih => exact .visit hd hreg hrun hall (ih h')

theorem phase?_cases (h : Finishes setup w w') (x : String) :
    w'.phase? x = w.phase? x ∨ (w.phase? x = some .registered ∧ w'.phase? x = some .compiled) := by
  induction h with
  | refl => exact .inl rfl
  | visit _ hreg hrun _ _ ih =>
    rcases phase?_closeDocument_cases hreg (hrun.phase?_cases x) with hsame | ⟨hr, hc⟩
    · rwa [hsame] at ih
    · rcases ih with hsame | ⟨hr', _⟩
      · exact .inr ⟨hr, hsame.trans hc⟩
      · rw [hc] at hr'
        cases hr'

theorem grows (h : Finishes setup w w') : Grows w w' := by
  induction h with
  | refl => exact Grows.refl _
  | visit _ _ hrun _ _ ih =>
    exact ((Grows.openDocument _ _).trans hrun.grows).trans ((Grows.closeDocument _ _).trans ih)

theorem document?_eq (h : Finishes setup w w') (x : String) : w'.document? x = w.document? x := h.grows.documents x

end Finishes

end Project
end Valgen
