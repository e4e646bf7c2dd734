import Valgen.Proofs.Project.Evolution
/-!
# Proofs.Project.Consistency — outputs list what is compiled, each export once

`Consistent` ties the views of the work together: a document that waits has no output and no export that has begun; a
document that has begun has an output that lists its compiled exports, each once (`Lists`); a compiled document has all
its exports compiled; and nothing but exports begins.  Every move keeps it where a compilation makes it, hence so does
every evolution (`Evolves.consistent`).
-/
namespace Valgen
namespace Project

open Compile (Setup)

/-- **An output lists the compiled exports of its document**, those of `done` in this order. -/
structure Lists (setup : Setup) (c : Cache) (d : Document) (o : DocumentOutput) (done : List (Export × Validator)) :
    Prop where
  importName : o.importName = d.importName
  module : o.module = d.module
  exports : o.exports = done.map (fun p => Work.exportOutput setup d p.1 p.2)
  once : (done.map Prod.fst).Nodup
  known : ∀ p ∈ done, p.1 ∈ d.exports
  cached : ∀ e v, (e, v) ∈ done ↔ c.get? d.id e = some v

theorem Lists.congr {setup : Setup} {c c' : Cache} {d : Document} {o o' : DocumentOutput}
    {done : List (Export × Validator)} (h : Lists setup c d o done) (hname : o'.importName = o.importName)
    (hmodule : o'.module = o.module) (hexports : o'.exports = o.exports)
    (hget : ∀ e, c'.get? d.id e = c.get? d.id e) : Lists setup c' d o' done where
  importName := hname.trans h.importName
  module := hmodule.trans h.module
  exports := hexports.trans h.exports
  once := h.once
  known := h.known
  cached e v := by rw [hget]; exact h.cached e v

/-- **The outputs, the phases and the exports of the work agree.** -/
structure Consistent (setup : Setup) (w : Work) : Prop where
  waiting : ∀ x, w.phase? x = some .registered → w.output? x = none ∧ ∀ f, w.cache.progress? x f = none
  listed : ∀ x d, w.document? x = some d → w.phase? x ≠ some .registered →
    ∃ o done, w.output? x = some o ∧ Lists setup w.cache d o done
  compiled : ∀ x d, w.document? x = some d → w.phase? x = some .compiled → ∀ f ∈ d.exports, (w.cache.get? x f).isSome
  begun : ∀ x d f, w.document? x = some d → w.cache.progress? x f ≠ none → f ∈ d.exports

namespace Consistent

variable {setup : Setup} {w : Work} {d : Document} {e : Export}

theorem addImport (h : Consistent setup w) (source : String) (d : Document) :
    Consistent setup (w.addImport source d) := by
  refine ⟨fun x hx => ?_, fun x d' hd' hx => ?_, h.compiled, h.begun⟩
  · obtain ⟨ho, hp⟩ := h.waiting x hx
    refine ⟨?_, hp⟩
    rw [Work.output?_addImport]
    by_cases hs : x = source
    · rw [if_pos hs, ← hs, ho]
      rfl
    · rw [if_neg hs, ho]
  · obtain ⟨o, done, ho, hlists⟩ := h.listed x d' hd' hx
    rw [Work.output?_addImport]
    by_cases hs : x = source
    · rw [if_pos hs, ← hs, ho]
      exact ⟨_, done, rfl, hlists.congr rfl rfl rfl (fun _ => rfl)⟩
    · rw [if_neg hs]
      exact ⟨o, done, ho, hlists⟩

theorem addEdge (h : Consistent setup w) (edge : Edge) : Consistent setup (w.addEdge edge) :=
  ⟨h.waiting, h.listed, h.compiled, h.begun⟩

/-- **Of a document that waits nothing is under way.** -/
theorem idle_openDocument (h : Consistent setup w) (hreg : w.phase? d.id = some .registered) (e : Export) :
    ¬ (w.openDocument d).cache.isCompiling d.id e = true := by
  rw [Cache.isCompiling_iff, Work.progress?_openDocument, (h.waiting d.id hreg).2 e]
  simp

theorem openDocument (h : Consistent setup w) (hd : w.document? d.id = some d)
    (hreg : w.phase? d.id = some .registered) : Consistent setup (w.openDocument d) := by
  obtain ⟨hnoOutput, hnoProgress⟩ := h.waiting d.id hreg
  refine ⟨fun x hx => ?_, fun x d' hd' hx => ?_, fun x d' hd' hx => ?_, fun x d' f hd' hf => ?_⟩
  · have hne := Work.ne_of_phase? hx (phase?_openDocument_self hreg) (by decide)
    rw [phase?_openDocument_of_ne hne] at hx
    rw [Work.output?_openDocument, if_neg hne, Option.or_none]
    exact h.waiting x hx
  · rw [Work.document?_openDocument] at hd'
    by_cases hne : x = d.id
    · rw [hne] at hd' ⊢
      obtain rfl : d = d' := Option.some.inj (hd.symm.trans hd')
      rw [Work.output?_openDocument, if_pos rfl, hnoOutput]
      refine ⟨_, [], rfl, ⟨rfl, rfl, rfl, List.nodup_nil, fun p hp => absurd hp List.not_mem_nil, fun f v => ?_⟩⟩
      rw [Cache.get?_eq_some_iff, Work.progress?_openDocument, hnoProgress]
      simp
    · rw [phase?_openDocument_of_ne hne] at hx
      rw [Work.output?_openDocument, if_neg hne, Option.or_none]
      exact h.listed x d' hd' hx
  · have hne := Work.ne_of_phase? hx (phase?_openDocument_self hreg) (by decide)
    rw [phase?_openDocument_of_ne hne] at hx
    rw [Work.document?_openDocument] at hd'
    exact h.compiled x d' hd' hx
  · rw [Work.document?_openDocument] at hd'
    exact h.begun x d' f hd' hf

theorem closeDocument (h : Consistent setup w) (hd : w.document? d.id = some d)
    (hphase : w.phase? d.id = some .compiling) (hall : ∀ f ∈ d.exports, (w.cache.get? d.id f).isSome) :
    Consistent setup (w.closeDocument d) := by
  refine ⟨fun x hx => ?_, fun x d' hd' hx => ?_, fun x d' hd' hx => ?_, fun x d' f hd' hf => ?_⟩
  · have hne := Work.ne_of_phase? hx (phase?_closeDocument_self hphase) (by decide)
    rw [phase?_closeDocument_of_ne hne] at hx
    exact h.waiting x hx
  · rw [Work.document?_closeDocument] at hd'
    refine h.listed x d' hd' (fun hreg => ?_)
    by_cases hne : x = d.id
    · rw [hne, hphase] at hreg
      cases hreg
    · exact hx ((phase?_closeDocument_of_ne hne).trans hreg)
  · rw [Work.document?_closeDocument] at hd'
    by_cases hne : x = d.id
    · rw [hne] at hd' ⊢
      obtain rfl : d = d' := Option.some.inj (hd.symm.trans hd')
      exact hall
    · rw [phase?_closeDocument_of_ne hne] at hx
      exact h.compiled x d' hd' hx
  · rw [Work.document?_closeDocument] at hd'
    exact h.begun x d' f hd' hf

/-- **An export that begins is not compiled for that.** -/
theorem get?_beginExport (hnone : w.cache.progress? d.id e = none) (x : String) (f : Export) :
    (w.beginExport d e).cache.get? x f = w.cache.get? x f := by
  unfold Cache.get?
  rw [Work.progress?_beginExport]
  by_cases hx : (x, f) = (d.id, e)
  · cases hx
    rw [if_pos rfl, hnone]
  · rw [if_neg hx]

theorem beginExport (h : Consistent setup w) (hd : w.document? d.id = some d)
    (hphase : w.phase? d.id = some .compiling) (he : e ∈ d.exports) (hnone : w.cache.progress? d.id e = none) :
    Consistent setup (w.beginExport d e) := by
  refine ⟨fun x hx => ?_, fun x d' hd' hx => ?_, fun x d' hd' hx f hf => ?_, fun x d' f hd' hf => ?_⟩
  · obtain ⟨ho, hp⟩ := h.waiting x hx
    have hne := Work.ne_of_phase? hx hphase (by decide)
    refine ⟨ho, fun f => ?_⟩
    have hpair : (x, f) ≠ (d.id, e) := fun heq => hne (congrArg Prod.fst heq)
    rw [Work.progress?_beginExport, if_neg hpair, hp]
  · obtain ⟨o, done, ho, hlists⟩ := h.listed x d' hd' hx
    exact ⟨o, done, ho, hlists.congr rfl rfl rfl (fun f => get?_beginExport hnone d'.id f)⟩
  · rw [get?_beginExport hnone]
    exact h.compiled x d' hd' hx f hf
  · by_cases hpair : (x, f) = (d.id, e)
    · cases hpair
      obtain rfl : d = d' := Option.some.inj (hd.symm.trans hd')
      exact he
    · rw [Work.progress?_beginExport, if_neg hpair] at hf
      exact h.begun x d' f hd' hf

/-- **An export under way is compiled when it ends**, and the others stay. -/
theorem get?_finishExport (v : Validator) (x : String) (f : Export) :
    (w.finishExport setup d e v).cache.get? x f = if (x, f) = (d.id, e) then some v else w.cache.get? x f := by
  unfold Cache.get?
  rw [Work.progress?_finishExport]
  by_cases hx : (x, f) = (d.id, e)
  · rw [if_pos hx, if_pos hx]
  · rw [if_neg hx, if_neg hx]

/-- **The list of a document grows by the export that ends.** -/
theorem Lists.finishExport {o : DocumentOutput} {done : List (Export × Validator)} (h : Lists setup w.cache d o done)
    (he : e ∈ d.exports) (hcompiling : w.cache.isCompiling d.id e = true) (v : Validator) :
    Lists setup (w.finishExport setup d e v).cache d
      { o with exports := o.exports ++ [Work.exportOutput setup d e v] } (done ++ [(e, v)]) := by
  have hnotDone : ∀ v', (e, v') ∉ done := by
    intro v' hmem
    rw [h.cached, Cache.get?_eq_some_iff, Cache.isCompiling_iff.1 hcompiling] at hmem
    cases hmem
  refine ⟨h.importName, h.module, ?_, ?_, fun p hp => ?_, fun f v' => ?_⟩
  · rw [h.exports, List.map_append]
    rfl
  · rw [List.map_append, List.nodup_append]
    refine ⟨h.once, by simp, fun f hf f' hf' => ?_⟩
    obtain ⟨p, hp, rfl⟩ := List.mem_map.1 hf
    intro heq
    have hfst : p.1 = e := by simpa [← heq] using hf'
    exact hnotDone p.2 (hfst ▸ hp)
  · rcases List.mem_append.1 hp with hold | hnew
    · exact h.known p hold
    · rw [List.mem_singleton.1 hnew]
      exact he
  · rw [List.mem_append, List.mem_singleton, get?_finishExport, h.cached]
    by_cases hf : f = e
    · rw [hf, if_pos rfl]
      constructor
      · rintro (hold | hnew)
        · exact absurd ((h.cached e v').2 hold) (hnotDone v')
        · cases hnew
          rfl
      · intro heq
        rw [Option.some.inj heq]
        exact .inr rfl
    · have hpair : (d.id, f) ≠ (d.id, e) := fun heq => hf (congrArg Prod.snd heq)
      have hnew : (f, v') ≠ (e, v) := fun heq => hf (congrArg Prod.fst heq)
      rw [if_neg hpair, or_iff_left hnew]

theorem finishExport (h : Consistent setup w) (hd : w.document? d.id = some d)
    (hphase : w.phase? d.id = some .compiling) (he : e ∈ d.exports) (hcompiling : w.cache.isCompiling d.id e = true)
    (v : Validator) : Consistent setup (w.finishExport setup d e v) := by
  refine ⟨fun x hx => ?_, fun x d' hd' hx => ?_, fun x d' hd' hx f hf => ?_, fun x d' f hd' hf => ?_⟩
  · obtain ⟨ho, hp⟩ := h.waiting x hx
    have hne := Work.ne_of_phase? hx hphase (by decide)
    refine ⟨by rw [Work.output?_finishExport, if_neg hne, ho], fun f => ?_⟩
    have hpair : (x, f) ≠ (d.id, e) := fun heq => hne (congrArg Prod.fst heq)
    rw [Work.progress?_finishExport, if_neg hpair, hp]
  · obtain ⟨o, done, ho, hlists⟩ := h.listed x d' hd' hx
    rw [Work.output?_finishExport]
    by_cases hne : x = d.id
    · rw [Work.document?_finishExport, hne] at hd'
      obtain rfl : d = d' := Option.some.inj (hd.symm.trans hd')
      rw [if_pos hne, ← hne, ho]
      exact ⟨_, done ++ [(e, v)], rfl, Lists.finishExport hlists he hcompiling v⟩
    · rw [if_neg hne]
      have hid := Work.id_of_document? hd'
      refine ⟨o, done, ho, hlists.congr rfl rfl rfl (fun f => ?_)⟩
      have hpair : (d'.id, f) ≠ (d.id, e) := fun heq => hne (hid.symm.trans (congrArg Prod.fst heq))
      rw [get?_finishExport, if_neg hpair]
  · rw [get?_finishExport]
    split
    · rfl
    · exact h.compiled x d' hd' hx f hf
  · by_cases hpair : (x, f) = (d.id, e)
    · cases hpair
      obtain rfl : d = d' := Option.some.inj (hd.symm.trans hd')
      exact he
    · rw [Work.progress?_finishExport, if_neg hpair] at hf
      exact h.begun x d' f hd' hf

end Consistent

/-- **An evolution keeps the work consistent.** -/
theorem Evolves.consistent {setup : Setup} {id : String} {w w' : Work} (h : Evolves setup id w w')
    (hw : Consistent setup w) : Consistent setup w' := by
  induction h with
  | refl => exact hw
  | trans _ _ ih₁ ih₂ => exact ih₂ (ih₁ hw)
  | @fresh id w w₁ d e v hd hphase he hnone hrun ih =>
    obtain rfl := Work.id_of_document? hd
    have hbegun : (w.beginExport d e).cache.isCompiling d.id e = true := by
      rw [Cache.isCompiling_iff, Work.progress?_beginExport, if_pos rfl]
    refine (ih (hw.beginExport hd hphase he hnone)).finishExport ?_ ?_ he ?_ v
    · rw [hrun.document?_eq]
      exact hd
    · exact hrun.phase?_of_compiling hphase
    · rw [hrun.isCompiling_eq]
      exact hbegun
  | known => exact (hw.addImport _ _).addEdge _
  | @visit id w w₁ d e _ hd _ _ hreg hrun hall ih =>
    have hopen := (hw.addImport id d).openDocument hd hreg
    refine ((ih hopen).closeDocument ?_ ?_ hall).addEdge _
    · rw [hrun.document?_eq, Work.document?_openDocument]
      exact hd
    · exact hrun.phase?_visited hreg

theorem Finishes.consistent {setup : Setup} {w w' : Work} (h : Finishes setup w w') (hw : Consistent setup w) :
    Consistent setup w' := by
  induction h with
  | refl => exact hw
  | visit hd hreg hrun hall _ ih =>
    refine ih ((hrun.consistent (hw.openDocument hd hreg)).closeDocument ?_ ?_ hall)
    · rw [hrun.document?_eq, Work.document?_openDocument]
      exact hd
    · exact hrun.phase?_visited hreg

/-- **A document is under way, and the work is consistent.** -/
structure Ready (setup : Setup) (id : String) (w : Work) : Prop where
  compiling : w.phase? id = some .compiling
  consistent : Consistent setup w

theorem Evolves.ready {setup : Setup} {id : String} {w w' : Work} (h : Evolves setup id w w')
    (hw : Ready setup id w) : Ready setup id w' :=
  ⟨h.phase?_of_compiling hw.compiling, h.consistent hw.consistent⟩

end Project
end Valgen
