import Valgen.Proofs.Compile.Runs
import Valgen.Proofs.Project.Work
/-!
# Proofs.Project.Runs — the successful runs of each computation of a project

What a successful run of each computation consists of, in terms of the moves of `Proofs.Project.Work` and of the runs
inside it.
-/
namespace Valgen
namespace Project

open Compile (Resolution Runs Setup State not_runs_throw runs_bind runs_get runs_modify runs_pure)
open Schema (Node)

/-! ## Runs of the basic computations -/

theorem run_getWork_bind {α : Type} {s : State Work} (f : Work → ProjectM α) :
    (getWork >>= f).run.run s = (f s.world).run.run s := rfl

theorem run_modifyWork_bind {α : Type} {s : State Work} (f : Work → Work) (g : Unit → ProjectM α) :
    (modifyWork f >>= g).run.run s = (g ()).run.run { s with world := f s.world } := rfl

theorem runs_getWork {s t : State Work} {w : Work} : Runs getWork s w t ↔ s.world = w ∧ s = t := by
  unfold getWork
  rw [runs_bind]
  constructor
  · rintro ⟨a, u, hget, hpure⟩
    obtain ⟨rfl, rfl⟩ := runs_get.1 hget
    exact runs_pure.1 hpure
  · rintro ⟨rfl, rfl⟩
    exact ⟨s, s, runs_get.2 ⟨rfl, rfl⟩, runs_pure.2 ⟨rfl, rfl⟩⟩

theorem runs_modifyWork {f : Work → Work} {s t : State Work} {a : Unit} :
    Runs (modifyWork f) s a t ↔ t = { s with world := f s.world } := runs_modify

/-- **A sequence that starts with a change to the work.** -/
theorem runs_modifyWork_bind {α : Type} {f : Work → Work} {g : Unit → ProjectM α} {s t : State Work} {a : α} :
    Runs (modifyWork f >>= g) s a t ↔ Runs (g ()) { s with world := f s.world } a t := by
  rw [runs_bind]
  constructor
  · rintro ⟨_, u, hmod, hg⟩
    rw [runs_modifyWork.1 hmod] at hg
    exact hg
  · intro hg
    exact ⟨(), _, runs_modifyWork.2 rfl, hg⟩

/-- **A sequence that starts with a look at the work.** -/
theorem runs_getWork_bind {α : Type} {g : Work → ProjectM α} {s t : State Work} {a : α} :
    Runs (getWork >>= g) s a t ↔ Runs (g s.world) s a t := by
  rw [runs_bind]
  constructor
  · rintro ⟨w, u, hget, hg⟩
    obtain ⟨rfl, rfl⟩ := runs_getWork.1 hget
    exact hg
  · intro hg
    exact ⟨s.world, s, runs_getWork.2 ⟨rfl, rfl⟩, hg⟩

/-! ## The runs of each computation -/

section
variable {setup : Setup} {r : Resolver} {d : Document} {e : Export} {s t : State Work}

def exportBody (setup : Setup) (resolve : Resolver) (d : Document) (e : Export) (target : Node) : ProjectM Validator :=
  match e with
  | .root => (exportSession setup resolve d).compileRoot (exportContext setup d e)
  | .named _ => (exportSession setup resolve d).compile [] target (exportContext setup d e)

theorem runs_compileFresh {a : Unit} : Runs (compileFresh setup r d e) s a t ↔ ∃ target v u, d.target? e = some target ∧
    Runs (exportBody setup r d e target) { s with world := s.world.beginExport d e } v u ∧
    t = { u with world := u.world.finishExport setup d e v } := by
  unfold compileFresh
  cases d.target? e with
  | none =>
    constructor
    · intro h
      exact absurd h not_runs_throw
    · rintro ⟨_, _, _, htarget, _⟩
      cases htarget
  | some target =>
    simp only [runs_modifyWork_bind]
    constructor
    · intro h
      cases e <;>
        obtain ⟨v, u, hbody, hrest⟩ := runs_bind.1 h <;>
        exact ⟨target, v, u, rfl, hbody, runs_modifyWork.1 (runs_modifyWork_bind.1 hrest)⟩
    · rintro ⟨_, v, u, htarget, hbody, ht⟩
      cases htarget
      cases e <;> exact runs_bind.2 ⟨v, u, hbody, runs_modifyWork_bind.2 (runs_modifyWork.2 ht)⟩

theorem runs_compileExport {a : Unit} : Runs (compileExport setup r d e) s a t ↔
    ((s.world.cache.get? d.id e).isSome ∧ s = t) ∨
      (s.world.cache.get? d.id e = none ∧ Runs (compileFresh setup r d e) s a t) := by
  unfold compileExport
  rw [runs_getWork_bind]
  cases s.world.cache.get? d.id e with
  | none => simp
  | some v => simp [runs_pure]

theorem runs_compileExports_nil {a : Unit} : Runs (compileExports setup r d []) s a t ↔ s = t := by
  unfold compileExports
  rw [runs_pure]
  simp

theorem runs_compileExports_cons {rest : List Export} {a : Unit} :
    Runs (compileExports setup r d (e :: rest)) s a t ↔
      ∃ u, Runs (compileExport setup r d e) s () u ∧ Runs (compileExports setup r d rest) u a t := by
  conv => lhs; unfold compileExports
  rw [runs_bind]
  exact ⟨fun ⟨_, u, h₁, h₂⟩ => ⟨u, h₁, h₂⟩, fun ⟨u, h₁, h₂⟩ => ⟨(), u, h₁, h₂⟩⟩

theorem runs_compileDocument {a : Unit} : Runs (compileDocument setup r d) s a t ↔
    ∃ u, Runs (compileExports setup r d d.exports) { s with world := s.world.openDocument d } () u ∧
      t = { u with world := u.world.closeDocument d } := by
  unfold compileDocument
  rw [runs_modifyWork_bind, runs_modifyWork_bind, runs_bind]
  constructor
  · rintro ⟨_, u, hexports, hclose⟩
    exact ⟨u, hexports, runs_modifyWork.1 hclose⟩
  · rintro ⟨u, hexports, hclose⟩
    exact ⟨(), u, hexports, runs_modifyWork.2 hclose⟩

/-- **The work at which another document is referred to**: it is imported, and compiled if it waited. -/
def RunsVisit (setup : Setup) (r : Resolver) (source : String) (d : Document) (s u : State Work) : Prop :=
  if d.phase = .registered then Runs (compileDocument setup r d) { s with world := s.world.addImport source d } () u
  else u = { s with world := s.world.addImport source d }

theorem runs_resolveOther {source : String} {a : Resolution} : Runs (resolveOther setup r source d e) s a t ↔
    ∃ u, RunsVisit setup r source d s u ∧
      t = { u with world := u.world.addEdge ⟨source, d.id, e.name?, d.phase == .compiling⟩ } ∧
      a = .validator (if d.phase == .compiling then Validator.lazy (d.importName ++ "." ++ d.binding e)
        else Validator.reference (d.importName ++ "." ++ d.binding e)) := by
  unfold resolveOther RunsVisit
  simp only [runs_modifyWork_bind]
  by_cases hreg : d.phase = .registered
  · have hbeq : (d.phase == .registered) = true := by simpa using hreg
    simp only [if_pos hreg]
    rw [if_pos hbeq, runs_bind]
    constructor
    · rintro ⟨_, u, hvisit, hrest⟩
      rw [runs_modifyWork_bind, runs_pure] at hrest
      exact ⟨u, hvisit, hrest.2.symm, hrest.1.symm⟩
    · rintro ⟨u, hvisit, ht, ha⟩
      refine ⟨(), u, hvisit, ?_⟩
      rw [runs_modifyWork_bind, runs_pure]
      exact ⟨ha.symm, ht.symm⟩
  · have hbeq : ¬ (d.phase == .registered) = true := by simpa using hreg
    simp only [if_neg hreg]
    rw [if_neg hbeq, runs_modifyWork_bind, runs_pure]
    constructor
    · rintro ⟨ha, ht⟩
      exact ⟨_, rfl, ht.symm, ha.symm⟩
    · rintro ⟨u, rfl, ht, ha⟩
      exact ⟨ha.symm, ht.symm⟩

theorem runs_resolveOwn {a : Resolution} : Runs (resolveOwn setup r d e) s a t ↔
    ((s.world.cache.get? d.id e).isSome ∧ a = .validator (Validator.reference (d.binding e)) ∧ s = t) ∨
    (s.world.cache.get? d.id e = none ∧ s.world.cache.isCompiling d.id e = true ∧
      a = .validator (Validator.lazy (d.binding e)) ∧ s = t) ∨
    (s.world.cache.get? d.id e = none ∧ s.world.cache.progress? d.id e = none ∧
      a = .validator (Validator.reference (d.binding e)) ∧ Runs (compileFresh setup r d e) s () t) := by
  unfold resolveOwn
  simp only [runs_getWork_bind]
  cases hget : s.world.cache.get? d.id e with
  | some v =>
    simp only [Option.isSome_some, ↓reduceIte, runs_pure, true_and, reduceCtorEq, false_and, or_false]
    exact ⟨fun ⟨ha, ht⟩ => ⟨ha.symm, ht⟩, fun ⟨ha, ht⟩ => ⟨ha.symm, ht⟩⟩
  | none =>
    by_cases hc : s.world.cache.isCompiling d.id e = true
    · have hprogress : s.world.cache.progress? d.id e ≠ none := by
        rw [Cache.isCompiling_iff.1 hc]
        exact Option.some_ne_none _
      simp only [Option.isSome_none, Bool.false_eq_true, ↓reduceIte, hc, runs_pure, false_and, true_and, false_or,
        hprogress, or_false]
      exact ⟨fun ⟨ha, ht⟩ => ⟨ha.symm, ht⟩, fun ⟨ha, ht⟩ => ⟨ha.symm, ht⟩⟩
    · have hprogress := Cache.progress?_eq_none_of hget hc
      simp only [Option.isSome_none, Bool.false_eq_true, ↓reduceIte, hc, false_and, true_and, false_or, hprogress,
        runs_bind, runs_pure, runs_compileExport, hget]
      constructor
      · rintro ⟨_, u, hfresh, ha, rfl⟩
        exact ⟨ha.symm, hfresh⟩
      · rintro ⟨ha, hfresh⟩
        exact ⟨(), t, hfresh, ha.symm, rfl⟩

end

end Project
end Valgen
