import Valgen.Proofs.Project.Reached
/-!
# Proofs.Project.History — a compilation forgets what came before it

A project goes through operations, some of which fail.  A compilation leaves phases, exports, edges and patterns behind,
in particular one that stops midway; an update or a removal drops some of them.  None of this reaches the next
compilation, which sees the ordered entries of the project only (`compile_forgets_history`).

Two projects have the same entries if they differ in such remains at most (`SameEntries`).  Each operation preserves
this, a compilation changes no entry, and what a compilation gives depends on the entries alone.
-/
namespace Valgen
namespace Project

open Compile (Setup)
open Schema (Node)

/-! ## Histories -/

inductive Operation where
  | register (id : String) (node : Node) (wishes : Meta)
  | update (id : String) (node : Node) (wishes : Meta)
  | remove (id : String)
  | clear
  | compile

def Operation.isCompile : Operation → Bool
  | .compile => true
  | _ => false

/-- **The project an operation leaves**, also one that is refused or fails midway. -/
def perform (p : Project) : Operation → Project
  | .register id node wishes => (p.register id node wishes).2
  | .update id node wishes => (p.update id node wishes).2
  | .remove id => (p.remove id).2
  | .clear => p.clear
  | .compile => p.compile.2

def performAll (p : Project) (history : List Operation) : Project := history.foldl perform p

/-! ## Phases do not matter to changes -/

namespace Registry

variable (r : Registry) (id : String) (node : Node) (wishes : Meta)

theorem map_resetPhases {β : Type} {f : Document → β} (h : ∀ d : Document, f d.reset = f d) :
    r.resetPhases.map f = r.map f := by
  rw [resetPhases_eq, List.map_map]
  exact List.map_congr_left (fun d _ => h d)

theorem contains_resetPhases : r.resetPhases.contains id = r.contains id := by
  unfold Registry.contains
  rw [resetPhases_eq, List.any_map]
  rfl

theorem freshAlias_resetPhases : r.resetPhases.freshAlias id = r.freshAlias id := by
  have htaken : ∀ name, r.resetPhases.aliasTaken name = r.aliasTaken name := fun name => by
    unfold aliasTaken
    rw [resetPhases_eq, List.any_map]
    rfl
  have hlength : r.resetPhases.length = r.length := List.length_map _
  unfold freshAlias aliasCandidates
  simp only [htaken, hlength]

theorem exportCount_resetPhases : exportCount r.resetPhases = exportCount r := by
  unfold exportCount
  rw [resetPhases_eq, List.foldr_map]
  rfl

theorem start_resetPhases : Work.start r.resetPhases = Work.start r := by
  unfold Work.start
  rw [resetPhases_resetPhases, resetPhases_eq, List.foldl_map]
  rfl

theorem register_resetPhases :
    (r.resetPhases.register id node wishes).2.resetPhases = (r.register id node wishes).2.resetPhases := by
  unfold Registry.register
  rw [contains_resetPhases, freshAlias_resetPhases]
  split
  · exact r.resetPhases_resetPhases
  · dsimp only
    split
    · exact r.resetPhases_resetPhases
    · simp only [resetPhases_eq, List.map_append, List.map_map]
      rfl

theorem resetPhases_modify {f g : Document → Document} (h : ∀ d : Document, (g d.reset).reset = (f d).reset) :
    (r.resetPhases.modify id g).resetPhases = (r.modify id f).resetPhases := by
  unfold modify
  simp only [resetPhases_eq, List.map_map]
  refine List.map_congr_left (fun d _ => ?_)
  have hid : d.reset.id = d.id := rfl
  simp only [Function.comp_apply, hid]
  split
  · exact h d
  · rfl

theorem update_resetPhases :
    (r.resetPhases.update id node wishes).2.resetPhases = (r.update id node wishes).2.resetPhases := by
  unfold Registry.update
  rw [get?_resetPhases]
  cases r.get? id with
  | none => exact r.resetPhases_resetPhases
  | some d =>
    simp only [Option.map_some]
    have hsame : { d.reset with node := node, wishes := wishes, phase := .registered } =
        { d with node := node, wishes := wishes, phase := .registered } := rfl
    rw [hsame]
    split
    · exact r.resetPhases_resetPhases
    · exact r.resetPhases_modify id (fun _ => rfl)

theorem remove_resetPhases : (r.resetPhases.remove id).2.resetPhases = (r.remove id).2.resetPhases := by
  unfold Registry.remove
  simp only [resetPhases_eq, List.filter_map, List.map_map]
  rfl

end Registry

/-! ## Projects with the same entries -/

/-- **Two projects have the same setup and the same ordered entries**; phases and what compilations left may differ. -/
structure SameEntries (p q : Project) : Prop where
  setup : p.setup = q.setup
  registry : p.registry.resetPhases = q.registry.resetPhases

namespace SameEntries

variable {p q : Project}

/-- **A change that does not look at phases** leaves projects with the same entries. -/
theorem change (h : SameEntries p q) (alter : Registry → Registry)
    (halter : ∀ r : Registry, (alter r.resetPhases).resetPhases = (alter r).resetPhases) {p' q' : Project}
    (hsetup : p'.setup = p.setup) (hsetup' : q'.setup = q.setup) (hregistry : p'.registry = alter p.registry)
    (hregistry' : q'.registry = alter q.registry) : SameEntries p' q' := by
  refine ⟨hsetup.trans (h.setup.trans hsetup'.symm), ?_⟩
  rw [hregistry, hregistry', ← halter p.registry, ← halter q.registry, h.registry]

/-- **A compilation changes no entry.** -/
theorem compile (h : SameEntries p q) : SameEntries p.compile.2 q :=
  ⟨h.setup, (resetPhases_compile p).trans h.registry⟩

theorem perform (h : SameEntries p q) (op : Operation) : SameEntries (p.perform op) (q.perform op) := by
  cases op with
  | register id node wishes =>
    exact h.change (fun r => (r.register id node wishes).2) (fun r => r.register_resetPhases id node wishes) rfl rfl
      rfl rfl
  | update id node wishes =>
    exact h.change (fun r => (r.update id node wishes).2) (fun r => r.update_resetPhases id node wishes)
      (p.setup_update id node wishes) (q.setup_update id node wishes) (p.registry_update id node wishes)
      (q.registry_update id node wishes)
  | remove id =>
    exact h.change (fun r => (r.remove id).2) (fun r => r.remove_resetPhases id) (p.setup_remove id)
      (q.setup_remove id) (p.registry_remove id) (q.registry_remove id)
  | clear => exact ⟨h.setup, rfl⟩
  | compile => exact ⟨h.setup, (resetPhases_compile p).trans (h.registry.trans (resetPhases_compile q).symm)⟩

/-- **What a compilation gives depends on the entries alone**, and so does what it leaves. -/
theorem compile_eq (h : SameEntries p q) : p.compile = q.compile := by
  have hstart : Work.start p.registry = Work.start q.registry := by
    rw [← p.registry.start_resetPhases, ← q.registry.start_resetPhases, h.registry]
  have hcount : exportCount p.registry = exportCount q.registry := by
    rw [← p.registry.exportCount_resetPhases, ← q.registry.exportCount_resetPhases, h.registry]
  have hids : p.registry.map (fun d => d.id) = q.registry.map (fun d => d.id) := by
    rw [← p.registry.map_resetPhases (fun _ => rfl), ← q.registry.map_resetPhases (fun _ => rfl), h.registry]
  unfold Project.compile compileAll
  rw [hstart, hcount, hids, h.setup]

end SameEntries

/-- **What a history leaves has the entries that its changes alone leave.** -/
theorem sameEntries_performAll : ∀ {p q : Project} (history : List Operation), SameEntries p q →
    SameEntries (p.performAll history) (q.performAll (history.filter (fun op => !op.isCompile)))
  | _, _, [], h => h
  | _, _, .compile :: rest, h => sameEntries_performAll rest h.compile
  | _, _, .clear :: rest, h => sameEntries_performAll rest (h.perform .clear)
  | _, _, .remove id :: rest, h => sameEntries_performAll rest (h.perform (.remove id))
  | _, _, .update id node wishes :: rest, h => sameEntries_performAll rest (h.perform (.update id node wishes))
  | _, _, .register id node wishes :: rest, h => sameEntries_performAll rest (h.perform (.register id node wishes))

/-- **Nothing of a history reaches the next compilation.**  Whatever operations a project went through, also those that
failed midway, the next compilation gives what it gives for a project with the same ordered entries, all of them just
registered, and nothing left from before; it gives what it gives where the compilations on the way are left out; and a
compilation after it gives the same again. -/
theorem compile_forgets_history (p : Project) (history : List Operation) :
    (p.performAll history).compile =
      compile { setup := (p.performAll history).setup, registry := (p.performAll history).registry.resetPhases } ∧
    (p.performAll history).compile = (p.performAll (history.filter (fun op => !op.isCompile))).compile ∧
    (p.performAll history).compile.2.compile = (p.performAll history).compile := by
  have hfresh : SameEntries (p.performAll history)
      { setup := (p.performAll history).setup, registry := (p.performAll history).registry.resetPhases } :=
    ⟨rfl, ((p.performAll history).registry.resetPhases_resetPhases).symm⟩
  have hchanges : SameEntries (p.performAll history) (p.performAll (history.filter (fun op => !op.isCompile))) :=
    sameEntries_performAll history ⟨rfl, rfl⟩
  have hagain : SameEntries (p.performAll history).compile.2 (p.performAll history) :=
    SameEntries.compile ⟨rfl, rfl⟩
  exact ⟨hfresh.compile_eq, hchanges.compile_eq, hagain.compile_eq⟩

end Project
end Valgen
