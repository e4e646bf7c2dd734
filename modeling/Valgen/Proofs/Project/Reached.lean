import Mathlib.Data.List.Nodup
import Mathlib.Data.List.Perm.Subperm
import Valgen.Proofs.Compile.Sessions
import Valgen.Proofs.Project.Work
/-!
# Proofs.Project.Reached — the projects that operations lead to

A project is reached by registering, updating and removing documents, and by compiling, whether that succeeds or not.
In every such project the ids are distinct, and so are the names under which documents are imported and the constants of
each document (`Reached.distinct`).
-/
namespace Valgen
namespace Project

open Compile (Context Keeps Session SessionRelated Setup keeping)
open Schema (Node)

/-! ## Names -/

/-- **Ids, import names, and the constants of each document are distinct.** -/
structure Registry.Distinct (r : Registry) : Prop where
  ids : (r.map Document.id).Nodup
  importNames : (r.map Document.importName).Nodup
  bindings : ∀ d ∈ r, (d.exports.map d.binding).Nodup

theorem Document.nodup_of_clash? (d : Document) : ∀ (es before : List Export), d.clash? before es = none →
    (before.map d.binding).Nodup → ((before ++ es).map d.binding).Nodup
  | [], before, _, hbefore => by rwa [List.append_nil]
  | e :: rest, before, hclash, hbefore => by
    unfold clash? at hclash
    cases hfind : before.find? (fun other => d.binding other == d.binding e) with
    | some other =>
      rw [hfind] at hclash
      cases hclash
    | none =>
      rw [hfind] at hclash
      have hnew : d.binding e ∉ before.map d.binding := by
        rw [List.mem_map]
        rintro ⟨other, hother, heq⟩
        exact List.find?_eq_none.1 hfind other hother (beq_iff_eq.2 heq)
      have hsnoc : ((before ++ [e]).map d.binding).Nodup := by
        rw [List.map_append, List.map_singleton]
        exact hbefore.append (List.nodup_singleton _) (List.disjoint_singleton.2 hnew)
      have hrest := nodup_of_clash? d rest (before ++ [e]) hclash hsnoc
      rwa [List.append_assoc, List.singleton_append] at hrest

/-- **In a document that is not refused no two exports share a constant.** -/
theorem Document.nodup_of_checkBindings {d : Document} (h : d.checkBindings = .ok ()) :
    (d.exports.map d.binding).Nodup := by
  unfold checkBindings at h
  cases hclash : d.clash? [] d.exports with
  | none => exact d.nodup_of_clash? d.exports [] hclash List.nodup_nil
  | some clash =>
    rw [hclash] at h
    cases h

namespace Registry

theorem aliasTaken_iff {r : Registry} {name : String} :
    r.aliasTaken name = true ↔ name ∈ r.map Document.importName := by
  unfold aliasTaken
  rw [List.any_eq_true, List.mem_map]
  simp

theorem nodup_aliasCandidates (r : Registry) (id : String) : (r.aliasCandidates id).Nodup := by
  unfold aliasCandidates
  refine List.nodup_cons.2 ⟨?_, List.nodup_range.map (fun m n heq => ?_)⟩
  · rw [List.mem_map]
    rintro ⟨n, _, heq⟩
    have hlength := congrArg String.length heq
    rw [String.length_append, String.length_append] at hlength
    have hbar : "_".length = 1 := rfl
    omega
  · have hrepr : (m + 2).repr = (n + 2).repr := (String.append_right_inj _).1 heq
    rw [Nat.repr_eq_ofList_toDigits, Nat.repr_eq_ofList_toDigits] at hrepr
    have hread := congrArg (fun digits => Nat.ofDigitChars 10 digits 0) (String.ofList_injective hrepr)
    simp only [Nat.ofDigitChars_toDigits (b := 10) (by decide) (by decide)] at hread
    omega

/-- **There is one candidate more than there are documents, so one of them is free.** -/
theorem freshAlias_not_mem (r : Registry) (id : String) : r.freshAlias id ∉ r.map Document.importName := by
  unfold freshAlias
  cases hfind : (r.aliasCandidates id).find? (fun name => !r.aliasTaken name) with
  | some name =>
    have hfree := List.find?_some hfind
    intro hmem
    rw [Option.getD_some, ← aliasTaken_iff] at hmem
    rw [hmem] at hfree
    cases hfree
  | none =>
    have hsub : r.aliasCandidates id ⊆ r.map Document.importName := by
      intro name hname
      have htaken := List.find?_eq_none.1 hfind name hname
      rw [Bool.not_eq_true', Bool.not_eq_false] at htaken
      exact aliasTaken_iff.1 htaken
    have hlength := ((r.nodup_aliasCandidates id).subperm hsub).length_le
    unfold aliasCandidates at hlength
    simp only [List.length_cons, List.length_map, List.length_range] at hlength
    omega

/-! ## Operations on documents -/

theorem contains_iff {r : Registry} {id : String} : r.contains id = true ↔ id ∈ r.map Document.id := by
  unfold Registry.contains
  rw [List.any_eq_true, List.mem_map]
  simp

section
variable (r : Registry) (id : String) (node : Node) (wishes : Meta)

/-- **What a registration does**: it is refused and adds nothing, or the id is new and its document is the last one. -/
theorem register_cases : (∃ e, r.register id node wishes = (.error e, r)) ∨
    id ∉ r.map Document.id ∧ ∃ d : Document, d.id = id ∧ d.importName = r.freshAlias id ∧ d.checkBindings = .ok () ∧
      r.register id node wishes = (.ok (), r ++ [d]) := by
  unfold Registry.register
  split
  · exact .inl ⟨_, rfl⟩
  · rename_i hnew
    cases hcheck : Document.checkBindings
        { id := id, node := node, wishes := wishes, importName := r.freshAlias id } with
    | error e => exact .inl ⟨e, by simp only [hcheck]⟩
    | ok _ =>
      refine .inr ⟨fun hid => hnew (contains_iff.2 hid), _, rfl, rfl, hcheck, ?_⟩
      simp only [hcheck]

/-- **What an update does**: it is refused and changes nothing, or the document of the id is another one with its id and
its import name. -/
theorem update_cases : (∃ e, r.update id node wishes = (.error e, r)) ∨
    ∃ old d : Document, r.get? id = some old ∧ d.id = old.id ∧ d.importName = old.importName ∧
      d.checkBindings = .ok () ∧ r.update id node wishes = (.ok (), r.modify id (fun _ => d)) := by
  unfold Registry.update
  cases hold : r.get? id with
  | none => exact .inl ⟨_, rfl⟩
  | some old =>
    cases hcheck : Document.checkBindings { old with node := node, wishes := wishes, phase := .registered } with
    | error e => exact .inl ⟨e, by simp only [hcheck]⟩
    | ok _ =>
      refine .inr ⟨old, { old with node := node, wishes := wishes, phase := .registered }, rfl, rfl, rfl, hcheck, ?_⟩
      simp only [hcheck]

/-- **What a removal does**: there is no document of the id and it is refused, and all documents stay since none has the
id; or they stay but for that one. -/
theorem remove_cases : (∃ e, r.remove id = (.error e, r)) ∨
    ∃ d, r.get? id = some d ∧ r.remove id = (.ok d, List.filter (fun d => d.id != id) r) := by
  unfold Registry.remove
  cases hd : r.get? id with
  | some d => exact .inr ⟨d, rfl, rfl⟩
  | none =>
    have hall : List.filter (fun d : Document => d.id != id) r = r := by
      refine List.filter_eq_self.2 (fun d hmem => ?_)
      simpa using List.find?_eq_none.1 hd d hmem
    exact .inl ⟨_, by rw [hall]; rfl⟩

end

namespace Distinct

variable {r r' : Registry} (id : String) (node : Node) (wishes : Meta)

theorem nil : Distinct [] := ⟨List.nodup_nil, List.nodup_nil, fun _ hd => absurd hd List.not_mem_nil⟩

theorem register (h : r.Distinct) : (r.register id node wishes).2.Distinct := by
  rcases r.register_cases id node wishes with ⟨e, hrefused⟩ | ⟨hid, d, rfl, hname, hcheck, haccepted⟩
  · rwa [hrefused]
  · rw [haccepted]
    refine ⟨?_, ?_, fun other hother => ?_⟩
    · rw [List.map_append, List.map_singleton]
      exact h.ids.append (List.nodup_singleton _) (List.disjoint_singleton.2 hid)
    · rw [List.map_append, List.map_singleton, hname]
      exact h.importNames.append (List.nodup_singleton _) (List.disjoint_singleton.2 (r.freshAlias_not_mem d.id))
    · rcases List.mem_append.1 hother with hold | hnew
      · exact h.bindings other hold
      · rw [List.mem_singleton.1 hnew]
        exact Document.nodup_of_checkBindings hcheck

theorem update (h : r.Distinct) : (r.update id node wishes).2.Distinct := by
  rcases r.update_cases id node wishes with ⟨e, hrefused⟩ | ⟨old, d, hold, hid, hname, hcheck, haccepted⟩
  · rwa [hrefused]
  · rw [haccepted]
    have hmem : old ∈ r := List.mem_of_find?_eq_some hold
    -- Only the document of the id changes, and it keeps its id and its import name.
    have hkeep : ∀ {β : Type} (f : Document → β), f d = f old → (r.modify id (fun _ => d)).map f = r.map f := by
      intro β f hf
      unfold Registry.modify
      rw [List.map_map]
      refine List.map_congr_left (fun other hother => ?_)
      simp only [Function.comp_apply]
      split
      · rename_i heq
        have hsame : other = old :=
          List.inj_on_of_nodup_map h.ids hother hmem ((beq_iff_eq.1 heq).trans (Registry.id_of_get? hold).symm)
        rw [hf, hsame]
      · rfl
    refine ⟨?_, ?_, fun other hother => ?_⟩
    · rw [hkeep Document.id hid]
      exact h.ids
    · rw [hkeep Document.importName hname]
      exact h.importNames
    · obtain ⟨before, hbefore, rfl⟩ := List.mem_map.1 hother
      split
      · exact Document.nodup_of_checkBindings hcheck
      · exact h.bindings before hbefore

theorem remove (h : r.Distinct) : (r.remove id).2.Distinct := by
  have hsub : List.Sublist (r.remove id).2 r := List.filter_sublist
  exact ⟨h.ids.sublist (hsub.map _), h.importNames.sublist (hsub.map _), fun d hd => h.bindings d (hsub.subset hd)⟩

/-- **Phases do not matter.** -/
theorem congr (h : r.Distinct) (hreset : r'.resetPhases = r.resetPhases) : r'.Distinct := by
  rw [resetPhases_eq, resetPhases_eq] at hreset
  have hmap : ∀ {β : Type} (f : Document → β), (∀ d, f d.reset = f d) → r'.map f = r.map f := by
    intro β f hf
    have hcomp : f ∘ Document.reset = f := funext hf
    rw [← hcomp, ← List.map_map, ← List.map_map, hreset]
  refine ⟨?_, ?_, fun d hd => ?_⟩
  · rw [hmap Document.id (fun _ => rfl)]
    exact h.ids
  · rw [hmap Document.importName (fun _ => rfl)]
    exact h.importNames
  · have hd' : d.reset ∈ r.map Document.reset := hreset ▸ List.mem_map_of_mem hd
    obtain ⟨old, hold, heq⟩ := List.mem_map.1 hd'
    have hbindings := h.bindings old hold
    have hsame : old.reset.exports.map old.reset.binding = d.exports.map d.binding := by rw [heq]; rfl
    exact hsame ▸ hbindings

end Distinct
end Registry

/-! ## A compilation changes phases only -/

theorem Registry.resetPhases_resetPhases (r : Registry) : r.resetPhases.resetPhases = r.resetPhases := by
  rw [resetPhases_eq, resetPhases_eq, List.map_map]
  rfl

theorem Registry.resetPhases_setPhase (r : Registry) (id : String) (phase : Phase) :
    (r.setPhase id phase).resetPhases = r.resetPhases := by
  unfold setPhase modify
  rw [resetPhases_eq, resetPhases_eq, List.map_map]
  refine List.map_congr_left (fun d _ => ?_)
  simp only [Function.comp_apply]
  split <;> rfl

/-- **A computation keeps the documents**, but for their phases. -/
def KeepsDocuments (documents : Registry) {α : Type} (m : ProjectM α) : Prop :=
  Keeps (fun w : Work => w.registry.resetPhases = documents) m

section
variable {documents : Registry} {setup : Setup} {r : Resolver}

theorem keepsDocuments_modifyWork {f : Work → Work} (h : ∀ w, (f w).registry.resetPhases = w.registry.resetPhases) :
    KeepsDocuments documents (modifyWork f) := fun s hs => (h s.world).trans hs

theorem keepsDocuments_modifyWork_bind {α : Type} {f : Work → Work} {g : Unit → ProjectM α}
    (hf : ∀ w, (f w).registry.resetPhases = w.registry.resetPhases) (hg : KeepsDocuments documents (g ())) :
    KeepsDocuments documents (modifyWork f >>= g) := (keepsDocuments_modifyWork hf).bind (fun _ => hg)

theorem keepsDocuments_setPhase (id : String) (phase : Phase) :
    KeepsDocuments documents (modifyWork (fun w => w.setPhase id phase)) :=
  keepsDocuments_modifyWork (fun w => w.registry.resetPhases_setPhase id phase)

theorem keepsDocuments_getWork_bind {α : Type} {f : Work → ProjectM α} (h : ∀ w, KeepsDocuments documents (f w)) :
    KeepsDocuments documents (getWork >>= f) := fun s hs => h s.world s hs

theorem keepsDocuments_pure {α : Type} (a : α) : KeepsDocuments documents (pure a : ProjectM α) := fun _ hs => hs

theorem keepsDocuments_throw {α : Type} (e : Error) : KeepsDocuments documents (throw e : ProjectM α) := fun _ hs => hs

theorem keepsDocuments_compileFresh (hr : ∀ reference ctx, KeepsDocuments documents (r reference ctx)) (d : Document)
    (e : Export) : KeepsDocuments documents (compileFresh setup r d e) := by
  have hsession : SessionRelated (keeping (fun w : Work => w.registry.resetPhases = documents)) (some d.id)
      (exportSession setup r d) (exportSession setup r d) := ⟨rfl, rfl, rfl, fun reference ctx _ => hr reference ctx⟩
  unfold compileFresh
  cases d.target? e with
  | none => exact keepsDocuments_throw _
  | some target =>
    refine keepsDocuments_modifyWork_bind (fun _ => rfl) ?_
    cases e with
    | root =>
      refine Keeps.bind (Session.compileRoot_related hsession _ rfl) (fun v => ?_)
      exact keepsDocuments_modifyWork_bind (fun _ => rfl) (keepsDocuments_modifyWork (fun _ => rfl))
    | named name =>
      refine Keeps.bind (Session.compile_related hsession [] target _ rfl) (fun v => ?_)
      exact keepsDocuments_modifyWork_bind (fun _ => rfl) (keepsDocuments_modifyWork (fun _ => rfl))

theorem keepsDocuments_compileExport (hr : ∀ reference ctx, KeepsDocuments documents (r reference ctx)) (d : Document)
    (e : Export) : KeepsDocuments documents (compileExport setup r d e) := by
  refine keepsDocuments_getWork_bind (fun w => ?_)
  cases w.cache.get? d.id e with
  | some v => exact keepsDocuments_pure ()
  | none => exact keepsDocuments_compileFresh hr d e

theorem keepsDocuments_compileExports (hr : ∀ reference ctx, KeepsDocuments documents (r reference ctx))
    (d : Document) : ∀ es : List Export, KeepsDocuments documents (compileExports setup r d es)
  | [] => keepsDocuments_pure ()
  | e :: rest => (keepsDocuments_compileExport hr d e).bind (fun _ => keepsDocuments_compileExports hr d rest)

theorem keepsDocuments_compileDocument (hr : ∀ reference ctx, KeepsDocuments documents (r reference ctx))
    (d : Document) : KeepsDocuments documents (compileDocument setup r d) := by
  refine (keepsDocuments_setPhase d.id .compiling).bind (fun _ => ?_)
  refine keepsDocuments_modifyWork_bind (fun _ => rfl) ?_
  exact (keepsDocuments_compileExports hr d d.exports).bind (fun _ => keepsDocuments_setPhase d.id .compiled)

theorem keepsDocuments_resolveOwn (hr : ∀ reference ctx, KeepsDocuments documents (r reference ctx)) (d : Document)
    (e : Export) : KeepsDocuments documents (resolveOwn setup r d e) := by
  refine keepsDocuments_getWork_bind (fun w => ?_)
  dsimp only
  split
  · exact keepsDocuments_pure _
  · split
    · exact keepsDocuments_pure _
    · exact (keepsDocuments_compileExport hr d e).bind (fun _ => keepsDocuments_pure _)

theorem keepsDocuments_resolveOther (hr : ∀ reference ctx, KeepsDocuments documents (r reference ctx))
    (source : String) (d : Document) (e : Export) : KeepsDocuments documents (resolveOther setup r source d e) := by
  refine keepsDocuments_modifyWork_bind (fun _ => rfl) ?_
  dsimp only
  split
  · refine (keepsDocuments_compileDocument hr d).bind (fun _ => ?_)
    exact keepsDocuments_modifyWork_bind (fun _ => rfl) (keepsDocuments_pure _)
  · exact keepsDocuments_modifyWork_bind (fun _ => rfl) (keepsDocuments_pure _)

theorem keepsDocuments_resolveWith (hr : ∀ reference ctx, KeepsDocuments documents (r reference ctx))
    (reference : String) (ctx : Context) : KeepsDocuments documents (resolveWith setup r reference ctx) := by
  refine keepsDocuments_getWork_bind (fun w => ?_)
  dsimp only
  split
  · exact keepsDocuments_throw _
  · split
    · split
      · exact keepsDocuments_pure _
      · exact keepsDocuments_throw _
    · split
      · exact keepsDocuments_resolveOwn hr _ _
      · exact keepsDocuments_resolveOther hr _ _ _

theorem keepsDocuments_resolve : ∀ (left : Nat) (reference : String) (ctx : Context),
    KeepsDocuments documents (resolve setup left reference ctx)
  | 0, _, _ => keepsDocuments_throw _
  | left + 1, reference, ctx => keepsDocuments_resolveWith (keepsDocuments_resolve left) reference ctx

theorem keepsDocuments_compileWaiting (hr : ∀ reference ctx, KeepsDocuments documents (r reference ctx)) :
    ∀ ids : List String, KeepsDocuments documents (compileWaiting setup r ids)
  | [] => keepsDocuments_pure ()
  | id :: rest => by
    refine keepsDocuments_getWork_bind (fun w => ?_)
    have hrest := keepsDocuments_compileWaiting hr rest
    split
    · split
      · exact (keepsDocuments_compileDocument hr _).bind (fun _ => hrest)
      · exact hrest
    · exact hrest

end

/-- **A compilation changes nothing of the documents but their phases**, whether it succeeds or fails. -/
theorem resetPhases_compile (p : Project) : p.compile.2.registry.resetPhases = p.registry.resetPhases := by
  have hall : KeepsDocuments p.registry.resetPhases (compileAll p.setup p.registry) :=
    (keepsDocuments_compileWaiting (keepsDocuments_resolve _) _).bind
      (fun _ => keepsDocuments_getWork_bind (fun _ => keepsDocuments_pure _))
  exact hall { patterns := PatternCache.empty, world := Work.start p.registry } p.registry.resetPhases_resetPhases

/-! ## Reached projects -/

section
variable (p : Project) (id : String) (node : Node) (wishes : Meta)

theorem setup_update : (p.update id node wishes).2.setup = p.setup := by
  unfold update
  split <;> rfl

theorem setup_remove : (p.remove id).2.setup = p.setup := by
  unfold remove
  split <;> rfl

theorem registry_update : (p.update id node wishes).2.registry = (p.registry.update id node wishes).2 := by
  unfold update
  split <;> simp_all

theorem registry_remove : (p.remove id).2.registry = (p.registry.remove id).2 := by
  unfold remove
  split <;> simp_all

end

/-- **The projects that operations lead to** from one without documents, whether these succeed or not. -/
inductive Reached : Project → Prop
  | new (setup : Setup) : Reached { setup := setup }
  | register {p : Project} (id : String) (node : Node) (wishes : Meta) :
    Reached p → Reached (p.register id node wishes).2
  | update {p : Project} (id : String) (node : Node) (wishes : Meta) : Reached p → Reached (p.update id node wishes).2
  | remove {p : Project} (id : String) : Reached p → Reached (p.remove id).2
  | clear {p : Project} : Reached p → Reached p.clear
  | compile {p : Project} : Reached p → Reached p.compile.2

theorem Reached.distinct {p : Project} (h : Reached p) : p.registry.Distinct := by
  induction h with
  | new setup => exact .nil
  | register id node wishes _ ih => exact ih.register id node wishes
  | @update p id node wishes _ ih => exact p.registry_update id node wishes ▸ ih.update id node wishes
  | @remove p id _ ih => exact p.registry_remove id ▸ ih.remove id
  | clear _ _ => exact .nil
  | @compile p _ ih => exact ih.congr (resetPhases_compile p)

end Project
end Valgen
