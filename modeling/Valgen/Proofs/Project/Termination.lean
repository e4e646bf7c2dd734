import Valgen.Proofs.Compile.Nesting
import Valgen.Proofs.Project.Outcome
/-!
# Proofs.Project.Termination — the compilation of a project ends

An export is compiled inside another only when it has not begun, and then it begins.  So the exports that have not begun
(`Work.unbegun`) bound the depth at which references are resolved: a resolver with a greater depth left answers every
reference (`Settles`, `resolve_settles`), and all greater depths answer alike.

Main result: `compilation_ends`.
-/
namespace Valgen
namespace Project

open Compile (CompileM Context EndsAlike Resolution Runs Session SessionAgrees Setup State ending endsAlike_pure
  endsAlike_throw faithful_standalone not_runs_throw runStandalone_ends runs_bind runs_pure standalone)
open Schema (Node Reference)

/-! ## Exports that have not begun -/

/-- **The exports of all documents**, each under the id of its document. -/
def slots (r : Registry) : List (String × Export) := r.flatMap (fun d => d.exports.map (fun e => (d.id, e)))

theorem length_slots (r : Registry) : (slots r).length = exportCount r := by
  induction r with
  | nil => rfl
  | cons d r ih =>
    unfold slots exportCount at ih ⊢
    rw [List.flatMap_cons, List.length_append, List.length_map, List.foldr_cons, ih]

/-- **The exports that have not begun.** -/
def Work.unbegun (w : Work) (r : Registry) : List (String × Export) :=
  (slots r).filter (fun slot => (w.cache.progress? slot.1 slot.2).isNone)

/-- **The documents are those of the registry, and at most so many exports have not begun.** -/
structure Budgeted (r : Registry) (left : Nat) (w : Work) : Prop where
  documents : ∀ x, w.document? x = (r.get? x).map Document.reset
  left : (w.unbegun r).length ≤ left

namespace Budgeted

variable {setup : Setup} {r : Registry} {left : Nat} {w w' : Work} {d : Document} {e : Export}

theorem congr (h : Budgeted r left w) (hdoc : ∀ x, w'.document? x = w.document? x)
    (hprogress : ∀ x f, w'.cache.progress? x f = w.cache.progress? x f) : Budgeted r left w' := by
  refine ⟨fun x => (hdoc x).trans (h.documents x), ?_⟩
  unfold Work.unbegun
  simp only [hprogress]
  exact h.left

theorem evolves {id : String} (h : Budgeted r left w) (hev : Evolves setup id w w') : Budgeted r left w' := by
  refine ⟨fun x => (hev.document?_eq x).trans (h.documents x), Nat.le_trans ?_ h.left⟩
  unfold Work.unbegun
  rw [← List.countP_eq_length_filter, ← List.countP_eq_length_filter]
  refine List.countP_mono_left (fun slot _ hnone => ?_)
  rcases hev.progress?_cases slot.1 slot.2 with hsame | ⟨hbefore, _⟩
  · rw [← hsame]
    exact hnone
  · rw [hbefore]
    rfl

theorem mem_slots (h : Budgeted r left w) (hd : w.document? d.id = some d.reset) (he : e ∈ d.exports) :
    (d.id, e) ∈ slots r := by
  rw [h.documents] at hd
  obtain ⟨found, hfound, heq⟩ := Option.map_eq_some_iff.1 hd
  have hid := Registry.id_of_get? hfound
  have hexports : found.exports = d.exports := show found.reset.exports = d.reset.exports by rw [heq]
  refine List.mem_flatMap.2 ⟨found, List.mem_of_find?_eq_some hfound, ?_⟩
  exact List.mem_map.2 ⟨e, hexports ▸ he, by rw [hid]⟩

/-- **An export that begins leaves one less.** -/
theorem beginExport (h : Budgeted r left w) (hd : w.document? d.id = some d.reset) (he : e ∈ d.exports)
    (hnone : w.cache.progress? d.id e = none) :
    ((w.beginExport d e).unbegun r).length < (w.unbegun r).length := by
  have hfilter : (w.beginExport d e).unbegun r = (w.unbegun r).filter (fun slot => slot != (d.id, e)) := by
    unfold Work.unbegun
    rw [List.filter_filter]
    refine List.filter_congr (fun slot _ => ?_)
    rw [Work.progress?_beginExport]
    by_cases hslot : slot = (d.id, e)
    · simp [hslot]
    · have hbne : (slot != (d.id, e)) = true := by simpa using hslot
      rw [if_neg hslot, hbne, Bool.true_and]
  rw [hfilter, List.length_filter_lt_length_iff_exists]
  refine ⟨(d.id, e), List.mem_filter.2 ⟨h.mem_slots hd he, ?_⟩, by simp⟩
  show (w.cache.progress? d.id e).isNone = true
  rw [hnone]
  rfl

end Budgeted

/-! ## Resolvers that settle -/

/-- **A document is under way, and fewer exports have not begun than there is depth left.** -/
structure Underway (setup : Setup) (r : Registry) (left : Nat) (id : String) (w : Work) : Prop where
  ready : Ready setup id w
  budgeted : Budgeted r left w
  less : (w.unbegun r).length < left

theorem Underway.evolves {setup : Setup} {r : Registry} {left : Nat} {id : String} {w w' : Work}
    (h : Underway setup r left id w) (hev : Evolves setup id w w') : Underway setup r left id w' := by
  have hexact : Budgeted r (w.unbegun r).length w := ⟨h.budgeted.documents, Nat.le_refl _⟩
  exact ⟨hev.ready h.ready, h.budgeted.evolves hev, Nat.lt_of_le_of_lt (hexact.evolves hev).left h.less⟩

/-- **Two resolvers answer every reference of a document under way, and alike.** -/
structure Settles (setup : Setup) (documents : Registry) (left : Nat) (r r' : Resolver) : Prop where
  ends : ∀ x reference ctx, ctx.document = some x → ∀ s : State Work, Underway setup documents left x s.world →
    EndsAlike (r reference ctx) (r' reference ctx) s
  evolves : ∀ x reference ctx, ctx.document = some x → ∀ (s : State Work) a t, Ready setup x s.world →
    Runs (r reference ctx) s a t → Evolves setup x s.world t.world
  faithful : ∀ reference ctx s pointer t, Runs (r reference ctx) s (.inline pointer) t →
    pointer = (Reference.parse reference).fragment

theorem endsAlike_modifyWork_bind {α : Type} {f : Work → Work} {g g' : Unit → ProjectM α} {s : State Work}
    (h : EndsAlike (g ()) (g' ()) { s with world := f s.world }) :
    EndsAlike (modifyWork f >>= g) (modifyWork f >>= g') s := by
  refine EndsAlike.bind ⟨rfl, fun hspent => nomatch hspent⟩ (fun a t hrun => ?_)
  rw [runs_modifyWork.1 hrun]
  exact h

theorem endsAlike_getWork_bind {α : Type} {g g' : Work → ProjectM α} {s : State Work}
    (h : EndsAlike (g s.world) (g' s.world) s) : EndsAlike (getWork >>= g) (getWork >>= g') s := by
  refine EndsAlike.bind ⟨rfl, fun hspent => nomatch hspent⟩ (fun w t hrun => ?_)
  obtain ⟨rfl, rfl⟩ := runs_getWork.1 hrun
  exact h

section
variable {setup : Setup} {documents : Registry} {left : Nat} {r r' : Resolver} {d : Document} {e : Export}

theorem Settles.follows (h : Settles setup documents left r r') (final : Work) (x reference : String) (ctx : Context)
    (hctx : ctx.document = some x) : Follows setup x final (r reference ctx) (r reference ctx) :=
  fun s a t hready hrun => ⟨h.evolves x reference ctx hctx s a t hready hrun, fun _ => hrun⟩

theorem Settles.agrees (h : Settles setup documents left r r') (d : Document) :
    SessionAgrees (ending (Underway setup documents left d.id)) (some d.id) (exportSession setup r d)
      (exportSession setup r' d) := by
  refine ⟨rfl, rfl, rfl, fun reference ctx hctx f f' hvalidator hinline s hs => ?_⟩
  have hkeep : ∀ a t, Runs (r reference ctx) s a t → Underway setup documents left d.id t.world :=
    fun a t hrun => hs.evolves (h.evolves d.id reference ctx hctx s a t hs.ready hrun)
  have hnext : ∀ a t, Runs (r reference ctx) s a t →
      EndsAlike (f a) (f' a) t ∧ ∀ b u, Runs (f a) t b u → Underway setup documents left d.id u.world := by
    intro a t hrun
    cases a with
    | validator v => exact hvalidator v t (hkeep _ t hrun)
    | inline pointer =>
      rw [h.faithful reference ctx s pointer t hrun]
      exact hinline t (hkeep _ t hrun)
  refine ⟨(h.ends d.id reference ctx hctx s hs).bind (fun a t hrun => (hnext a t hrun).1), fun b u hrun => ?_⟩
  obtain ⟨a, t, hfirst, hrest⟩ := runs_bind.1 hrun
  exact (hnext a t hfirst).2 b u hrest

theorem within_of_target? {target : Node} (h : d.target? e = some target) : d.node.Within target := by
  cases e with
  | root =>
    cases h
    exact Node.Within.refl _
  | named name =>
    obtain ⟨k, hk, hname⟩ := Option.bind_eq_some_iff.1 h
    cases hnode : d.node with
    | bool value =>
      rw [hnode] at hk
      cases hk
    | object keywords =>
      rw [hnode] at hk
      cases hk
      exact Node.within_of_definition? hname

theorem exportBody_ends (h : Settles setup documents left r r') {s : State Work}
    (hw : Underway setup documents left d.id s.world) {target : Node} (htarget : d.target? e = some target) :
    EndsAlike (exportBody setup r d e target) (exportBody setup r' d e target) s := by
  cases e with
  | root => exact (Session.compile_agrees (h.agrees d) [""] (Node.Within.refl d.node) _ rfl s hw).1
  | named name => exact (Session.compile_agrees (h.agrees d) [] (within_of_target? htarget) _ rfl s hw).1

/-- **An export that has not begun is compiled to an end**: one less is left inside. -/
theorem compileFresh_ends (h : Settles setup documents left r r') {s : State Work} (hready : Ready setup d.id s.world)
    (hbudget : Budgeted documents left s.world) (hd : s.world.document? d.id = some d.reset) (he : e ∈ d.exports)
    (hnone : s.world.cache.progress? d.id e = none) :
    EndsAlike (compileFresh setup r d e) (compileFresh setup r' d e) s := by
  unfold compileFresh
  cases htarget : d.target? e with
  | none => exact endsAlike_throw Error.noConfusion s
  | some target =>
    have hless := hbudget.beginExport hd he hnone
    have hbegun : Underway setup documents left d.id (s.world.beginExport d e) := by
      refine ⟨⟨hready.compiling, ?_⟩, ⟨hbudget.documents, ?_⟩, Nat.lt_of_lt_of_le hless hbudget.left⟩
      · exact Consistent.beginExport (d := d.reset) hready.consistent hd hready.compiling he hnone
      · exact Nat.le_trans (Nat.le_of_lt hless) hbudget.left
    have hbody := exportBody_ends h (s := { s with world := s.world.beginExport d e }) hbegun htarget
    refine endsAlike_modifyWork_bind ?_
    cases e <;>
      exact hbody.bind (fun v t _ => endsAlike_modifyWork_bind ⟨rfl, fun hspent => nomatch hspent⟩)

theorem compileExport_ends (h : Settles setup documents left r r') {s : State Work} (hready : Ready setup d.id s.world)
    (hbudget : Budgeted documents left s.world) (hd : s.world.document? d.id = some d.reset) (he : e ∈ d.exports)
    (hidle : ¬ s.world.cache.isCompiling d.id e = true) :
    EndsAlike (compileExport setup r d e) (compileExport setup r' d e) s := by
  unfold compileExport
  refine endsAlike_getWork_bind ?_
  cases hget : s.world.cache.get? d.id e with
  | some v => exact endsAlike_pure _ s
  | none => exact compileFresh_ends h hready hbudget hd he (Cache.progress?_eq_none_of hget hidle)

theorem compileExports_ends (h : Settles setup documents left r r') : ∀ (es : List Export) {s : State Work},
    Ready setup d.id s.world → Budgeted documents left s.world → s.world.document? d.id = some d.reset →
      (∀ e ∈ es, e ∈ d.exports) → (∀ e, ¬ s.world.cache.isCompiling d.id e = true) →
      EndsAlike (compileExports setup r d es) (compileExports setup r' d es) s
  | [], s, _, _, _, _, _ => endsAlike_pure _ s
  | e :: rest, s, hready, hbudget, hd, hes, hidle => by
    have hfirst := compileExport_ends h hready hbudget hd (hes e List.mem_cons_self) (hidle e)
    refine hfirst.bind (fun _ t hrun => ?_)
    -- The first export alone is a list of exports, so that its run is known to be an evolution.
    have hone : Runs (compileExports setup r d [e]) s () t :=
      runs_compileExports_cons.2 ⟨t, hrun, runs_compileExports_nil.2 rfl⟩
    have hev := (compileExports_follows (h.follows s.world d.id) [e] hready hd
      (fun f hf => hes f (List.mem_singleton.1 hf ▸ List.mem_cons_self)) hidle hone).1
    refine compileExports_ends h rest (hev.ready hready) (hbudget.evolves hev) ?_
      (fun f hf => hes f (List.mem_cons_of_mem _ hf)) (fun f => ?_)
    · rw [hev.document?_eq, hd]
    · rw [hev.isCompiling_eq]
      exact hidle f

/-- **A document that waits is compiled to an end.** -/
theorem compileDocument_ends (h : Settles setup documents left r r') {s : State Work}
    (hcons : Consistent setup s.world) (hbudget : Budgeted documents left s.world)
    (hd : s.world.document? d.id = some d.reset) (hreg : s.world.phase? d.id = some .registered) :
    EndsAlike (compileDocument setup r d) (compileDocument setup r' d) s := by
  have hready : Ready setup d.id (s.world.openDocument d) :=
    ⟨phase?_openDocument_self hreg, Consistent.openDocument (d := d.reset) hcons hd hreg⟩
  have hopen : Budgeted documents left (s.world.openDocument d) := hbudget.congr (fun x => by simp) (fun _ _ => rfl)
  have hexports := compileExports_ends h d.exports (s := { s with world := s.world.openDocument d }) hready hopen
    (by rw [Work.document?_openDocument, hd]) (fun _ he => he) (hcons.idle_openDocument hreg)
  unfold compileDocument
  refine endsAlike_modifyWork_bind (endsAlike_modifyWork_bind ?_)
  exact hexports.bind (fun _ t _ => ⟨rfl, fun hspent => nomatch hspent⟩)

theorem resolveOwn_ends (h : Settles setup documents left r r') {s : State Work} (hready : Ready setup d.id s.world)
    (hbudget : Budgeted documents left s.world) (hd : s.world.document? d.id = some d.reset) (he : e ∈ d.exports) :
    EndsAlike (resolveOwn setup r d e) (resolveOwn setup r' d e) s := by
  unfold resolveOwn
  refine endsAlike_getWork_bind ?_
  simp only
  split_ifs with hsome hcompiling
  · exact endsAlike_pure _ s
  · exact endsAlike_pure _ s
  · exact (compileExport_ends h hready hbudget hd he hcompiling).bind (fun _ t _ => endsAlike_pure _ t)

theorem resolveOther_ends (h : Settles setup documents left r r') {source : String} {s : State Work}
    (hready : Ready setup source s.world) (hbudget : Budgeted documents left s.world)
    (hd : s.world.registry.get? d.id = some d) :
    EndsAlike (resolveOther setup r source d e) (resolveOther setup r' source d e) s := by
  unfold resolveOther
  refine endsAlike_modifyWork_bind ?_
  by_cases hreg : (d.phase == .registered) = true
  · have hphase := Work.phase?_of_get? hd
    rw [beq_iff_eq.1 hreg] at hphase
    have himported : Budgeted documents left (s.world.addImport source d) :=
      hbudget.congr (fun _ => rfl) (fun _ _ => rfl)
    have hvisit := compileDocument_ends h (s := { s with world := s.world.addImport source d })
      (hready.consistent.addImport source d) himported (Work.document?_of_get? hd) hphase
    simp only [if_pos hreg]
    exact hvisit.bind (fun _ t _ => endsAlike_modifyWork_bind (endsAlike_pure _ _))
  · simp only [if_neg hreg]
    exact endsAlike_modifyWork_bind (endsAlike_pure _ _)

theorem resolveWith_ends (h : Settles setup documents left r r') {source reference : String} {ctx : Context}
    (hctx : ctx.document = some source) {s : State Work} (hready : Ready setup source s.world)
    (hbudget : Budgeted documents left s.world) :
    EndsAlike (resolveWith setup r reference ctx) (resolveWith setup r' reference ctx) s := by
  have hsource : ctx.document.getD "" = source := by rw [hctx]; rfl
  unfold resolveWith
  refine endsAlike_getWork_bind ?_
  simp only [hsource]
  cases hd : s.world.registry.get? (if (Reference.parse reference).document.isEmpty = true then source
      else (Reference.parse reference).document) with
  | none => exact endsAlike_throw Error.noConfusion s
  | some d =>
    simp only
    have hid := Registry.id_of_get? hd
    cases hexport : exportOf? d (Reference.parse reference).fragment with
    | none =>
      simp only
      split_ifs with hown
      · exact endsAlike_pure _ s
      · exact endsAlike_throw Error.noConfusion s
    | some e =>
      simp only
      split_ifs with hown
      · subst hown
        exact resolveOwn_ends h hready hbudget (hid ▸ Work.document?_of_get? hd) (mem_exports_of_exportOf? hexport)
      · exact resolveOther_ends h hready hbudget (hid ▸ hd)

end

theorem faithful_resolveWith {setup : Setup} {r : Resolver} {reference : String} {ctx : Context} {s t : State Work}
    {pointer : String} (h : Runs (resolveWith setup r reference ctx) s (.inline pointer) t) :
    pointer = (Reference.parse reference).fragment := by
  unfold resolveWith at h
  simp only [runs_getWork_bind] at h
  split at h
  · exact absurd h not_runs_throw
  · split at h
    · split_ifs at h
      · cases (runs_pure.1 h).1
        rfl
      · exact absurd h not_runs_throw
    · split_ifs at h
      · rcases runs_resolveOwn.1 h with ⟨_, ha, _⟩ | ⟨_, _, ha, _⟩ | ⟨_, _, ha, _⟩ <;> cases ha
      · obtain ⟨_, _, _, ha⟩ := runs_resolveOther.1 h
        cases ha

theorem faithful_resolve (setup : Setup) (left : Nat) (reference : String) (ctx : Context) (s : State Work)
    (pointer : String) (t : State Work) (h : Runs (resolve setup left reference ctx) s (.inline pointer) t) :
    pointer = (Reference.parse reference).fragment := by
  cases left with
  | zero => exact absurd h not_runs_throw
  | succ left => exact faithful_resolveWith h

/-- **A resolver with more depth left than exports have not begun answers every reference**, whatever depth is left. -/
theorem resolve_settles (setup : Setup) (documents : Registry) : ∀ left left' : Nat, left ≤ left' →
    Settles setup documents left (resolve setup left) (resolve setup left')
  | 0, _, _ => by
    refine ⟨fun x reference ctx _ s hw => absurd hw.less (Nat.not_lt_zero _), ?_, faithful_resolve setup 0⟩
    intro x reference ctx _ s a t _ hrun
    exact absurd hrun not_runs_throw
  | left + 1, 0, h => absurd h (Nat.not_succ_le_zero _)
  | left + 1, left' + 1, h => by
    have hinner := resolve_settles setup documents left left' (Nat.le_of_succ_le_succ h)
    refine ⟨fun x reference ctx hctx s hw => ?_, fun x reference ctx hctx s a t hready hrun => ?_,
      faithful_resolve setup (left + 1)⟩
    · exact resolveWith_ends hinner hctx hw.ready ⟨hw.budgeted.documents, Nat.le_of_lt_succ hw.less⟩
    · exact (resolveWith_follows (hinner.follows s.world) hctx hready hrun).1

/-! ## Whole projects -/

theorem Budgeted.finishes {setup : Setup} {r : Registry} {left : Nat} {w w' : Work} (h : Budgeted r left w)
    (hfin : Finishes setup w w') : Budgeted r left w' := by
  induction hfin with
  | refl => exact h
  | visit _ _ hrun _ _ ih =>
    have hopen := (h.congr (fun x => Work.document?_openDocument _ x _) (fun _ _ => rfl)).evolves hrun
    exact ih (hopen.congr (fun x => Work.document?_closeDocument _ x _) (fun _ _ => rfl))

theorem compileWaiting_ends {setup : Setup} {documents : Registry} {left : Nat} {r r' : Resolver}
    (h : Settles setup documents left r r') : ∀ (ids : List String) {s : State Work}, Consistent setup s.world →
      Budgeted documents left s.world → EndsAlike (compileWaiting setup r ids) (compileWaiting setup r' ids) s
  | [], s, _, _ => endsAlike_pure _ s
  | id :: rest, s, hcons, hbudget => by
    have hrest : ∀ t, RunsTurn setup r id s t →
        EndsAlike (compileWaiting setup r rest) (compileWaiting setup r' rest) t := by
      intro t hturn
      obtain ⟨hfin, _, _⟩ := runsTurn_follows (h.follows s.world) hcons hturn
      exact compileWaiting_ends h rest (hfin.consistent hcons) (hbudget.finishes hfin)
    unfold RunsTurn at hrest
    unfold compileWaiting
    refine endsAlike_getWork_bind ?_
    cases hd : s.world.registry.get? id with
    | none =>
      simp only [hd] at hrest
      exact (endsAlike_pure () s).bind (fun _ t hrun => hrest t (runs_pure.1 hrun).2.symm)
    | some d =>
      simp only [hd] at hrest
      obtain rfl := Registry.id_of_get? hd
      by_cases hreg : d.phase = .registered
      · have hbeq : (d.phase == .registered) = true := by simpa using hreg
        have hphase := Work.phase?_of_get? hd
        rw [hreg] at hphase
        have hturn := compileDocument_ends h hcons hbudget (Work.document?_of_get? hd) hphase
        simp only [if_pos hbeq]
        exact hturn.bind (fun _ t hrun => hrest t (by rw [if_pos hreg]; exact hrun))
      · have hbeq : ¬ (d.phase == .registered) = true := by simpa using hreg
        simp only [if_neg hbeq]
        refine (endsAlike_pure () s).bind (fun _ t hrun => hrest t ?_)
        rw [if_neg hreg]
        exact (runs_pure.1 hrun).2.symm

theorem budgeted_start (r : Registry) : Budgeted r (exportCount r) (Work.start r) := by
  refine ⟨document?_start r, ?_⟩
  rw [← length_slots]
  exact List.length_filter_le _ _

/-- **The compilation of a project spends no budget**, and more depth changes nothing. -/
theorem compile_ends (p : Project) : p.compile.1 ≠ .error .budgetSpent ∧
    ∀ left, exportCount p.registry < left → p.compileBy (resolve p.setup left) = p.compile := by
  have hbudget : Budgeted p.registry (exportCount p.registry + 1) (Work.start p.registry) :=
    ⟨(budgeted_start p.registry).documents, Nat.le_succ_of_le (budgeted_start p.registry).left⟩
  have hends : ∀ left, exportCount p.registry < left → EndsAlike
      (do compileWaiting p.setup (resolve p.setup (exportCount p.registry + 1)) (p.registry.map (fun d => d.id))
          return (← getWork).output : ProjectM Output)
      (do compileWaiting p.setup (resolve p.setup left) (p.registry.map (fun d => d.id))
          return (← getWork).output : ProjectM Output)
      { patterns := PatternCache.empty, world := Work.start p.registry } := by
    intro left hleft
    have hsettles := resolve_settles p.setup p.registry (exportCount p.registry + 1) left hleft
    refine (compileWaiting_ends hsettles _ (consistent_start p.setup p.registry) hbudget).bind (fun _ t _ => ?_)
    exact endsAlike_getWork_bind (endsAlike_pure _ t)
  refine ⟨(hends _ (Nat.lt_succ_self _)).2, fun left hleft => ?_⟩
  rw [compile_eq_compileBy]
  unfold compileBy
  rw [(hends left hleft).1]

theorem faithful_exportSession (setup : Setup) (left : Nat) (d : Document) :
    (exportSession setup (resolve setup left) d).Faithful := faithful_resolve setup left

/-- **Every compilation ends**, whatever the references are.  A document that stands alone and a project are compiled
without spending a budget, and greater ones change nothing; in every session no more expansions are nested in each other
than there are distinct keys among its references. -/
theorem compilation_ends (setup : Setup) (root : Node) (p : Project) :
    (∀ patterns, (Compile.runStandalone setup root patterns).1 ≠ .error .budgetSpent) ∧
    (standalone setup root).EndsWithin (standalone setup root).keys.length ∧
    p.compile.1 ≠ .error .budgetSpent ∧
    (∀ left, exportCount p.registry < left → p.compileBy (resolve p.setup left) = p.compile) ∧
    ∀ d left, (exportSession p.setup (resolve p.setup left) d).EndsWithin
      (exportSession p.setup (resolve p.setup left) d).keys.length := by
  obtain ⟨hends, hsame⟩ := compile_ends p
  refine ⟨runStandalone_ends setup root, (faithful_standalone setup root).endsWithin, hends, hsame, fun d left => ?_⟩
  exact (faithful_exportSession p.setup left d).endsWithin

end Project
end Valgen
