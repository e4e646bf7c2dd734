import Valgen.Proofs.Compile.Sessions
import Valgen.Proofs.Project.Consistency
import Valgen.Proofs.Project.Runs
/-!
# Proofs.Project.Guard — every compilation is an evolution, and can be watched

A resolver may be watched: `guarded check r` answers as `r` does, but fails where what it would hand out does not pass
the check, which sees the work at that moment.  A compilation by a guarded resolver that has the same outcome is one in
which everything a reference was answered with has passed.

`Follows setup id final m m'` says of two computations for the document `id` that a successful run of the first is an
evolution of the work, and that the second runs alike as long as the work still grows into `final`.  All that sessions
do keeps it, hence it holds of the resolver and the guarded one if the answers pass (`resolve_follows`).
-/
namespace Valgen
namespace Project

open Compile (CompileM Context Resolution Runs Session SessionRelated Setup Simulation State not_runs_throw runs_bind
  runs_pure world_of_runs_applyRules)
open Schema (Node Reference)

/-! ## Watching the resolver -/

open scoped Classical in
/-- **A resolver that hands out only what passes a check**, which sees the work when the answer is made. -/
noncomputable def guarded (check : Work → String → Context → Validator → Prop) (r : Resolver) : Resolver :=
    fun reference ctx => do
  let answer ← r reference ctx
  let w ← getWork
  match answer with
  | .inline pointer => return .inline pointer
  | .validator v => if check w reference ctx v then return .validator v else throw .budgetSpent

/-- **A guarded resolver answers where the resolver does and what it hands out passes.** -/
theorem runs_guarded {check : Work → String → Context → Validator → Prop} {r : Resolver} {reference : String}
    {ctx : Context} {s t : State Work} {a : Resolution} : Runs (guarded check r reference ctx) s a t ↔
      Runs (r reference ctx) s a t ∧ ∀ v, a = .validator v → check t.world reference ctx v := by
  unfold guarded
  rw [runs_bind]
  constructor
  · rintro ⟨answer, u, hrun, hrest⟩
    rw [runs_getWork_bind] at hrest
    cases answer with
    | inline pointer =>
      obtain ⟨rfl, rfl⟩ := runs_pure.1 hrest
      exact ⟨hrun, fun v hv => Resolution.noConfusion hv⟩
    | validator v =>
      by_cases hcheck : check u.world reference ctx v
      · simp only [if_pos hcheck] at hrest
        obtain ⟨rfl, rfl⟩ := runs_pure.1 hrest
        refine ⟨hrun, fun v' hv => ?_⟩
        cases hv
        exact hcheck
      · simp only [if_neg hcheck] at hrest
        exact absurd hrest not_runs_throw
  · rintro ⟨hrun, hpass⟩
    refine ⟨a, t, hrun, runs_getWork_bind.2 ?_⟩
    cases a with
    | inline pointer => exact runs_pure.2 ⟨rfl, rfl⟩
    | validator v =>
      simp only [if_pos (hpass v rfl)]
      exact runs_pure.2 ⟨rfl, rfl⟩

/-- **The resolver of a compilation, guarded at every depth.** -/
noncomputable def resolveGuarded (check : Work → String → Context → Validator → Prop) (setup : Setup) : Nat → Resolver
  | 0 => fun _ _ => throw .budgetSpent
  | left + 1 => guarded check (resolveWith setup (resolveGuarded check setup left))

/-- **A check that everything passes changes nothing.** -/
theorem guarded_eq {check : Work → String → Context → Validator → Prop}
    (hpass : ∀ w reference ctx v, check w reference ctx v) (r : Resolver) : guarded check r = r := by
  funext reference ctx
  unfold guarded
  conv => rhs; rw [← bind_pure (r reference ctx)]
  congr 1
  funext answer
  refine ExceptT.ext (StateT.ext (fun s => ?_))
  show (getWork >>= _).run.run s = _
  rw [run_getWork_bind]
  cases answer with
  | inline pointer => rfl
  | validator v =>
    simp only [if_pos (hpass s.world reference ctx v)]

theorem resolveGuarded_eq {check : Work → String → Context → Validator → Prop}
    (hpass : ∀ w reference ctx v, check w reference ctx v) (setup : Setup) : ∀ left : Nat,
    resolveGuarded check setup left = resolve setup left
  | 0 => rfl
  | left + 1 => by
    unfold resolveGuarded resolve
    rw [guarded_eq hpass, resolveGuarded_eq hpass setup left]

/-- **The compilation of a project by a given resolver.** -/
def compileBy (p : Project) (resolver : Resolver) : Except Error Output × Project :=
  let (outcome, state) := (do
    compileWaiting p.setup resolver (p.registry.map (fun d => d.id))
    return (← getWork).output : ProjectM Output).run.run
      { patterns := PatternCache.empty, world := Work.start p.registry }
  let w := state.world
  (outcome, { p with registry := w.registry, cache := w.cache, graph := w.graph, patterns := state.patterns })

theorem compile_eq_compileBy (p : Project) :
    p.compile = p.compileBy (resolve p.setup (exportCount p.registry + 1)) := rfl

/-- **The compilation of a project in which a reference that fails a check is refused.** -/
noncomputable def compileGuarded (p : Project) (check : Work → String → Context → Validator → Prop) :
    Except Error Output × Project :=
  p.compileBy (resolveGuarded check p.setup (exportCount p.registry + 1))

/-! ## Answers -/

/-- **The document a reference leads to.** -/
def targetOf (reference source : String) : String :=
  if (Reference.parse reference).document.isEmpty then source else (Reference.parse reference).document

/-- **What a reference from a document to an export is answered with**: the name of an export of the document itself if
it is compiled, that name for later if it is under way, or the name of an export of another document, with an edge. -/
inductive Answers (w : Work) (source : String) (d : Document) (e : Export) : Validator → Prop
  | compiled : d.id = source → (w.cache.get? source e).isSome → Answers w source d e (Validator.reference (d.binding e))
  | underWay : d.id = source → w.cache.isCompiling source e = true → Answers w source d e (Validator.lazy (d.binding e))
  | other (deferred : Bool) : d.id ≠ source → ⟨source, d.id, e.name?, deferred⟩ ∈ w.graph.edges →
    Answers w source d e (if deferred then Validator.lazy (d.importName ++ "." ++ d.binding e)
      else Validator.reference (d.importName ++ "." ++ d.binding e))

/-- **A check that every answer passes** on the way to the final work. -/
def Passes (setup : Setup) (final : Work) (check : Work → String → Context → Validator → Prop) : Prop :=
  ∀ w reference ctx source d e v, ctx.document = some source → Ready setup source w → Grows w final →
    w.document? (targetOf reference source) = some d → exportOf? d (Reference.parse reference).fragment = some e →
    Answers w source d e v → check w reference ctx v

/-- **The export a pointer names is one of the document.** -/
theorem mem_exports_of_exportOf? {d : Document} {fragment : String} {e : Export} (h : exportOf? d fragment = some e) :
    e ∈ d.exports := by
  unfold exportOf? at h
  split at h
  · cases h
    exact List.mem_cons_self
  · split at h
    · rename_i name _
      split at h
      · rename_i hexport
        cases h
        exact List.mem_cons_of_mem _ (List.mem_map_of_mem (List.contains_iff_mem.1 hexport))
      · cases h
    · cases h

/-! ## Following -/

/-- **A successful run is an evolution, and another computation runs alike** as long as the work grows into `final`. -/
def Follows (setup : Setup) (id : String) (final : Work) {α : Type} (m m' : ProjectM α) : Prop :=
  ∀ s a t, Ready setup id s.world → Runs m s a t →
    Evolves setup id s.world t.world ∧ (Grows t.world final → Runs m' s a t)

/-- **Following is kept by all that sessions do.** -/
def following (setup : Setup) (id : String) (final : Work) : Simulation Work Work where
  rel m m' := Follows setup id final m m'
  result a := by
    intro s b t _ hrun
    obtain ⟨_, rfl⟩ := runs_pure.1 hrun
    exact ⟨.refl id s.world, fun _ => hrun⟩
  failure e := by
    intro s b t _ hrun
    exact absurd hrun not_runs_throw
  sequence := by
    intro α β m m' f f' hm hf s b t hready hrun
    obtain ⟨a, u, hrun₁, hrun₂⟩ := runs_bind.1 hrun
    obtain ⟨hev₁, hsame₁⟩ := hm s a u hready hrun₁
    obtain ⟨hev₂, hsame₂⟩ := hf a u b t (hev₁.ready hready) hrun₂
    refine ⟨hev₁.trans hev₂, fun hgrows => ?_⟩
    exact runs_bind.2 ⟨a, u, hsame₁ (hev₂.grows.trans hgrows), hsame₂ hgrows⟩
  rules rules ctx v := by
    intro s b t _ hrun
    rw [world_of_runs_applyRules hrun]
    exact ⟨.refl id s.world, fun _ => hrun⟩

section
variable {setup : Setup} {final : Work} {r r' : Resolver} {d : Document} {e : Export}

theorem exportBody_follows (target : Node)
    (hr : ∀ reference ctx, ctx.document = some d.id → Follows setup d.id final (r reference ctx) (r' reference ctx)) :
    Follows setup d.id final (exportBody setup r d e target) (exportBody setup r' d e target) := by
  have hsession : SessionRelated (following setup d.id final) (some d.id) (exportSession setup r d)
      (exportSession setup r' d) := ⟨rfl, rfl, rfl, hr⟩
  have hctx : (exportContext setup d e).document = some d.id := by cases e <;> rfl
  cases e with
  | root => exact Session.compileRoot_related hsession _ hctx
  | named name => exact Session.compile_related hsession [] target _ hctx

/-- **An export that has not begun is compiled.** -/
theorem compileFresh_follows
    (hr : ∀ reference ctx, ctx.document = some d.id → Follows setup d.id final (r reference ctx) (r' reference ctx))
    {s t : State Work} {a : Unit} (hready : Ready setup d.id s.world) (hd : s.world.document? d.id = some d.reset)
    (he : e ∈ d.exports) (hnone : s.world.cache.progress? d.id e = none)
    (hrun : Runs (compileFresh setup r d e) s a t) :
    Evolves setup d.id s.world t.world ∧ (t.world.cache.get? d.id e).isSome ∧
      (Grows t.world final → Runs (compileFresh setup r' d e) s a t) := by
  obtain ⟨target, v, u, htarget, hbody, rfl⟩ := runs_compileFresh.1 hrun
  have hbegun : Ready setup d.id (s.world.beginExport d e) :=
    ⟨hready.compiling, Consistent.beginExport (d := d.reset) hready.consistent hd hready.compiling he hnone⟩
  obtain ⟨hev, hsame⟩ := exportBody_follows target hr _ v u hbegun hbody
  refine ⟨Evolves.fresh (d := d.reset) v hd hready.compiling he hnone hev, ?_, fun hgrows => ?_⟩
  · rw [Consistent.get?_finishExport, if_pos rfl]
    rfl
  · exact runs_compileFresh.2 ⟨target, v, u, htarget, hsame ((Grows.finishExport _ _ _ _ v).trans hgrows), rfl⟩

/-- **The exports of a document are compiled one after another**, where none of them is under way. -/
theorem compileExports_follows
    (hr : ∀ reference ctx, ctx.document = some d.id → Follows setup d.id final (r reference ctx) (r' reference ctx)) :
    ∀ (es : List Export) {s t : State Work} {a : Unit}, Ready setup d.id s.world →
      s.world.document? d.id = some d.reset → (∀ e ∈ es, e ∈ d.exports) →
      (∀ e, ¬ s.world.cache.isCompiling d.id e = true) → Runs (compileExports setup r d es) s a t →
      Evolves setup d.id s.world t.world ∧ (∀ e ∈ es, (t.world.cache.get? d.id e).isSome) ∧
        (Grows t.world final → Runs (compileExports setup r' d es) s a t)
  | [], s, t, a, _, _, _, _, hrun => by
    obtain rfl := runs_compileExports_nil.1 hrun
    exact ⟨.refl _ _, fun e he => absurd he List.not_mem_nil, fun _ => runs_compileExports_nil.2 rfl⟩
  | e :: rest, s, t, a, hready, hd, hes, hidle, hrun => by
    obtain ⟨u, hfirst, hrest⟩ := runs_compileExports_cons.1 hrun
    have hstep : Evolves setup d.id s.world u.world ∧ (u.world.cache.get? d.id e).isSome ∧
        (Grows u.world final → Runs (compileExport setup r' d e) s () u) := by
      rcases runs_compileExport.1 hfirst with ⟨hsome, rfl⟩ | ⟨hget, hfresh⟩
      · exact ⟨.refl _ _, hsome, fun _ => runs_compileExport.2 (.inl ⟨hsome, rfl⟩)⟩
      · have hnone := Cache.progress?_eq_none_of hget (hidle e)
        obtain ⟨hev, hsome, hsame⟩ := compileFresh_follows hr hready hd (hes e List.mem_cons_self) hnone hfresh
        exact ⟨hev, hsome, fun hgrows => runs_compileExport.2 (.inr ⟨hget, hsame hgrows⟩)⟩
    obtain ⟨hev₁, hsome, hsame₁⟩ := hstep
    have hd' : u.world.document? d.id = some d.reset := by rw [hev₁.document?_eq, hd]
    -- What is under way stays the same, so there is still nothing of the document under way.
    have hidle' : ∀ e, ¬ u.world.cache.isCompiling d.id e = true := by
      intro f
      rw [hev₁.isCompiling_eq]
      exact hidle f
    obtain ⟨hev₂, hall, hsame₂⟩ := compileExports_follows hr rest (hev₁.ready hready) hd'
      (fun f hf => hes f (List.mem_cons_of_mem _ hf)) hidle' hrest
    refine ⟨hev₁.trans hev₂, fun f hf => ?_, fun hgrows => ?_⟩
    · rcases List.mem_cons.1 hf with rfl | hf'
      · obtain ⟨v, hv⟩ := Option.isSome_iff_exists.1 hsome
        rw [hev₂.get?_of_get? hv]
        rfl
      · exact hall f hf'
    · exact runs_compileExports_cons.2 ⟨u, hsame₁ (hev₂.grows.trans hgrows), hsame₂ hgrows⟩

/-- **A document that waits is compiled**, with all its exports. -/
theorem compileDocument_follows
    (hr : ∀ reference ctx, ctx.document = some d.id → Follows setup d.id final (r reference ctx) (r' reference ctx))
    {s t : State Work} {a : Unit} (hcons : Consistent setup s.world) (hd : s.world.document? d.id = some d.reset)
    (hreg : s.world.phase? d.id = some .registered) (hrun : Runs (compileDocument setup r d) s a t) :
    ∃ w, Evolves setup d.id (s.world.openDocument d.reset) w ∧ (∀ f ∈ d.exports, (w.cache.get? d.id f).isSome) ∧
      t.world = w.closeDocument d.reset ∧ (Grows t.world final → Runs (compileDocument setup r' d) s a t) := by
  obtain ⟨u, hexports, rfl⟩ := runs_compileDocument.1 hrun
  have hready : Ready setup d.id (s.world.openDocument d) :=
    ⟨phase?_openDocument_self hreg, Consistent.openDocument (d := d.reset) hcons hd hreg⟩
  have hd' : (s.world.openDocument d).document? d.id = some d.reset := by rw [Work.document?_openDocument, hd]
  obtain ⟨hev, hall, hsame⟩ := compileExports_follows hr d.exports (s := { s with world := s.world.openDocument d })
    hready hd' (fun _ he => he) (hcons.idle_openDocument hreg) hexports
  refine ⟨u.world, hev, hall, rfl, fun hgrows => ?_⟩
  exact runs_compileDocument.2 ⟨u, hsame ((Grows.closeDocument _ _).trans hgrows), rfl⟩

/-- **A reference to an export of the document itself.** -/
theorem resolveOwn_follows
    (hr : ∀ reference ctx, ctx.document = some d.id → Follows setup d.id final (r reference ctx) (r' reference ctx))
    {s t : State Work} {a : Resolution} (hready : Ready setup d.id s.world)
    (hd : s.world.document? d.id = some d.reset) (he : e ∈ d.exports) (hrun : Runs (resolveOwn setup r d e) s a t) :
    Evolves setup d.id s.world t.world ∧ (∃ v, a = .validator v ∧ Answers t.world d.id d.reset e v) ∧
      (Grows t.world final → Runs (resolveOwn setup r' d e) s a t) := by
  rcases runs_resolveOwn.1 hrun with ⟨hsome, rfl, rfl⟩ | ⟨hget, hcompiling, rfl, rfl⟩ | ⟨hget, hnone, rfl, hfresh⟩
  · refine ⟨.refl _ _, ⟨_, rfl, Answers.compiled (d := d.reset) rfl hsome⟩, fun _ => ?_⟩
    exact runs_resolveOwn.2 (.inl ⟨hsome, rfl, rfl⟩)
  · refine ⟨.refl _ _, ⟨_, rfl, Answers.underWay (d := d.reset) rfl hcompiling⟩, fun _ => ?_⟩
    exact runs_resolveOwn.2 (.inr (.inl ⟨hget, hcompiling, rfl, rfl⟩))
  · obtain ⟨hev, hsome, hsame⟩ := compileFresh_follows hr hready hd he hnone hfresh
    refine ⟨hev, ⟨_, rfl, Answers.compiled (d := d.reset) rfl hsome⟩, fun hgrows => ?_⟩
    exact runs_resolveOwn.2 (.inr (.inr ⟨hget, hnone, rfl, hsame hgrows⟩))

/-- **A reference to an export of another document.** -/
theorem resolveOther_follows {source : String}
    (hr : ∀ reference ctx, ctx.document = some d.id → Follows setup d.id final (r reference ctx) (r' reference ctx))
    {s t : State Work} {a : Resolution} (hready : Ready setup source s.world) (hd : s.world.registry.get? d.id = some d)
    (hne : d.id ≠ source) (he : e ∈ d.exports) (hrun : Runs (resolveOther setup r source d e) s a t) :
    Evolves setup source s.world t.world ∧ (∃ v, a = .validator v ∧ Answers t.world source d.reset e v) ∧
      (Grows t.world final → Runs (resolveOther setup r' source d e) s a t) := by
  obtain ⟨u, hvisit, rfl, rfl⟩ := runs_resolveOther.1 hrun
  have hdoc := Work.document?_of_get? hd
  have hphase := Work.phase?_of_get? hd
  -- Whatever happened before, the edge is recorded last.
  have hanswer : Answers (u.world.addEdge ⟨source, d.id, e.name?, d.phase == .compiling⟩) source d.reset e
      (if d.phase == .compiling then Validator.lazy (d.importName ++ "." ++ d.binding e)
        else Validator.reference (d.importName ++ "." ++ d.binding e)) :=
    Answers.other (d := d.reset) (d.phase == .compiling) hne (Graph.mem_edges_addEdge.2 (.inr rfl))
  have hevolves : Evolves setup source s.world (u.world.addEdge ⟨source, d.id, e.name?, d.phase == .compiling⟩) ∧
      (Grows u.world final → RunsVisit setup r' source d s u) := by
    unfold RunsVisit at hvisit ⊢
    cases hp : d.phase with
    | registered =>
      rw [hp] at hphase
      rw [if_pos hp] at hvisit
      obtain ⟨w, hev, hall, hw, hsame⟩ := compileDocument_follows hr
        (s := { s with world := s.world.addImport source d }) (hready.consistent.addImport source d) hdoc hphase hvisit
      rw [hw]
      refine ⟨Evolves.visit (d := d.reset) hready.compiling hdoc hne he hphase hev hall, fun hgrows => ?_⟩
      rw [if_pos rfl]
      exact hsame (hw ▸ hgrows)
    | compiling =>
      rw [hp] at hphase
      rw [if_neg (by rw [hp]; decide)] at hvisit
      rw [if_neg (by decide), hvisit]
      exact ⟨Evolves.known (d := d.reset) true hready.compiling hdoc hne he hphase, fun _ => rfl⟩
    | compiled =>
      rw [hp] at hphase
      rw [if_neg (by rw [hp]; decide)] at hvisit
      rw [if_neg (by decide), hvisit]
      exact ⟨Evolves.known (d := d.reset) false hready.compiling hdoc hne he hphase, fun _ => rfl⟩
  refine ⟨hevolves.1, ⟨_, rfl, hanswer⟩, fun hgrows => ?_⟩
  exact runs_resolveOther.2 ⟨u, hevolves.2 ((Grows.addEdge _ _).trans hgrows), rfl, rfl⟩

/-- **A reference is answered as `Answers` says, and its resolution is an evolution.** -/
theorem resolveWith_follows {source reference : String} {ctx : Context}
    (hr : ∀ x reference ctx, ctx.document = some x → Follows setup x final (r reference ctx) (r' reference ctx))
    (hctx : ctx.document = some source) {s t : State Work} {a : Resolution} (hready : Ready setup source s.world)
    (hrun : Runs (resolveWith setup r reference ctx) s a t) :
    Evolves setup source s.world t.world ∧
      (∀ v, a = .validator v → ∃ d e, t.world.document? (targetOf reference source) = some d ∧
        exportOf? d (Reference.parse reference).fragment = some e ∧ Answers t.world source d e v) ∧
      (Grows t.world final → Runs (resolveWith setup r' reference ctx) s a t) := by
  have hsource : ctx.document.getD "" = source := by rw [hctx]; rfl
  have htarget : (if (Reference.parse reference).document.isEmpty = true then source
      else (Reference.parse reference).document) = targetOf reference source := rfl
  unfold resolveWith at hrun ⊢
  simp only [runs_getWork_bind, hsource, htarget] at hrun ⊢
  cases hd : s.world.registry.get? (targetOf reference source) with
  | none =>
    rw [hd] at hrun
    exact absurd hrun not_runs_throw
  | some d =>
    simp only [hd] at hrun ⊢
    have hid := Registry.id_of_get? hd
    cases hexport : exportOf? d (Reference.parse reference).fragment with
    | none =>
      simp only [hexport] at hrun ⊢
      by_cases hown : d.id = source
      · rw [if_pos hown] at hrun ⊢
        obtain ⟨rfl, rfl⟩ := runs_pure.1 hrun
        exact ⟨.refl _ _, fun v hv => Resolution.noConfusion hv, fun _ => hrun⟩
      · rw [if_neg hown] at hrun
        exact absurd hrun not_runs_throw
    | some e =>
      simp only [hexport] at hrun ⊢
      have he := mem_exports_of_exportOf? hexport
      have hconclude : Evolves setup source s.world t.world →
          (∃ v, a = .validator v ∧ Answers t.world source d.reset e v) → ∀ v, a = .validator v →
            ∃ d e, t.world.document? (targetOf reference source) = some d ∧
            exportOf? d (Reference.parse reference).fragment = some e ∧ Answers t.world source d e v := by
        rintro hev ⟨v', rfl, hanswer⟩ v hv
        cases hv
        refine ⟨d.reset, e, ?_, hexport, hanswer⟩
        rw [hev.document?_eq, Work.document?_of_get? hd]
      by_cases hown : d.id = source
      · rw [if_pos hown] at hrun ⊢
        subst hown
        obtain ⟨hev, hanswer, hsame⟩ := resolveOwn_follows (hr d.id) hready
          (hid ▸ Work.document?_of_get? hd) he hrun
        exact ⟨hev, hconclude hev hanswer, hsame⟩
      · rw [if_neg hown] at hrun ⊢
        obtain ⟨hev, hanswer, hsame⟩ := resolveOther_follows (hr d.id) hready (hid ▸ hd) hown he hrun
        exact ⟨hev, hconclude hev hanswer, hsame⟩

end

/-- **The resolver of a compilation is followed by the guarded one**, if every answer passes the check. -/
theorem resolve_follows {setup : Setup} {final : Work} {check : Work → String → Context → Validator → Prop}
    (hpass : Passes setup final check) : ∀ (left : Nat) (x reference : String) (ctx : Context), ctx.document = some x →
      Follows setup x final (resolve setup left reference ctx) (resolveGuarded check setup left reference ctx)
  | 0, _, _, _, _ => fun _ _ _ _ hrun => absurd hrun not_runs_throw
  | left + 1, x, reference, ctx, hctx => by
    intro s a t hready hrun
    obtain ⟨hev, hanswer, hsame⟩ := resolveWith_follows (resolve_follows hpass left) hctx hready hrun
    refine ⟨hev, fun hgrows => runs_guarded.2 ⟨hsame hgrows, fun v hv => ?_⟩⟩
    obtain ⟨d, e, hd, hexport, hanswered⟩ := hanswer v hv
    exact hpass t.world reference ctx x d e v hctx (hev.ready hready) hgrows hd hexport hanswered

end Project
end Valgen
