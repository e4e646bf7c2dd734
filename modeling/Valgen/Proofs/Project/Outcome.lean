import Valgen.Proofs.Project.Guard
/-!
# Proofs.Project.Outcome — what a successful compilation leaves

A successful compilation runs over the documents one after another (`Finishes`) until none waits, and its output is that
of the work it leaves (`Project.finalWork`).  If every answer passes a check on the way to that work, then the guarded
compilation has the same outcome (`compileGuarded_eq`).
-/
namespace Valgen
namespace Project

open Compile (Context Runs Setup State runs_bind runs_pure)

/-! ## The documents in turn -/

section
variable {setup : Setup} {r r' : Resolver} {s t : State Work}

/-- **The turn of a document**: it is compiled if it waits. -/
def RunsTurn (setup : Setup) (r : Resolver) (id : String) (s u : State Work) : Prop :=
  match s.world.registry.get? id with
  | none => u = s
  | some d => if d.phase = .registered then Runs (compileDocument setup r d) s () u else u = s

theorem runs_compileWaiting_nil {a : Unit} : Runs (compileWaiting setup r []) s a t ↔ s = t := by
  unfold compileWaiting
  rw [runs_pure]
  simp

theorem runs_compileWaiting_cons {id : String} {rest : List String} {a : Unit} :
    Runs (compileWaiting setup r (id :: rest)) s a t ↔
      ∃ u, RunsTurn setup r id s u ∧ Runs (compileWaiting setup r rest) u a t := by
  conv => lhs; unfold compileWaiting
  rw [runs_getWork_bind]
  unfold RunsTurn
  cases s.world.registry.get? id with
  | none => simp
  | some d =>
    by_cases hreg : d.phase = .registered
    · have hbeq : (d.phase == .registered) = true := by simpa using hreg
      simp only [if_pos hreg, hbeq, ↓reduceIte, runs_bind]
      exact ⟨fun ⟨_, u, h₁, h₂⟩ => ⟨u, h₁, h₂⟩, fun ⟨u, h₁, h₂⟩ => ⟨(), u, h₁, h₂⟩⟩
    · have hbeq : (d.phase == .registered) = false := by simpa using hreg
      simp [if_neg hreg, hbeq]

/-- **After its turn a document does not wait.** -/
theorem runsTurn_follows {final : Work} {id : String}
    (hr : ∀ x reference ctx, ctx.document = some x → Follows setup x final (r reference ctx) (r' reference ctx))
    (hcons : Consistent setup s.world) (hturn : RunsTurn setup r id s t) :
    Finishes setup s.world t.world ∧ t.world.phase? id ≠ some .registered ∧
      (Grows t.world final → RunsTurn setup r' id s t) := by
  unfold RunsTurn at hturn ⊢
  cases hd : s.world.registry.get? id with
  | none =>
    rw [hd] at hturn
    obtain rfl : t = s := hturn
    refine ⟨.refl _, ?_, fun _ => rfl⟩
    unfold Work.phase?
    rw [hd]
    simp
  | some d =>
    rw [hd] at hturn
    obtain rfl := Registry.id_of_get? hd
    have hdoc := Work.document?_of_get? hd
    have hphase := Work.phase?_of_get? hd
    by_cases hreg : d.phase = .registered
    · simp only [if_pos hreg] at hturn ⊢
      rw [hreg] at hphase
      obtain ⟨w, hev, hall, hw, hsame⟩ := compileDocument_follows (hr d.id) hcons hdoc hphase hturn
      refine ⟨?_, ?_, hsame⟩
      · rw [hw]
        exact .visit (d := d.reset) hdoc hphase hev hall (.refl _)
      · have hclosed := phase?_closeDocument_self (d := d.reset) (hev.phase?_visited (d := d.reset) hphase)
        rw [hw]
        exact fun h => Phase.noConfusion (Option.some.inj (hclosed.symm.trans h))
    · simp only [if_neg hreg] at hturn ⊢
      obtain rfl : t = s := hturn
      refine ⟨.refl _, ?_, fun _ => rfl⟩
      rw [hphase]
      exact fun h => hreg (Option.some.inj h)

/-- **The documents that wait are compiled one after another, and none of the list waits in the end.** -/
theorem compileWaiting_follows {final : Work}
    (hr : ∀ x reference ctx, ctx.document = some x → Follows setup x final (r reference ctx) (r' reference ctx)) :
    ∀ (ids : List String) {s t : State Work} {a : Unit}, Consistent setup s.world →
      Runs (compileWaiting setup r ids) s a t →
      Finishes setup s.world t.world ∧ (∀ id ∈ ids, t.world.phase? id ≠ some .registered) ∧
        (Grows t.world final → Runs (compileWaiting setup r' ids) s a t)
  | [], s, t, a, _, hrun => by
    obtain rfl := runs_compileWaiting_nil.1 hrun
    exact ⟨.refl _, fun id hid => absurd hid List.not_mem_nil, fun _ => runs_compileWaiting_nil.2 rfl⟩
  | id :: rest, s, t, a, hcons, hrun => by
    obtain ⟨u, hturn, hrest⟩ := runs_compileWaiting_cons.1 hrun
    obtain ⟨hfin₁, hphase, hsame₁⟩ := runsTurn_follows hr hcons hturn
    obtain ⟨hfin₂, hnone, hsame₂⟩ := compileWaiting_follows hr rest (hfin₁.consistent hcons) hrest
    refine ⟨hfin₁.trans hfin₂, fun x hx => ?_, fun hgrows => ?_⟩
    · rcases List.mem_cons.1 hx with rfl | hx'
      · rcases hfin₂.phase?_cases x with hkept | ⟨hreg, _⟩
        · rw [hkept]
          exact hphase
        · exact absurd hreg hphase
      · exact hnone x hx'
    · exact runs_compileWaiting_cons.2 ⟨u, hsame₁ (hfin₂.grows.trans hgrows), hsame₂ hgrows⟩

end

/-! ## The start -/

theorem document?_start (r : Registry) (x : String) : (Work.start r).document? x = (r.get? x).map Document.reset := by
  unfold Work.document? Work.start
  rw [Registry.get?_resetPhases, Option.map_map]
  rfl

theorem phase?_start (r : Registry) (x : String) :
    (Work.start r).phase? x = (r.get? x).map (fun _ => Phase.registered) := by
  unfold Work.phase? Work.start
  rw [Registry.get?_resetPhases, Option.map_map]
  rfl

theorem phase?_start_eq {r : Registry} {x : String} {phase : Phase} (h : (Work.start r).phase? x = some phase) :
    phase = .registered := by
  rw [phase?_start] at h
  obtain ⟨_, _, rfl⟩ := Option.map_eq_some_iff.1 h
  rfl

theorem consistent_start (setup : Setup) (r : Registry) : Consistent setup (Work.start r) := by
  refine ⟨fun x _ => ⟨rfl, fun _ => rfl⟩, fun x d hd hx => ?_, fun x d _ hx => ?_, fun x d f _ hf => absurd rfl hf⟩
  · rw [document?_start] at hd
    obtain ⟨d', hd', _⟩ := Option.map_eq_some_iff.1 hd
    rw [phase?_start, hd'] at hx
    exact absurd rfl hx
  · exact absurd (phase?_start_eq hx) (by decide)

theorem edges_start (r : Registry) : (Work.start r).graph.edges = [] := by
  have hfold : ∀ (r : Registry) (g : Graph), (r.foldl (fun g d => g.addNode d.id) g).edges = g.edges := by
    intro r
    induction r with
    | nil => intro g; rfl
    | cons d r ih => intro g; exact ih (g.addNode d.id)
  exact hfold r {}

/-! ## The end -/

def finalWork (p : Project) : Work :=
  ((compileAll p.setup p.registry).run.run { patterns := PatternCache.empty, world := Work.start p.registry }).2.world

/-- **What a successful compilation ran through.** -/
structure Completes (p : Project) (w : Work) : Prop where
  finishes : Finishes p.setup (Work.start p.registry) w
  compiled : ∀ x, (w.document? x).isSome → w.phase? x = some .compiled

theorem Completes.consistent {p : Project} {w : Work} (h : Completes p w) : Consistent p.setup w :=
  h.finishes.consistent (consistent_start p.setup p.registry)

theorem Completes.document?_eq {p : Project} {w : Work} (h : Completes p w) (x : String) :
    w.document? x = (p.registry.get? x).map Document.reset := by
  rw [h.finishes.document?_eq, document?_start]

/-- **A successful run over all documents.** -/
theorem runs_compileWaiting_of_compile {p : Project} {out : Output} (h : p.compile.1 = .ok out) :
    ∃ t : State Work, t.world = p.finalWork ∧ out = p.finalWork.output ∧
      Runs (compileWaiting p.setup (resolve p.setup (exportCount p.registry + 1)) (p.registry.map (fun d => d.id)))
        { patterns := PatternCache.empty, world := Work.start p.registry } () t := by
  have hrun : Runs (compileAll p.setup p.registry)
      { patterns := PatternCache.empty, world := Work.start p.registry } out
      ((compileAll p.setup p.registry).run.run
        { patterns := PatternCache.empty, world := Work.start p.registry }).2 := Prod.ext h rfl
  unfold compileAll at hrun
  obtain ⟨_, t, hwaiting, hlast⟩ := runs_bind.1 hrun
  rw [runs_getWork_bind] at hlast
  obtain ⟨hout, ht⟩ := runs_pure.1 hlast
  have hworld : t.world = p.finalWork := congrArg State.world ht
  exact ⟨t, hworld, hworld ▸ hout.symm, hwaiting⟩

/-- **A successful compilation compiles every document.** -/
theorem completes_of_compile {p : Project} {out : Output} (h : p.compile.1 = .ok out) : Completes p p.finalWork := by
  obtain ⟨t, hworld, _, hrun⟩ := runs_compileWaiting_of_compile h
  have hpass : Passes p.setup p.finalWork (fun _ _ _ _ => True) := fun _ _ _ _ _ _ _ _ _ _ _ _ _ => trivial
  have hstart := consistent_start p.setup p.registry
  obtain ⟨hfin, hnone, _⟩ := compileWaiting_follows (resolve_follows hpass _) _ hstart hrun
  rw [hworld] at hfin hnone
  refine ⟨hfin, fun x hx => ?_⟩
  rw [hfin.document?_eq, document?_start, Option.isSome_map] at hx
  obtain ⟨d, hd⟩ := Option.isSome_iff_exists.1 hx
  have hmem : x ∈ p.registry.map (fun d => d.id) :=
    Registry.id_of_get? hd ▸ List.mem_map_of_mem (List.mem_of_find?_eq_some hd)
  rcases hfin.phase?_cases x with hsame | ⟨_, hcompiled⟩
  · rw [phase?_start, hd] at hsame
    exact absurd hsame (hnone x hmem)
  · exact hcompiled

theorem output_of_compile {p : Project} {out : Output} (h : p.compile.1 = .ok out) : out = p.finalWork.output := by
  obtain ⟨_, _, hout, _⟩ := runs_compileWaiting_of_compile h
  exact hout

/-- **A check that every answer passes does not change the outcome.** -/
theorem compileGuarded_eq {p : Project} {out : Output} (h : p.compile.1 = .ok out)
    {check : Work → String → Context → Validator → Prop} (hpass : Passes p.setup p.finalWork check) :
    p.compileGuarded check = p.compile := by
  obtain ⟨t, hworld, hout, hrun⟩ := runs_compileWaiting_of_compile h
  have hstart := consistent_start p.setup p.registry
  obtain ⟨_, _, hsame⟩ := compileWaiting_follows (resolve_follows hpass _) _ hstart hrun
  have hguarded := hsame (hworld ▸ Grows.refl _)
  have hall : ∀ {resolver : Resolver}, Runs (compileWaiting p.setup resolver (p.registry.map (fun d => d.id)))
      { patterns := PatternCache.empty, world := Work.start p.registry } () t →
      p.compileBy resolver = (.ok t.world.output, { p with
        registry := t.world.registry, cache := t.world.cache, graph := t.world.graph, patterns := t.patterns }) := by
    intro resolver hresolver
    have hrun' : Runs (do
        compileWaiting p.setup resolver (p.registry.map (fun d => d.id))
        return (← getWork).output : ProjectM Output)
        { patterns := PatternCache.empty, world := Work.start p.registry } t.world.output t :=
      runs_bind.2 ⟨(), t, hresolver, runs_getWork_bind.2 (runs_pure.2 ⟨rfl, rfl⟩)⟩
    unfold compileBy
    unfold Runs at hrun'
    rw [hrun']
  rw [compile_eq_compileBy, hall hrun]
  exact hall hguarded

/-! ## The nodes of the graph -/

/-- **The graph is well formed, and its nodes are the documents.** -/
structure Charted (w : Work) : Prop where
  wellFormed : w.graph.WellFormed
  nodes : ∀ x, x ∈ w.graph.nodes ↔ (w.document? x).isSome

namespace Charted

variable {w : Work} {setup : Setup}

theorem congr {w' : Work} (h : Charted w) (hgraph : w'.graph = w.graph) (hdoc : ∀ x, w'.document? x = w.document? x) :
    Charted w' := by
  refine ⟨hgraph ▸ h.wellFormed, fun x => ?_⟩
  rw [hgraph, hdoc]
  exact h.nodes x

theorem addEdge (h : Charted w) {edge : Edge} (hsource : (w.document? edge.source).isSome)
    (htarget : (w.document? edge.target).isSome) : Charted (w.addEdge edge) := by
  refine ⟨h.wellFormed.addEdge edge, fun x => ?_⟩
  rw [Work.graph_addEdge, Graph.mem_nodes_addEdge, Work.document?_addEdge]
  constructor
  · rintro (rfl | rfl | hx)
    · exact htarget
    · exact hsource
    · exact (h.nodes x).1 hx
  · intro hx
    exact .inr (.inr ((h.nodes x).2 hx))

theorem start (r : Registry) : Charted (Work.start r) := by
  have hfold : ∀ (r : Registry) (g : Graph), g.WellFormed →
      (r.foldl (fun g d => g.addNode d.id) g).WellFormed ∧
        ∀ x, x ∈ (r.foldl (fun g d => g.addNode d.id) g).nodes ↔ x ∈ g.nodes ∨ ∃ d ∈ r, d.id = x := by
    intro r
    induction r with
    | nil => intro g hg; exact ⟨hg, fun x => by simp⟩
    | cons d r ih =>
      intro g hg
      obtain ⟨hwf, hnodes⟩ := ih (g.addNode d.id) (hg.addNode d.id)
      refine ⟨hwf, fun x => ?_⟩
      rw [List.foldl_cons, hnodes]
      simp only [Graph.addNode, mem_insertAscending, List.mem_cons, exists_eq_or_imp]
      constructor
      · rintro ((rfl | hx) | hx)
        · exact .inr (.inl rfl)
        · exact .inl hx
        · exact .inr (.inr hx)
      · rintro (hx | rfl | hx)
        · exact .inl (.inr hx)
        · exact .inl (.inl rfl)
        · exact .inr hx
  obtain ⟨hwf, hnodes⟩ := hfold r {} ⟨List.Pairwise.nil, fun e he => absurd he List.not_mem_nil⟩
  refine ⟨hwf, fun x => (hnodes x).trans ?_⟩
  rw [document?_start, Option.isSome_map, Registry.get?, List.find?_isSome]
  simp

end Charted

theorem Evolves.charted {setup : Setup} {id : String} {w w' : Work} (h : Evolves setup id w w') (hw : Charted w) :
    Charted w' := by
  induction h with
  | refl => exact hw
  | trans _ _ ih₁ ih₂ => exact ih₂ (ih₁ hw)
  | fresh v _ _ _ _ _ ih => exact (ih (hw.congr rfl (fun _ => rfl))).congr rfl (fun _ => rfl)
  | @known id w d e _ hphase hd _ _ _ =>
    have himported : Charted (w.addImport id d) := hw.congr rfl (fun _ => rfl)
    refine himported.addEdge ?_ ?_
    · exact Work.isSome_document?_iff.2 (by simp [hphase])
    · simp [hd]
  | @visit id w w₁ d e hphase hd _ _ _ hrun _ ih =>
    have hopen : Charted ((w.addImport id d).openDocument d) := hw.congr rfl (fun x => by simp)
    have hclose : Charted (w₁.closeDocument d) := (ih hopen).congr rfl (fun x => by simp)
    have hdoc : ∀ x, (w₁.closeDocument d).document? x = w.document? x := fun x => by simp [hrun.document?_eq]
    refine hclose.addEdge ?_ ?_
    · rw [hdoc]
      exact Work.isSome_document?_iff.2 (by simp [hphase])
    · rw [hdoc, hd]
      rfl

theorem Finishes.charted {setup : Setup} {w w' : Work} (h : Finishes setup w w') (hw : Charted w) : Charted w' := by
  induction h with
  | refl => exact hw
  | visit _ _ hrun _ _ ih =>
    have hopen := hrun.charted (hw.congr rfl (fun x => by simp))
    exact ih (hopen.congr rfl (fun x => by simp))

theorem Completes.charted {p : Project} {w : Work} (h : Completes p w) : Charted w :=
  h.finishes.charted (Charted.start p.registry)

/-- **Every document has its output in the end.** -/
theorem Completes.exists_output {p : Project} {w : Work} (h : Completes p w) {x : String} {d : Document}
    (hd : w.document? x = some d) : ∃ o done, w.output? x = some o ∧ Lists p.setup w.cache d o done := by
  refine h.consistent.listed x d hd ?_
  rw [h.compiled x (by simp [hd])]
  simp

/-- **Every export is compiled in the end.** -/
theorem Completes.get?_isSome {p : Project} {w : Work} (h : Completes p w) {x : String} {d : Document}
    (hd : w.document? x = some d) : ∀ e ∈ d.exports, (w.cache.get? d.id e).isSome := by
  rw [Work.id_of_document? hd]
  exact h.consistent.compiled x d hd (h.compiled x (by simp [hd]))

/-- **A document of the output lists what was compiled of it.** -/
theorem Completes.lists_of_mem {p : Project} {w : Work} (h : Completes p w) {o : DocumentOutput}
    (ho : o ∈ w.output.documents) :
    ∃ d done, p.registry.get? o.id = some d ∧ w.output? o.id = some o ∧ Lists p.setup w.cache d.reset o done := by
  obtain ⟨x, hx, hout⟩ := List.mem_filterMap.1 ho
  obtain rfl := Work.id_of_output? hout
  have hnode := (h.charted.nodes o.id).1 (h.charted.wellFormed.order_perm.mem_iff.1 hx)
  rw [h.document?_eq, Option.isSome_map] at hnode
  obtain ⟨d, hd⟩ := Option.isSome_iff_exists.1 hnode
  have hdoc : w.document? o.id = some d.reset := by rw [h.document?_eq, hd, Option.map_some]
  obtain ⟨o', done, ho', hlists⟩ := h.exists_output hdoc
  obtain rfl : o = o' := Option.some.inj (hout.symm.trans ho')
  exact ⟨d, done, hd, hout, hlists⟩

theorem Completes.mem_documents {p : Project} {w : Work} (h : Completes p w) {x : String} {o : DocumentOutput}
    (hx : (w.document? x).isSome) (ho : w.output? x = some o) : o ∈ w.output.documents :=
  List.mem_filterMap.2 ⟨x, h.charted.wellFormed.order_perm.mem_iff.2 ((h.charted.nodes x).2 hx), ho⟩

/-- **The documents stand in the order of the graph.** -/
theorem Completes.map_id_documents {p : Project} {w : Work} (h : Completes p w) :
    w.output.documents.map DocumentOutput.id = w.graph.order := by
  have hsome : ∀ x ∈ w.graph.order, ∃ o, w.output? x = some o := by
    intro x hx
    have hnode := (h.charted.nodes x).1 (h.charted.wellFormed.order_perm.mem_iff.1 hx)
    obtain ⟨d, hd⟩ := Option.isSome_iff_exists.1 hnode
    obtain ⟨o, _, ho, _⟩ := h.exists_output hd
    exact ⟨o, ho⟩
  have hids : ∀ l : List String, (∀ x ∈ l, ∃ o, w.output? x = some o) →
      (l.filterMap w.output?).map DocumentOutput.id = l := by
    intro l
    induction l with
    | nil => intro _; rfl
    | cons x l ih =>
      intro hl
      obtain ⟨o, ho⟩ := hl x List.mem_cons_self
      rw [List.filterMap_cons_some ho, List.map_cons, Work.id_of_output? ho,
        ih (fun y hy => hl y (List.mem_cons_of_mem _ hy))]
  exact hids w.graph.order hsome

end Project
end Valgen
