import Valgen.Proofs.Compile.Sessions
import Valgen.Proofs.Project.Records
import Valgen.Proofs.Project.Termination
/-!
# Proofs.Project.Isolation — every document is compiled by itself

A reference to another document leads to its compilation if it waits, but what is recorded of the document that refers
does not depend on that: it imports the other one and has an edge to it in any case.  So what a compilation records of a
document is what it records if all other documents are done already (`Comparison.Alone`), up to the references that are
deferred because of the order.

`Comparison.Mirrors` relates the work of a compilation with that of a document by itself.  References of the document
are answered alike on both sides (`Comparison.mirroring_resolve`); where one starts the compilation of another document,
this is compared in turn with that document by itself (`Comparison.compileDocument_recorded`).
-/
namespace Valgen
namespace Project

open Compile (Agree Context Coupling EndsSideBySide Resolution Runs SamePlace Session SessionAligned Setup State
  runs_bind runs_pure)
open Compile.Session (ResolutionAgrees)
open Schema (Node Reference)

/-- **What a compilation is compared with**: documents, each compiled by itself to a depth that may be greater.  Where
texts are compared, nothing may be deferred. -/
structure Comparison where
  setup : Setup
  documents : Registry
  depth : Nat
  exact : Prop

namespace Comparison

variable (c : Comparison)

/-! ## Documents by themselves -/

/-- **The work in which all documents are done**, and nothing is recorded of them. -/
def surroundings : Work where
  registry := c.documents.map (fun d => { d with phase := .compiled })

/-- **A document is compiled by itself**, with all others done. -/
def Alone (d : Document) (u : Work) : Prop :=
  ∃ t : State Work, t.world = u ∧
    Runs (compileDocument c.setup (resolve c.setup c.depth) d) { world := c.surroundings } () t

/-- **Every document can be compiled by itself.** -/
def Sound : Prop := ∀ x d, c.documents.get? x = some d → ∃ u, c.Alone d.reset u

theorem get?_surroundings (x : String) :
    c.surroundings.registry.get? x = (c.documents.get? x).map (fun d => { d with phase := .compiled }) := by
  unfold Registry.get? surroundings
  rw [List.find?_map]
  rfl

theorem document?_surroundings (x : String) :
    c.surroundings.document? x = (c.documents.get? x).map Document.reset := by
  unfold Work.document?
  rw [get?_surroundings, Option.map_map]
  rfl

theorem phase?_surroundings {x : String} {phase : Phase} (h : c.surroundings.phase? x = some phase) :
    phase = .compiled := by
  unfold Work.phase? at h
  rw [get?_surroundings, Option.map_map] at h
  obtain ⟨_, _, rfl⟩ := Option.map_eq_some_iff.1 h
  rfl

/-- **The phase of a document does not matter to its compilation.** -/
theorem compileExports_reset (setup : Setup) (r : Resolver) (d : Document) : ∀ es : List Export,
    compileExports setup r d.reset es = compileExports setup r d es
  | [] => rfl
  | e :: rest => by
    unfold compileExports
    rw [compileExports_reset setup r d rest]
    rfl

theorem compileDocument_reset (setup : Setup) (r : Resolver) (d : Document) :
    compileDocument setup r d.reset = compileDocument setup r d := by
  unfold compileDocument
  rw [compileExports_reset]
  rfl

theorem alone_of_runs {d : Document} {t : State Work}
    (h : Runs (compileDocument c.setup (resolve c.setup c.depth) d) { world := c.surroundings } () t) :
    c.Alone d.reset t.world := by
  rw [← compileDocument_reset] at h
  exact ⟨t, rfl, h⟩

/-! ## The works that are compared -/

/-- **What was recorded so far is what the documents record by themselves.** -/
structure Chronicle (w : Work) : Prop where
  documents : ∀ x, w.document? x = (c.documents.get? x).map Document.reset
  waiting : ∀ x, w.phase? x = some .registered → ∀ target export?, ¬ w.RefersTo x target export?
  compiled : ∀ x d, w.document? x = some d → w.phase? x = some .compiled → ∃ u, c.Alone d u ∧ SameRecord c.exact x w u

/-- **The work of a compilation beside that of a document by itself**, while the document is under way. -/
structure Mirrors (id : String) (w w' : Work) : Prop where
  ready : Ready c.setup id w
  chronicle : c.Chronicle w
  documents : ∀ x, w'.document? x = w.document? x
  others : ∀ x phase, x ≠ id → w'.phase? x = some phase → phase = .compiled
  compiled : ∀ e, (w'.cache.get? id e).isSome = (w.cache.get? id e).isSome
  underWay : ∀ e, w'.cache.isCompiling id e = w.cache.isCompiling id e
  record : SameRecord c.exact id w w'

variable {c} {id : String} {w w' : Work} {d : Document} {e : Export}

/-- **What a document under way does changes nothing in what was recorded of the others.** -/
theorem Chronicle.congr (h : c.Chronicle w) (id : String) (hdoc : ∀ x, w'.document? x = w.document? x)
    (hid : w'.phase? id = some .compiling) (hphase : ∀ x, x ≠ id → w'.phase? x = w.phase? x)
    (houtput : ∀ x, x ≠ id → w'.output? x = w.output? x)
    (hedges : ∀ x, x ≠ id → ∀ target export?, w'.RefersTo x target export? ↔ w.RefersTo x target export?) :
    c.Chronicle w' := by
  refine ⟨fun x => (hdoc x).trans (h.documents x), fun x hx target export? => ?_, fun x d hd hx => ?_⟩
  · have hne : x ≠ id := Work.ne_of_phase? hx hid (by decide)
    rw [hedges x hne]
    exact h.waiting x (hphase x hne ▸ hx) target export?
  · have hne : x ≠ id := Work.ne_of_phase? hx hid (by decide)
    obtain ⟨u, halone, hrecord⟩ := h.compiled x d (hdoc x ▸ hd) (hphase x hne ▸ hx)
    exact ⟨u, halone, hrecord.congr_left (houtput x hne) (hedges x hne)⟩

/-- **A document that ends is recorded as by itself.** -/
theorem Chronicle.closeDocument (h : c.Chronicle w) (hid : w.phase? d.id = some .compiling)
    (hd : w.document? d.id = some d) (halone : ∃ u, c.Alone d u ∧ SameRecord c.exact d.id w u) :
    c.Chronicle (w.closeDocument d) := by
  refine ⟨fun x => (w.document?_closeDocument x d).trans (h.documents x), fun x hx => ?_, fun x d' hd' hx => ?_⟩
  · have hne : x ≠ d.id := Work.ne_of_phase? hx (phase?_closeDocument_self hid) (by decide)
    rw [phase?_closeDocument_of_ne hne] at hx
    exact h.waiting x hx
  · rw [Work.document?_closeDocument] at hd'
    by_cases hself : x = d.id
    · subst hself
      obtain rfl : d = d' := Option.some.inj (hd.symm.trans hd')
      obtain ⟨u, hu, hrecord⟩ := halone
      exact ⟨u, hu, hrecord.congr_left rfl (fun _ _ => Iff.rfl)⟩
    · rw [phase?_closeDocument_of_ne hself] at hx
      obtain ⟨u, hu, hrecord⟩ := h.compiled x d' hd' hx
      exact ⟨u, hu, hrecord.congr_left rfl (fun _ _ => Iff.rfl)⟩

namespace Mirrors

theorem beginExport (h : c.Mirrors d.id w w') (hd : w.document? d.id = some d.reset) (he : e ∈ d.exports)
    (hnone : w.cache.progress? d.id e = none) (hnone' : w'.cache.progress? d.id e = none) :
    c.Mirrors d.id (w.beginExport d e) (w'.beginExport d e) where
  ready := ⟨h.ready.compiling, Consistent.beginExport (d := d.reset) h.ready.consistent hd h.ready.compiling he hnone⟩
  chronicle := h.chronicle.congr d.id (fun _ => rfl) h.ready.compiling (fun _ _ => rfl) (fun _ _ => rfl)
    (fun _ _ _ _ => Iff.rfl)
  documents := h.documents
  others := h.others
  compiled f := by
    rw [Consistent.get?_beginExport hnone, Consistent.get?_beginExport hnone']
    exact h.compiled f
  underWay f := by
    rw [Work.isCompiling_beginExport, Work.isCompiling_beginExport, h.underWay]
  record := ⟨h.record.outline, h.record.output, h.record.refersTo⟩

theorem finishExport (h : c.Mirrors d.id w w') (hd : w.document? d.id = some d.reset) (he : e ∈ d.exports)
    (hcompiling : w.cache.isCompiling d.id e = true) {v v' : Validator} (hv : Agree c.exact v v') :
    c.Mirrors d.id (w.finishExport c.setup d e v) (w'.finishExport c.setup d e v') where
  ready := ⟨h.ready.compiling,
    Consistent.finishExport (d := d.reset) h.ready.consistent hd h.ready.compiling he hcompiling v⟩
  chronicle := h.chronicle.congr d.id (fun _ => rfl) h.ready.compiling (fun _ _ => rfl)
    (fun x hx => by rw [Work.output?_finishExport, if_neg hx]) (fun _ _ _ _ => Iff.rfl)
  documents := h.documents
  others := h.others
  compiled f := by
    rw [Consistent.get?_finishExport, Consistent.get?_finishExport]
    split
    · rfl
    · exact h.compiled f
  underWay f := by
    rw [Work.isCompiling_finishExport, Work.isCompiling_finishExport, h.underWay]
  record := h.record.finishExport e hv

theorem addImport (h : c.Mirrors id w w') (d : Document) : c.Mirrors id (w.addImport id d) (w'.addImport id d) where
  ready := ⟨h.ready.compiling, h.ready.consistent.addImport id d⟩
  chronicle := h.chronicle.congr id (fun _ => rfl) h.ready.compiling (fun _ _ => rfl)
    (fun x hx => by rw [Work.output?_addImport, if_neg hx]) (fun _ _ _ _ => Iff.rfl)
  documents := h.documents
  others := h.others
  compiled := h.compiled
  underWay := h.underWay
  record := h.record.addImport d

theorem addEdge (h : c.Mirrors id w w') (target : String) (export? : Option String) (deferred deferred' : Bool) :
    c.Mirrors id (w.addEdge ⟨id, target, export?, deferred⟩) (w'.addEdge ⟨id, target, export?, deferred'⟩) where
  ready := ⟨h.ready.compiling, h.ready.consistent.addEdge _⟩
  chronicle := h.chronicle.congr id (fun _ => rfl) h.ready.compiling (fun _ _ => rfl) (fun _ _ => rfl)
    (fun x hx target export? => by
      rw [Work.refersTo_addEdge]
      exact or_iff_left (fun hnew => hx hnew.1.symm))
  documents := h.documents
  others := h.others
  compiled := h.compiled
  underWay := h.underWay
  record := h.record.addEdge target export? deferred deferred'

/-- **A visit to another document does not touch the one that refers to it.** -/
theorem visit (h : c.Mirrors id w w') (hne : d.id ≠ id) (hd : w.document? d.id = some d)
    (hreg : w.phase? d.id = some .registered) {w₁ : Work} (hrun : Evolves c.setup d.id (w.openDocument d) w₁)
    (hall : ∀ f ∈ d.exports, (w₁.cache.get? d.id f).isSome) (hchronicle : c.Chronicle (w₁.closeDocument d)) :
    c.Mirrors id (w₁.closeDocument d) w' := by
  have hopen : (w.openDocument d).phase? id = some .compiling := by
    rw [phase?_openDocument_of_ne hne.symm, h.ready.compiling]
  have hphase := hrun.phase?_of_compiling hopen
  obtain ⟨houtput, hprogress, hedges⟩ := hrun.frame hne.symm (hphase.trans hopen.symm)
  have hget : ∀ f, w₁.cache.get? id f = w.cache.get? id f := fun f => by
    unfold Cache.get?
    rw [hprogress, Work.progress?_openDocument]
  have hcompiling : ∀ f, w₁.cache.isCompiling id f = w.cache.isCompiling id f := fun f => by
    unfold Cache.isCompiling
    rw [hprogress, Work.progress?_openDocument]
  refine ⟨⟨?_, ?_⟩, hchronicle, fun x => ?_, h.others, fun f => ?_, fun f => ?_, ?_⟩
  · rw [phase?_closeDocument_of_ne hne.symm, hphase]
  · refine (hrun.consistent (h.ready.consistent.openDocument hd hreg)).closeDocument ?_ (hrun.phase?_visited hreg) hall
    rw [hrun.document?_eq, Work.document?_openDocument, hd]
  · rw [h.documents, Work.document?_closeDocument, hrun.document?_eq, Work.document?_openDocument]
  · exact (h.compiled f).trans (congrArg Option.isSome (hget f).symm)
  · exact (h.underWay f).trans (hcompiling f).symm
  · refine h.record.congr_left ?_ (fun target export? => ?_)
    · rw [Work.output?_closeDocument, houtput, Work.output?_openDocument, if_neg hne.symm, Option.or_none]
    · constructor
      · rintro ⟨deferred, hmem⟩
        exact ⟨deferred, hedges _ hmem rfl⟩
      · rintro ⟨deferred, hmem⟩
        exact ⟨deferred, hrun.mem_edges hmem⟩

end Mirrors

/-! ## Computations side by side -/

variable (c)

/-- **Runs for a document in a compilation and by itself end alike**: with the works still side by side, or with one
error.  A compilation may also fail because a document cannot be compiled by itself, or at its bound. -/
abbrev EndsMirrored (id : String) {α : Type} (P : α → α → Prop) :
    Except Error α × State Work → Except Error α × State Work → Prop :=
  EndsSideBySide (fun s s' => c.Mirrors id s.world s'.world) (fun e => e = .budgetSpent ∨ ¬ c.Sound) (fun _ => False) P

abbrev coupling (id : String) : Coupling Work Work :=
  .ofStates (fun s s' => c.Mirrors id s.world s'.world) (fun e => e = .budgetSpent ∨ ¬ c.Sound) (fun _ => False)

/-- **A resolver of a compilation answers as one for documents by themselves.** -/
structure Mirroring (r r' : Resolver) : Prop where
  evolves : ∀ x reference ctx, ctx.document = some x → ∀ (s : State Work) a t, Ready c.setup x s.world →
    Runs (r reference ctx) s a t → Evolves c.setup x s.world t.world
  alike : ∀ x reference ctx, ctx.document = some x →
    (c.coupling x).rel (ResolutionAgrees c.exact) (r reference ctx) (r' reference ctx)

variable {c} {r r' : Resolver} {s s' : State Work}

theorem Mirroring.follows (h : c.Mirroring r r') (final : Work) (x reference : String) (ctx : Context)
    (hctx : ctx.document = some x) : Follows c.setup x final (r reference ctx) (r reference ctx) :=
  fun s a t hready hrun => ⟨h.evolves x reference ctx hctx s a t hready hrun, fun _ => hrun⟩

theorem exportBody_mirrored (h : c.Mirroring r r') (d : Document) (e : Export) (target : Node) :
    (c.coupling d.id).rel (Agree c.exact) (exportBody c.setup r d e target) (exportBody c.setup r' d e target) := by
  have hplace : ∀ {ctx ctx' : Context}, SamePlace (some d.id) (some d.id) ctx ctx' → ctx' = ctx := by
    rintro ctx _ ⟨hctx, rfl⟩
    rw [← hctx]
  have hsession : SessionAligned (c.coupling d.id) c.exact (some d.id) (some d.id) (fun _ => True)
      (exportSession c.setup r d) (exportSession c.setup r' d) := by
    refine ⟨rfl, rfl, fun node hctx => ?_, fun {ctx ctx' v v'} hctx hv => ?_, rfl, ?_, fun _ _ => trivial⟩
    · rw [hplace hctx]
      rfl
    · refine Coupling.ofStates_applyRules (fun _ _ hs => hs) (fun hexact => ?_)
      rw [hplace hctx, hv hexact]
      rfl
    · exact fun s _ _ => .left s _ (.inl rfl)
  have hanswers : Session.AnswersAlike (c.coupling d.id) c.exact (some d.id) (some d.id) (fun _ => True) (fun _ => True)
      (exportSession c.setup r d) (exportSession c.setup r' d) := by
    refine @Session.answersAlike_of_resolve _ _ _ _ _ _ (exportSession c.setup r d) (exportSession c.setup r' d) rfl rfl
      (fun {reference ctx ctx'} hctx => ?_)
    rw [hplace hctx]
    exact h.alike d.id reference ctx hctx.1
  cases e with
  | root => exact Session.compileRoot_aligned hsession hanswers trivial trivial ⟨rfl, rfl⟩
  | named name => exact Session.compile_aligned hsession hanswers trivial trivial ⟨rfl, rfl⟩

/-- **An export that has not begun is compiled alike.** -/
theorem compileFresh_mirrored (h : c.Mirroring r r') (hm : c.Mirrors d.id s.world s'.world)
    (hd : s.world.document? d.id = some d.reset) (he : e ∈ d.exports) (hnone : s.world.cache.progress? d.id e = none)
    (hnone' : s'.world.cache.progress? d.id e = none) :
    c.EndsMirrored d.id (fun _ _ => True) ((compileFresh c.setup r d e).run.run s)
      ((compileFresh c.setup r' d e).run.run s') := by
  unfold compileFresh
  cases htarget : d.target? e with
  | none => exact .error _ s s'
  | some target =>
    have hbegun := hm.beginExport hd he hnone hnone'
    have hbody := exportBody_mirrored h d e target { s with world := s.world.beginExport d e }
      { s' with world := s'.world.beginExport d e } hbegun
    have hfinish : ∀ (v v' : Validator) (t t' : State Work),
        Runs (exportBody c.setup r d e target) { s with world := s.world.beginExport d e } v t →
        Agree c.exact v v' → c.Mirrors d.id t.world t'.world →
        c.Mirrors d.id (t.world.finishExport c.setup d e v) (t'.world.finishExport c.setup d e v') := by
      intro v v' t t' hrun hv ht
      have hev := (exportBody_follows target (h.follows s.world d.id) _ v t hbegun.ready hrun).1
      refine ht.finishExport ?_ he ?_ hv
      · rw [hev.document?_eq, Work.document?_beginExport, hd]
      · rw [hev.isCompiling_eq, Work.isCompiling_beginExport, if_pos rfl]
    simp only
    rw [run_modifyWork_bind, run_modifyWork_bind]
    cases e <;> exact hbody.bind (fun v v' t t' hrun _ hv ht => .ok trivial (hfinish v v' t t' hrun hv ht))

theorem Mirrors.progress?_eq_none (h : c.Mirrors id w w') (hnone : w.cache.progress? id e = none) :
    w'.cache.progress? id e = none := by
  have hget := h.compiled e
  have hcompiling := h.underWay e
  unfold Cache.get? at hget
  unfold Cache.isCompiling at hcompiling
  rw [hnone] at hget hcompiling
  cases hprogress : w'.cache.progress? id e with
  | none => rfl
  | some p =>
    rw [hprogress] at hget hcompiling
    cases p with
    | compiling => cases hcompiling
    | compiled v => cases hget

theorem compileExport_mirrored (h : c.Mirroring r r') (hm : c.Mirrors d.id s.world s'.world)
    (hd : s.world.document? d.id = some d.reset) (he : e ∈ d.exports)
    (hidle : ¬ s.world.cache.isCompiling d.id e = true) :
    c.EndsMirrored d.id (fun _ _ => True) ((compileExport c.setup r d e).run.run s)
      ((compileExport c.setup r' d e).run.run s') := by
  have hsome := hm.compiled e
  unfold compileExport
  rw [run_getWork_bind, run_getWork_bind]
  cases hget : s.world.cache.get? d.id e with
  | some v =>
    rw [hget] at hsome
    obtain ⟨v', hv'⟩ := Option.isSome_iff_exists.1 hsome
    rw [hv']
    exact .ok trivial hm
  | none =>
    rw [hget, Option.isSome_none, Option.isSome_eq_false_iff, Option.isNone_iff_eq_none] at hsome
    have hnone := Cache.progress?_eq_none_of hget hidle
    rw [hsome]
    exact compileFresh_mirrored h hm hd he hnone (hm.progress?_eq_none hnone)

theorem compileExports_mirrored (h : c.Mirroring r r') : ∀ (es : List Export) {s s' : State Work},
    c.Mirrors d.id s.world s'.world → s.world.document? d.id = some d.reset → (∀ e ∈ es, e ∈ d.exports) →
      (∀ e, ¬ s.world.cache.isCompiling d.id e = true) →
      c.EndsMirrored d.id (fun _ _ => True) ((compileExports c.setup r d es).run.run s)
        ((compileExports c.setup r' d es).run.run s')
  | [], _, _, hm, _, _, _ => .ok trivial hm
  | e :: rest, s, s', hm, hd, hes, hidle => by
    have hfirst := compileExport_mirrored h hm hd (hes e List.mem_cons_self) (hidle e)
    refine hfirst.bind (fun _ _ t t' hrun _ _ ht => ?_)
    have hone : Runs (compileExports c.setup r d [e]) s () t :=
      runs_compileExports_cons.2 ⟨t, hrun, runs_compileExports_nil.2 rfl⟩
    have hev := (compileExports_follows (h.follows s.world d.id) [e] hm.ready hd
      (fun f hf => hes f (List.mem_singleton.1 hf ▸ List.mem_cons_self)) hidle hone).1
    refine compileExports_mirrored h rest ht ?_ (fun f hf => hes f (List.mem_cons_of_mem _ hf)) (fun f => ?_)
    · rw [hev.document?_eq, hd]
    · rw [hev.isCompiling_eq]
      exact hidle f

/-! ## Documents -/

variable (c)

/-- **A run of a compilation leaves what the documents record by themselves**, or it fails because one of them cannot
be compiled by itself, or at its bound. -/
def Recorded {α : Type} : Except Error α × State Work → Prop
  | (.ok _, t) => c.Chronicle t.world
  | (.error e, _) => e = .budgetSpent ∨ ¬ c.Sound

variable {c}

/-- **A document that begins stands in the compilation as by itself.** -/
theorem mirrors_openDocument (hcons : Consistent c.setup w) (hchronicle : c.Chronicle w)
    (hd : w.document? d.id = some d.reset) (hreg : w.phase? d.id = some .registered) :
    c.Mirrors d.id (w.openDocument d) (c.surroundings.openDocument d) where
  ready := ⟨phase?_openDocument_self hreg, Consistent.openDocument (d := d.reset) hcons hd hreg⟩
  chronicle := by
    refine hchronicle.congr d.id (fun x => w.document?_openDocument x d) (phase?_openDocument_self hreg)
      (fun x hx => phase?_openDocument_of_ne hx) (fun x hx => ?_) (fun _ _ _ _ => Iff.rfl)
    rw [Work.output?_openDocument, if_neg hx, Option.or_none]
  documents x := by
    rw [Work.document?_openDocument, Work.document?_openDocument, document?_surroundings, hchronicle.documents]
  others x phase hx hphase := by
    rw [phase?_openDocument_of_ne hx] at hphase
    exact c.phase?_surroundings hphase
  compiled f := by
    unfold Cache.get?
    rw [Work.progress?_openDocument, Work.progress?_openDocument, (hcons.waiting d.id hreg).2 f]
    rfl
  underWay f := by
    unfold Cache.isCompiling
    rw [Work.progress?_openDocument, Work.progress?_openDocument, (hcons.waiting d.id hreg).2 f]
    rfl
  record := by
    refine SameRecord.openDocument (hcons.waiting d.id hreg).1 (hchronicle.waiting d.id hreg) rfl ?_
    rintro target export? ⟨deferred, hmem⟩
    cases hmem

/-- **A document that waits is compiled as by itself.** -/
theorem compileDocument_recorded (h : c.Mirroring r (resolve c.setup c.depth)) (hcons : Consistent c.setup s.world)
    (hchronicle : c.Chronicle s.world) (hd : s.world.document? d.id = some d.reset)
    (hreg : s.world.phase? d.id = some .registered) : c.Recorded ((compileDocument c.setup r d).run.run s) := by
  have hopen := mirrors_openDocument hcons hchronicle hd hreg
  have hd' : (s.world.openDocument d).document? d.id = some d.reset := by rw [Work.document?_openDocument, hd]
  have hexports : c.EndsMirrored d.id (fun _ _ => True)
      ((compileExports c.setup r d d.exports).run.run { s with world := s.world.openDocument d })
      ((compileExports c.setup (resolve c.setup c.depth) d d.exports).run.run
        { world := c.surroundings.openDocument d }) :=
    compileExports_mirrored h d.exports hopen hd' (fun _ he => he) (hcons.idle_openDocument hreg)
  have hdocument : EndsSideBySide (fun t t' => ∃ u u', t.world = u.closeDocument d ∧ t'.world = u'.closeDocument d ∧
      c.Mirrors d.id u u') (fun e => e = .budgetSpent ∨ ¬ c.Sound) (fun _ => False) (fun _ _ => True)
      ((compileDocument c.setup r d).run.run s)
      ((compileDocument c.setup (resolve c.setup c.depth) d).run.run { world := c.surroundings }) := by
    unfold compileDocument
    rw [run_modifyWork_bind, run_modifyWork_bind, run_modifyWork_bind, run_modifyWork_bind]
    exact hexports.bind (fun _ _ t t' _ _ _ ht => .ok trivial ⟨t.world, t'.world, rfl, rfl, ht⟩)
  have halone : ∀ {e t'}, (compileDocument c.setup (resolve c.setup c.depth) d).run.run { world := c.surroundings } =
      (.error e, t') → ¬ c.Sound := by
    intro e t' hfails hsound
    rw [hchronicle.documents] at hd
    obtain ⟨d₀, hd₀, hreset⟩ := Option.map_eq_some_iff.1 hd
    obtain ⟨u, t, _, hrun⟩ := hsound d.id d₀ hd₀
    rw [hreset, compileDocument_reset] at hrun
    cases hfails.symm.trans hrun
  generalize (compileDocument c.setup r d).run.run s = outcome at hdocument ⊢
  generalize hrun : (compileDocument c.setup (resolve c.setup c.depth) d).run.run { world := c.surroundings } = alone
    at hdocument
  cases hdocument with
  | @ok _ _ t t' _ hm =>
    obtain ⟨u, u', ht, ht', hm⟩ := hm
    have hrecord : SameRecord c.exact d.id u t'.world := by
      rw [ht']
      exact ⟨hm.record.outline, hm.record.output, hm.record.refersTo⟩
    have hdone : u.document? d.id = some d.reset := by rw [hm.chronicle.documents, ← hchronicle.documents, hd]
    have hends : c.Alone d.reset t'.world := c.alone_of_runs hrun
    show c.Chronicle t.world
    rw [ht]
    exact Chronicle.closeDocument (d := d.reset) hm.chronicle hm.ready.compiling hdone ⟨t'.world, hends, hrecord⟩
  | error e _ _ => exact .inr (halone hrun)
  | left _ _ he => exact he
  | right _ _ he => exact he.elim

/-! ## References -/

theorem resolveOwn_mirrored (h : c.Mirroring r r') (hm : c.Mirrors d.id s.world s'.world)
    (hd : s.world.document? d.id = some d.reset) (he : e ∈ d.exports) :
    c.EndsMirrored d.id (ResolutionAgrees c.exact) ((resolveOwn c.setup r d e).run.run s)
      ((resolveOwn c.setup r' d e).run.run s') := by
  unfold resolveOwn
  rw [run_getWork_bind, run_getWork_bind]
  simp only [hm.compiled e, hm.underWay e]
  split_ifs with hsome hcompiling
  · exact .ok (.validator (fun _ => rfl)) hm
  · exact .ok (.validator (fun _ => rfl)) hm
  · exact (compileExport_mirrored h hm hd he hcompiling).bind
      (fun _ _ _ _ _ _ _ ht => .ok (.validator (fun _ => rfl)) ht)

variable (c)

/-- **A reference is answered alike, unless it is deferred**; then the compilation has a deferred edge. -/
abbrev EndsDeferring (id : String) (deferred : Bool) :
    Except Error Resolution × State Work → Except Error Resolution × State Work → Prop :=
  EndsSideBySide (fun s s' => c.Mirrors id s.world s'.world ∧
      (deferred = true → ∃ edge ∈ s.world.graph.edges, edge.deferred = true))
    (fun e => e = .budgetSpent ∨ ¬ c.Sound) (fun _ => False) (ResolutionAgrees (c.exact ∧ deferred = false))

variable {c}

/-- **A reference to another document is answered alike, unless that one is under way.** -/
theorem resolveOther_mirrored (h : c.Mirroring r (resolve c.setup c.depth)) {source : String}
    (hm : c.Mirrors source s.world s'.world) (hd : s.world.registry.get? d.id = some d) (hne : d.id ≠ source)
    (e : Export) : c.EndsDeferring source (d.phase == .compiling) ((resolveOther c.setup r source d e).run.run s)
      ((resolveOther c.setup r' source { d with phase := .compiled } e).run.run s') := by
  have hdoc := Work.document?_of_get? hd
  have hphase := Work.phase?_of_get? hd
  have himported := hm.addImport d
  unfold resolveOther
  rw [run_modifyWork_bind, run_modifyWork_bind]
  cases hp : d.phase with
  | registered =>
    rw [hp] at hphase
    have hcons := hm.ready.consistent.addImport source d
    have hvisit := compileDocument_recorded h (s := { s with world := s.world.addImport source d }) hcons
      himported.chronicle hdoc hphase
    simp only [beq_self_eq_true, ↓reduceIte]
    rw [Compile.run_bind, ← Work.addImport]
    generalize hrun : (compileDocument c.setup r d).run.run { s with world := s.world.addImport source d } = outcome
      at hvisit ⊢
    obtain ⟨result, t⟩ := outcome
    cases result with
    | error _ => exact .left t _ hvisit
    | ok _ =>
      obtain ⟨w₁, hev, hall, hw, _⟩ := compileDocument_follows (h.follows s.world d.id)
        (s := { s with world := s.world.addImport source d }) hcons hdoc hphase hrun
      have hvisited : c.Mirrors source t.world (s'.world.addImport source d) := by
        rw [hw]
        refine himported.visit (d := d.reset) hne hdoc hphase hev hall ?_
        rw [← hw]
        exact hvisit
      exact .ok (.validator (fun _ => rfl)) ⟨hvisited.addEdge d.id e.name? false false, fun hfalse => nomatch hfalse⟩
  | compiling =>
    have hdeferred : ∃ edge ∈ ((s.world.addImport source d).addEdge ⟨source, d.id, e.name?, true⟩).graph.edges,
        edge.deferred = true := ⟨_, Graph.mem_edges_addEdge.2 (.inr rfl), rfl⟩
    exact .ok (.validator (fun hexact => absurd hexact.2 (by decide)))
      ⟨himported.addEdge d.id e.name? true false, fun _ => hdeferred⟩
  | compiled =>
    exact .ok (.validator (fun _ => rfl)) ⟨himported.addEdge d.id e.name? false false, fun hfalse => nomatch hfalse⟩

theorem Document.eq_of_reset {d d' : Document} (h : d'.reset = d.reset) : d' = { d with phase := d'.phase } := by
  cases d
  cases d'
  cases h
  rfl

theorem exportOf?_withPhase (d : Document) (phase : Phase) (fragment : String) :
    exportOf? { d with phase := phase } fragment = exportOf? d fragment := rfl

theorem resolveWith_mirrored (h : c.Mirroring r r') (hvisit : c.Mirroring r (resolve c.setup c.depth))
    {source reference : String} {ctx : Context} (hctx : ctx.document = some source)
    (hm : c.Mirrors source s.world s'.world) : ∃ deferred,
      c.EndsDeferring source deferred ((resolveWith c.setup r reference ctx).run.run s)
        ((resolveWith c.setup r' reference ctx).run.run s') := by
  have hsource : ctx.document.getD "" = source := by rw [hctx]; rfl
  have htarget : (if (Reference.parse reference).document.isEmpty = true then source
      else (Reference.parse reference).document) = targetOf reference source := rfl
  have hsame := hm.documents (targetOf reference source)
  unfold Work.document? at hsame
  unfold resolveWith
  rw [run_getWork_bind, run_getWork_bind]
  simp only [hsource, htarget]
  cases hd : s.world.registry.get? (targetOf reference source) with
  | none =>
    rw [hd, Option.map_none, Option.map_eq_none_iff] at hsame
    rw [hsame]
    exact ⟨false, .error _ s s'⟩
  | some d =>
    rw [hd, Option.map_some] at hsame
    obtain ⟨d', hd', hreset⟩ := Option.map_eq_some_iff.1 hsame
    obtain ⟨phase, rfl⟩ : ∃ phase, d' = { d with phase := phase } := ⟨_, Document.eq_of_reset hreset⟩
    have hid := Registry.id_of_get? hd
    simp only [hd', exportOf?_withPhase]
    cases hexport : exportOf? d (Reference.parse reference).fragment with
    | none =>
      by_cases hown : d.id = source
      · simp only [if_pos hown]
        exact ⟨false, .ok (.inline _) ⟨hm, fun hfalse => nomatch hfalse⟩⟩
      · simp only [if_neg hown]
        exact ⟨false, .error _ s s'⟩
    | some e =>
      by_cases hown : d.id = source
      · subst hown
        have hresolved := resolveOwn_mirrored h hm (hid ▸ Work.document?_of_get? hd) (mem_exports_of_exportOf? hexport)
        simp only [↓reduceIte]
        exact ⟨false, hresolved.mono (fun _ _ ht => ⟨ht, fun hfalse => nomatch hfalse⟩)
          (fun _ _ ha => ha.mono And.left)⟩
      · simp only [if_neg hown]
        have hphase : phase = .compiled :=
          hm.others (targetOf reference source) phase (hid ▸ hown) (Work.phase?_of_get? hd')
        subst hphase
        exact ⟨_, resolveOther_mirrored hvisit hm (hid ▸ hd) hown e⟩

variable (c)

/-- **Nothing is deferred where texts are compared.** -/
def Check (w : Work) (_reference : String) (_ctx : Context) (_v : Validator) : Prop :=
  c.exact → ∀ edge ∈ w.graph.edges, edge.deferred = false

variable {c}

/-- **A reference that is deferred where texts are compared is refused**; all others are answered alike. -/
theorem guarded_mirrored {source reference : String} {ctx : Context} {deferred : Bool}
    (h : c.EndsDeferring source deferred ((r reference ctx).run.run s) ((r' reference ctx).run.run s')) :
    c.EndsMirrored source (ResolutionAgrees c.exact) ((guarded c.Check r reference ctx).run.run s)
      ((r' reference ctx).run.run s') := by
  rw [← bind_pure (r' reference ctx)]
  unfold guarded
  refine h.bind (fun a a' t t' _ _ ha ht => ?_)
  rw [run_getWork_bind]
  cases ha with
  | inline pointer => exact .ok (.inline pointer) ht.1
  | @validator v v' hv =>
    by_cases hcheck : c.Check t.world reference ctx v
    · simp only [if_pos hcheck]
      refine .ok (.validator (fun hexact => hv ⟨hexact, ?_⟩)) ht.1
      by_contra hdeferred
      obtain ⟨edge, hmem, hedge⟩ := ht.2 (by simpa using hdeferred)
      rw [hcheck hexact edge hmem] at hedge
      cases hedge
    · simp only [if_neg hcheck]
      exact .left t _ (.inl rfl)

/-- **References are answered in a compilation as for documents by themselves**, to any depth that is not less. -/
theorem mirroring_resolve : ∀ left left' : Nat, left ≤ left' → left ≤ c.depth →
    c.Mirroring (resolveGuarded c.Check c.setup left) (resolve c.setup left')
  | 0, left', _, _ => by
    refine ⟨fun x reference ctx _ s a t _ hrun => ?_, fun x reference ctx _ s s' _ => .left s _ (.inl rfl)⟩
    exact absurd hrun Compile.not_runs_throw
  | left + 1, 0, h, _ => absurd h (Nat.not_succ_le_zero _)
  | left + 1, left' + 1, h, hdepth => by
    have hleft : left ≤ c.depth := Nat.le_of_succ_le hdepth
    have hinner := mirroring_resolve left left' (Nat.le_of_succ_le_succ h) hleft
    have hvisit := mirroring_resolve left c.depth hleft hleft
    refine ⟨fun x reference ctx hctx s a t hready hrun => ?_, fun x reference ctx hctx s s' hm => ?_⟩
    · exact (resolveWith_follows (hinner.follows s.world) hctx hready (runs_guarded.1 hrun).1).1
    · obtain ⟨deferred, hresolved⟩ := @resolveWith_mirrored c _ _ s s' hinner hvisit x reference ctx hctx hm
      exact guarded_mirrored hresolved

/-! ## Whole projects -/

theorem compileWaiting_recorded (h : c.Mirroring r (resolve c.setup c.depth)) : ∀ (ids : List String) {s : State Work},
    Consistent c.setup s.world → c.Chronicle s.world → c.Recorded ((compileWaiting c.setup r ids).run.run s)
  | [], _, _, hchronicle => hchronicle
  | id :: rest, s, hcons, hchronicle => by
    unfold compileWaiting
    rw [run_getWork_bind]
    cases hd : s.world.registry.get? id with
    | none => exact compileWaiting_recorded h rest hcons hchronicle
    | some d =>
      obtain rfl := Registry.id_of_get? hd
      by_cases hreg : d.phase = .registered
      · have hbeq : (d.phase == .registered) = true := by simpa using hreg
        have hphase := Work.phase?_of_get? hd
        rw [hreg] at hphase
        have hdocument := compileDocument_recorded h hcons hchronicle (Work.document?_of_get? hd) hphase
        simp only [hbeq, ↓reduceIte]
        rw [Compile.run_bind]
        generalize hrun : (compileDocument c.setup r d).run.run s = outcome at hdocument ⊢
        obtain ⟨result, t⟩ := outcome
        cases result with
        | error _ => exact hdocument
        | ok _ =>
          have hturn : RunsTurn c.setup r d.id s t := by
            unfold RunsTurn
            rw [hd]
            simp only [if_pos hreg]
            exact hrun
          have hfinishes := (runsTurn_follows (h.follows s.world) hcons hturn).1
          exact compileWaiting_recorded h rest (hfinishes.consistent hcons) hdocument
      · have hbeq : (d.phase == .registered) = false := by simpa using hreg
        simp only [hbeq, Bool.false_eq_true, ↓reduceIte]
        exact compileWaiting_recorded h rest hcons hchronicle

theorem chronicle_start {p : Project} (hdocuments : ∀ x, (c.documents.get? x).map Document.reset =
    (p.registry.get? x).map Document.reset) : c.Chronicle (Work.start p.registry) where
  documents x := by rw [document?_start, hdocuments]
  waiting := by
    rintro x _ target export? ⟨deferred, hmem⟩
    rw [edges_start] at hmem
    cases hmem
  compiled x d _ hphase := absurd (phase?_start_eq hphase) (by decide)

/-- **A successful compilation records of each document what it records by itself**, with the same texts if nothing is
deferred. -/
theorem chronicle_of_compile {p : Project} {out : Output} (hsetup : p.setup = c.setup)
    (hdocuments : ∀ x, (c.documents.get? x).map Document.reset = (p.registry.get? x).map Document.reset)
    (hdepth : exportCount p.registry + 1 ≤ c.depth) (h : p.compile.1 = .ok out)
    (hexact : c.exact → ∀ edge ∈ p.finalWork.graph.edges, edge.deferred = false) : c.Chronicle p.finalWork := by
  obtain ⟨t, hworld, _, hrun⟩ := runs_compileWaiting_of_compile h
  have hpass : Passes p.setup p.finalWork c.Check := by
    intro w reference ctx source d e v _ _ hgrows _ _ _ he edge hmem
    exact hexact he edge (hgrows.edges edge hmem)
  have hstart := consistent_start p.setup p.registry
  obtain ⟨_, _, hsame⟩ := compileWaiting_follows (resolve_follows hpass _) _ hstart hrun
  have hguarded := hsame (hworld ▸ Grows.refl _)
  rw [hsetup] at hguarded hstart
  have hrecorded := compileWaiting_recorded (mirroring_resolve _ c.depth hdepth hdepth) (p.registry.map (fun d => d.id))
    (s := { patterns := PatternCache.empty, world := Work.start p.registry }) hstart (chronicle_start hdocuments)
  rw [hguarded] at hrecorded
  rw [← hworld]
  exact hrecorded

/-- **A compilation succeeds if and only if every document can be compiled by itself.** -/
theorem exists_compile_iff_sound {p : Project} (hsetup : p.setup = c.setup)
    (hdocuments : ∀ x, (c.documents.get? x).map Document.reset = (p.registry.get? x).map Document.reset)
    (hdepth : exportCount p.registry + 1 ≤ c.depth) : (∃ out, p.compile.1 = .ok out) ↔ c.Sound := by
  -- No texts are compared here, so that no reference is refused.
  let loose : Comparison := { c with exact := False }
  constructor
  · rintro ⟨out, hout⟩ x d hd
    have hchronicle : loose.Chronicle p.finalWork := chronicle_of_compile hsetup hdocuments hdepth hout False.elim
    have hdoc : p.finalWork.document? x = some d.reset := by
      rw [hchronicle.documents, hd]
      rfl
    obtain ⟨u, halone, _⟩ := hchronicle.compiled x d.reset hdoc
      ((completes_of_compile hout).compiled x (by rw [hdoc]; rfl))
    exact ⟨u, halone⟩
  · intro hsound
    have hmirroring : loose.Mirroring (resolve c.setup (exportCount p.registry + 1)) (resolve c.setup c.depth) := by
      have hpass : ∀ w reference ctx v, loose.Check w reference ctx v := fun _ _ _ _ hfalse => hfalse.elim
      have hguarded := @mirroring_resolve loose (exportCount p.registry + 1) c.depth hdepth hdepth
      rwa [resolveGuarded_eq hpass] at hguarded
    have hstart := consistent_start p.setup p.registry
    rw [hsetup] at hstart
    have hrecorded := compileWaiting_recorded hmirroring (p.registry.map (fun d => d.id))
      (s := { patterns := PatternCache.empty, world := Work.start p.registry }) hstart (chronicle_start hdocuments)
    have hends := (compile_ends p).1
    unfold compile compileAll at hends ⊢
    rw [Compile.run_bind, hsetup] at hends ⊢
    generalize (compileWaiting c.setup (resolve c.setup (exportCount p.registry + 1))
      (p.registry.map (fun d => d.id))).run.run { patterns := PatternCache.empty, world := Work.start p.registry } =
        outcome at hrecorded hends ⊢
    obtain ⟨result, t⟩ := outcome
    cases result with
    | ok _ => exact ⟨_, rfl⟩
    | error e =>
      rcases hrecorded with rfl | hbroken
      · exact absurd rfl hends
      · exact absurd hsound hbroken

end Comparison
end Project
end Valgen
