import Valgen.Proofs.Project.Deferral
import Valgen.Proofs.Project.References
/-!
# Proofs.Project.Loading — the modules of a project when they are loaded

A module that is loaded first has its imports loaded, in their order and without those that were entered already, and
then runs its own body (`evaluate`, with `Evaluates` as its meaning).  So when a body runs, a module it imports has run,
or was entered before and waits for it, in which case it leads back to it (`Evaluates.ordered`).

Which references are deferred is decided by the order in which documents are compiled, and that is another order.
Between documents of one cycle a direct reference may therefore be read too early; between all others it never is
(`direct_read_after_run`).
-/
namespace Valgen
namespace Project

open Relation (TransGen)

/-! ## The loader -/

/-- **How far a loader has come**: the modules that were entered and the bodies that ran, each in order. -/
structure Loading where
  entered : List String := []
  ran : List String := []
deriving DecidableEq, Repr

/-- **A module is loaded**, unless it was entered already; at most `depth` modules are loaded inside each other. -/
def evaluate (imports : String → List String) : Nat → Loading → String → Loading
  | 0, l, _ => l
  | depth + 1, l, id =>
    if id ∈ l.entered then l
    else
      let inner := (imports id).foldl (evaluate imports depth) { l with entered := l.entered ++ [id] }
      { inner with ran := inner.ran ++ [id] }

/-- **The loading of modules one after another**, with no bound on its depth. -/
inductive Evaluates (imports : String → List String) : Loading → List String → Loading → Prop
  | nil (l : Loading) : Evaluates imports l [] l
  | skip {l l' : Loading} {id : String} {rest : List String} :
    id ∈ l.entered → Evaluates imports l rest l' → Evaluates imports l (id :: rest) l'
  | enter {l l₁ l' : Loading} {id : String} {rest : List String} : id ∉ l.entered →
    Evaluates imports { l with entered := l.entered ++ [id] } (imports id) l₁ →
    Evaluates imports { l₁ with ran := l₁.ran ++ [id] } rest l' → Evaluates imports l (id :: rest) l'

namespace Evaluates

variable {imports : String → List String} {l l' : Loading} {ids : List String}

theorem entered_grows (h : Evaluates imports l ids l') : l.entered <+: l'.entered := by
  induction h with
  | nil => exact List.prefix_refl _
  | skip _ _ ih => exact ih
  | enter _ _ _ ih₁ ih₂ => exact (List.prefix_append _ _).trans (ih₁.trans ih₂)

theorem ran_grows (h : Evaluates imports l ids l') : l.ran <+: l'.ran := by
  induction h with
  | nil => exact List.prefix_refl _
  | skip _ _ ih => exact ih
  | enter _ _ _ ih₁ ih₂ => exact ih₁.trans ((List.prefix_append _ _).trans ih₂)

theorem mem_entered (h : Evaluates imports l ids l') : ∀ id ∈ ids, id ∈ l'.entered := by
  induction h with
  | nil => simp
  | skip hmem hrest ih =>
    intro id hid
    rcases List.mem_cons.1 hid with rfl | hid
    · exact hrest.entered_grows.subset hmem
    · exact ih id hid
  | enter _ hinner hrest _ ih₂ =>
    intro id hid
    rcases List.mem_cons.1 hid with rfl | hid
    · exact (hinner.entered_grows.trans hrest.entered_grows).subset (by simp)
    · exact ih₂ id hid

/-- **What is entered on the way has run in the end.** -/
theorem ran_of_entered (h : Evaluates imports l ids l') : ∀ x ∈ l'.entered, x ∈ l.entered ∨ x ∈ l'.ran := by
  induction h with
  | nil => exact fun x hx => .inl hx
  | skip _ _ ih => exact ih
  | @enter l l₁ l' id rest _ _ hrest ih₁ ih₂ =>
    intro x hx
    rcases ih₂ x hx with hmid | hran
    · rcases ih₁ x hmid with hold | hran
      · rcases List.mem_append.1 hold with hold | hself
        · exact .inl hold
        · exact .inr (hrest.ran_grows.subset (by simp [List.mem_singleton.1 hself]))
      · exact .inr (hrest.ran_grows.subset (List.mem_append_left _ hran))
    · exact .inr hran

/-- **What runs on the way was not entered before**, but is in the end. -/
theorem fresh_of_ran (h : Evaluates imports l ids l') :
    ∀ x ∈ l'.ran, x ∈ l.ran ∨ (x ∉ l.entered ∧ x ∈ l'.entered) := by
  induction h with
  | nil => exact fun x hx => .inl hx
  | skip _ _ ih => exact ih
  | @enter l l₁ l' id rest hnew hinner hrest ih₁ ih₂ =>
    have hkept : ∀ x ∈ l.entered, x ∈ l₁.entered := fun x hx =>
      hinner.entered_grows.subset (List.mem_append_left _ hx)
    intro x hx
    rcases ih₂ x hx with hmid | ⟨hnot, hin⟩
    · rcases List.mem_append.1 hmid with hmid | hself
      · rcases ih₁ x hmid with hold | ⟨hnot, hin⟩
        · exact .inl hold
        · exact .inr ⟨fun hx => hnot (List.mem_append_left _ hx), hrest.entered_grows.subset hin⟩
      · obtain rfl := List.mem_singleton.1 hself
        exact .inr ⟨hnew, (hinner.entered_grows.trans hrest.entered_grows).subset (by simp)⟩
    · exact .inr ⟨fun hx => hnot (hkept x hx), hin⟩

theorem nodup_ran (h : Evaluates imports l ids l') (hl : l.ran.Nodup) (hran : ∀ x ∈ l.ran, x ∈ l.entered) :
    l'.ran.Nodup := by
  induction h with
  | nil => exact hl
  | skip _ _ ih => exact ih hl hran
  | @enter l l₁ l' id rest hnew hinner hrest ih₁ ih₂ =>
    have hself : id ∉ l₁.ran := by
      intro hid
      rcases hinner.fresh_of_ran id hid with hold | ⟨hnot, _⟩
      · exact hnew (hran id hold)
      · exact hnot (by simp)
    refine ih₂ ?_ (fun x hx => ?_)
    · exact (ih₁ hl (fun x hx => List.mem_append_left _ (hran x hx))).append (List.nodup_singleton id)
        (List.disjoint_singleton.2 hself)
    · rcases List.mem_append.1 hx with hx | hx
      · rcases hinner.fresh_of_ran x hx with hold | ⟨_, hin⟩
        · exact hinner.entered_grows.subset (List.mem_append_left _ (hran x hold))
        · exact hin
      · exact hinner.entered_grows.subset (List.mem_append_right _ hx)

end Evaluates

/-! ## The depth of loading -/

section
variable {imports : String → List String} {modules : List String}

/-- The modules that were not entered. -/
def unentered (modules : List String) (l : Loading) : List String := modules.filter (fun id => id ∉ l.entered)

theorem length_unentered_le {l l' : Loading} (h : ∀ id ∈ l.entered, id ∈ l'.entered) :
    (unentered modules l').length ≤ (unentered modules l).length := by
  refine (List.monotone_filter_right modules (fun id hid => ?_)).length_le
  simp only [decide_eq_true_eq] at hid ⊢
  exact fun hmem => hid (h id hmem)

theorem length_unentered_lt {l : Loading} {id : String} (hid : id ∈ modules) (hnew : id ∉ l.entered) :
    (unentered modules { l with entered := l.entered ++ [id] }).length < (unentered modules l).length := by
  have hsub : (unentered modules { l with entered := l.entered ++ [id] }).length ≤
      ((unentered modules l).filter (fun x => x ≠ id)).length := by
    unfold unentered
    rw [List.filter_filter]
    refine (List.monotone_filter_right modules (fun x hx => ?_)).length_le
    simp only [List.mem_append, List.mem_singleton, not_or, decide_eq_true_eq, Bool.and_eq_true] at hx ⊢
    exact ⟨hx.2, hx.1⟩
  refine Nat.lt_of_le_of_lt hsub (List.length_filter_lt_length_iff_exists.2 ⟨id, ?_, by simp⟩)
  exact List.mem_filter.2 ⟨hid, by simpa using hnew⟩

/-- **Modules are never loaded deeper than there are modules to enter.** -/
theorem evaluates_foldl (hclosed : ∀ id ∈ modules, ∀ x ∈ imports id, x ∈ modules) : ∀ (depth : Nat) (ids : List String)
    (l : Loading), (unentered modules l).length ≤ depth → (∀ id ∈ ids, id ∈ modules) →
      Evaluates imports l ids (ids.foldl (evaluate imports depth) l)
  | _, [], l, _, _ => .nil l
  | 0, id :: rest, l, hdepth, hids => by
    have hnone := List.length_eq_zero_iff.1 (Nat.le_zero.1 hdepth)
    have hmem : id ∈ l.entered := by
      by_contra hnew
      have : id ∈ unentered modules l := List.mem_filter.2 ⟨hids id List.mem_cons_self, by simpa using hnew⟩
      rw [hnone] at this
      exact List.not_mem_nil this
    exact .skip hmem (evaluates_foldl hclosed 0 rest l hdepth (fun x hx => hids x (List.mem_cons_of_mem _ hx)))
  | depth + 1, id :: rest, l, hdepth, hids => by
    have hid := hids id List.mem_cons_self
    have hrest := fun x hx => hids x (List.mem_cons_of_mem _ hx)
    rw [List.foldl_cons]
    by_cases hmem : id ∈ l.entered
    · have hskip : evaluate imports (depth + 1) l id = l := by rw [evaluate, if_pos hmem]
      rw [hskip]
      exact .skip hmem (evaluates_foldl hclosed (depth + 1) rest l hdepth hrest)
    · have hlt := length_unentered_lt hid hmem
      have hinner := evaluates_foldl hclosed depth (imports id) { l with entered := l.entered ++ [id] }
        (by omega) (hclosed id hid)
      have henter : evaluate imports (depth + 1) l id =
          { (imports id).foldl (evaluate imports depth) { l with entered := l.entered ++ [id] } with
            ran :=
              ((imports id).foldl (evaluate imports depth) { l with entered := l.entered ++ [id] }).ran ++ [id] } := by
        rw [evaluate, if_neg hmem]
      refine .enter hmem hinner ?_
      rw [henter]
      refine evaluates_foldl hclosed (depth + 1) rest _ (Nat.le_trans (length_unentered_le ?_) hdepth) hrest
      exact fun x hx => hinner.entered_grows.subset (List.mem_append_left _ hx)
termination_by depth ids => (depth, ids.length)

end

/-! ## What has run when a body runs -/

/-- One text stands before another in a list. -/
def Precedes (l : List String) (a b : String) : Prop := ∃ x y z, l = x ++ a :: (y ++ b :: z)

theorem Precedes.mono {l l' : List String} {a b : String} (h : Precedes l a b) (hl : l <+: l') :
    Precedes l' a b := by
  obtain ⟨x, y, z, rfl⟩ := h
  obtain ⟨rest, rfl⟩ := hl
  exact ⟨x, y, z ++ rest, by simp⟩

theorem precedes_snoc {l : List String} {a b : String} (h : a ∈ l) : Precedes (l ++ [b]) a b := by
  obtain ⟨x, y, rfl⟩ := List.append_of_mem h
  exact ⟨x, y, [], by simp⟩

/-- **A module imports another**, at once or through others. -/
def LeadsTo (imports : String → List String) : String → String → Prop := TransGen (fun a b => b ∈ imports a)

/-- **Whenever a body ran, each module it imports had run**, or was entered before it and leads to it. -/
def Ordered (imports : String → List String) (l : Loading) : Prop :=
  ∀ before d after, l.ran = before ++ d :: after → ∀ x ∈ imports d,
    x ∈ before ∨ (LeadsTo imports x d ∧ Precedes l.entered x d)

theorem Ordered.snoc {imports : String → List String} {l : Loading} {id : String} (h : Ordered imports l)
    (hid : ∀ x ∈ imports id, x ∈ l.ran ∨ (LeadsTo imports x id ∧ Precedes l.entered x id)) :
    Ordered imports { l with ran := l.ran ++ [id] } := by
  intro before d after hsplit x hx
  rcases List.eq_nil_or_concat after with rfl | ⟨after', last, rfl⟩
  · obtain ⟨rfl, hlast⟩ := List.append_inj' hsplit rfl
    obtain rfl : id = d := by simpa using hlast
    exact hid x hx
  · have hsplit' : l.ran ++ [id] = (before ++ d :: after') ++ [last] := by simpa using hsplit
    exact h before d after' (List.append_inj' hsplit' rfl).1 x hx

/-- **Loading keeps the order**, if the modules that wait lead to those that are loaded. -/
theorem Evaluates.ordered {imports : String → List String} {l l' : Loading} {ids : List String}
    (h : Evaluates imports l ids l') (hloop : ∀ id, id ∉ imports id)
    (hwaiting : ∀ x ∈ l.entered, x ∉ l.ran → ∀ id ∈ ids, LeadsTo imports x id) (hl : Ordered imports l) :
    Ordered imports l' := by
  induction h with
  | nil => exact hl
  | skip _ _ ih => exact ih (fun x hx hran id hid => hwaiting x hx hran id (List.mem_cons_of_mem _ hid)) hl
  | @enter l l₁ l' id rest hnew hinner hrest ih₁ ih₂ =>
    have hlead : ∀ x ∈ l.entered, x ∉ l.ran → LeadsTo imports x id := fun x hx hran =>
      hwaiting x hx hran id List.mem_cons_self
    have hinside : Ordered imports l₁ := by
      refine ih₁ (fun x hx hran y hy => ?_) (fun before d after hsplit x hx => ?_)
      · rcases List.mem_append.1 hx with hx | hx
        · exact (hlead x hx hran).tail hy
        · rw [List.mem_singleton.1 hx]
          exact .single hy
      · exact (hl before d after hsplit x hx).imp_right (fun hboth =>
          ⟨hboth.1, hboth.2.mono (List.prefix_append _ _)⟩)
    -- What waits after the imports were loaded waited before.
    have hstill : ∀ x ∈ l₁.entered, x ∉ l₁.ran → x = id ∨ (x ∈ l.entered ∧ x ∉ l.ran) := by
      intro x hx hran
      rcases hinner.ran_of_entered x hx with hx | hx
      · rcases List.mem_append.1 hx with hx | hx
        · exact .inr ⟨hx, fun hold => hran (hinner.ran_grows.subset hold)⟩
        · exact .inl (List.mem_singleton.1 hx)
      · exact absurd hx hran
    have hself : ∀ x ∈ imports id, x ∈ l₁.ran ∨ (LeadsTo imports x id ∧ Precedes l₁.entered x id) := by
      intro x hx
      by_cases hran : x ∈ l₁.ran
      · exact .inl hran
      · rcases hstill x (hinner.mem_entered x hx) hran with rfl | ⟨hin, hnot⟩
        · exact absurd hx (hloop x)
        · exact .inr ⟨hlead x hin hnot, (precedes_snoc hin).mono hinner.entered_grows⟩
    refine ih₂ (fun x hx hran y hy => ?_) (hinside.snoc hself)
    have hnot : x ∉ l₁.ran := fun hx => hran (List.mem_append_left _ hx)
    rcases hstill x hx hnot with rfl | ⟨hin, hnot⟩
    · exact absurd (List.mem_append_right _ (List.mem_singleton.2 rfl)) hran
    · exact hwaiting x hin hnot y (List.mem_cons_of_mem _ hy)

/-! ## Compiled projects -/

/-- The documents that the module of a document imports, in the order of its import statements. -/
def Output.importsOf (out : Output) (id : String) : List String :=
  ((out.documents.find? (fun o => o.id == id)).map (fun o => o.imports.map DocumentImport.id)).getD []

def Output.load (out : Output) (entry : String) : Loading := evaluate out.importsOf out.documents.length {} entry

/-- **No body reads a constant of another document before that one's body ran**, when loading starts at `entry`. -/
def Output.LoadsFrom (out : Output) (entry : String) : Prop :=
  ∀ before d after, (out.load entry).ran = before ++ d :: after →
    ∀ e ∈ out.edges, e.source = d → e.deferred = false → e.target ∈ before

section
variable {p : Project} {w : Work}

theorem Completes.mem_importsOf (h : Completes p w) (hp : p.registry.Distinct) {x y : String} :
    y ∈ w.output.importsOf x ↔ ∃ e ∈ w.output.edges, e.source = x ∧ e.target = y := by
  unfold Output.importsOf
  cases hfind : w.output.documents.find? (fun o => o.id == x) with
  | some o =>
    obtain rfl : o.id = x := by simpa using List.find?_some hfind
    obtain ⟨d, _, hd, hout, _⟩ := h.lists_of_mem (List.mem_of_find?_eq_some hfind)
    have hdoc : (w.document? o.id).isSome := by rw [h.document?_eq, hd]; rfl
    have hedges := h.mem_imports_iff hp (y := y) hdoc
    rw [Work.imports_of_output? hout] at hedges
    exact hedges
  | none =>
    -- The source of an edge is a document, and so it has an output.
    refine ⟨fun hy => absurd hy List.not_mem_nil, ?_⟩
    rintro ⟨e, he, rfl, _⟩
    have hdoc := (h.charted.nodes e.source).1 (h.charted.wellFormed.ends e he).1
    obtain ⟨d, hd⟩ := Option.isSome_iff_exists.1 hdoc
    obtain ⟨o, _, ho, _⟩ := h.exists_output hd
    have hid := List.find?_eq_none.1 hfind o (h.mem_documents hdoc ho)
    exact absurd (beq_iff_eq.2 (Work.id_of_output? ho)) hid

theorem Completes.mem_documents_of_edge (h : Completes p w) {e : Edge} (he : e ∈ w.output.edges) :
    e.target ∈ w.output.documents.map DocumentOutput.id := by
  rw [h.map_id_documents]
  exact h.charted.wellFormed.order_perm.mem_iff.2 (h.charted.wellFormed.ends e he).2

/-- **Loading is evaluation**: its depth is never used up. -/
theorem Completes.evaluates_load (h : Completes p w) (hp : p.registry.Distinct) {entry : String}
    (hentry : entry ∈ w.output.documents.map DocumentOutput.id) :
    Evaluates w.output.importsOf {} [entry] (w.output.load entry) := by
  have hclosed : ∀ id ∈ w.output.documents.map DocumentOutput.id, ∀ x ∈ w.output.importsOf id,
      x ∈ w.output.documents.map DocumentOutput.id := by
    intro id _ x hx
    obtain ⟨e, he, _, rfl⟩ := (h.mem_importsOf hp).1 hx
    exact h.mem_documents_of_edge he
  refine evaluates_foldl hclosed w.output.documents.length [entry] {} ?_ (fun id hid => ?_)
  · exact (List.length_filter_le _ _).trans (by rw [List.length_map])
  · rw [List.mem_singleton.1 hid]
    exact hentry

theorem Completes.transGen_of_leadsTo (h : Completes p w) (hp : p.registry.Distinct) {x y : String}
    (hlead : LeadsTo w.output.importsOf x y) : TransGen w.graph.Linked x y :=
  TransGen.mono (fun _ _ hin => (h.mem_importsOf hp).1 hin) _ _ hlead

end

/-- **A direct reference is read after the body it refers to ran, except inside a cycle.**  Loading runs the module it
starts at and all that it imports, each once.  When a body with a direct reference runs, the document it refers to has
run, or both stand in one cycle and that document was entered first; without cycles it has run wherever loading
starts. -/
theorem direct_read_after_run {p : Project} (hp : Reached p) {out : Output} (h : p.compile.1 = .ok out) {entry : String}
    (hentry : entry ∈ out.documents.map DocumentOutput.id) :
    entry ∈ (out.load entry).ran ∧ (out.load entry).ran.Nodup ∧
      (∀ e ∈ out.edges, e.source ∈ (out.load entry).ran → e.target ∈ (out.load entry).ran) ∧
      (∀ before d after, (out.load entry).ran = before ++ d :: after →
        ∀ e ∈ out.edges, e.source = d → e.deferred = false → e.target ∈ before ∨
          ((∃ c ∈ out.cycles, d ∈ c ∧ e.target ∈ c) ∧ Precedes (out.load entry).entered e.target d)) ∧
      (out.cycles = [] → out.LoadsFrom entry) := by
  have hcompletes := completes_of_compile h
  have hwf := hcompletes.charted.wellFormed
  obtain rfl := output_of_compile h
  have himports := fun x y => hcompletes.mem_importsOf hp.distinct (x := x) (y := y)
  have hloading := hcompletes.evaluates_load hp.distinct hentry
  have hran : ∀ x ∈ (p.finalWork.output.load entry).entered, x ∈ (p.finalWork.output.load entry).ran := by
    intro x hx
    exact (hloading.ran_of_entered x hx).resolve_left List.not_mem_nil
  have hloop : ∀ id, id ∉ p.finalWork.output.importsOf id := by
    intro id hid
    obtain ⟨e, he, hsource, htarget⟩ := (himports id id).1 hid
    exact hcompletes.loopless e he (hsource.trans htarget.symm)
  have hordered := hloading.ordered hloop (fun x hx => absurd hx List.not_mem_nil)
    (fun before d after hsplit => absurd hsplit (by simp))
  have hdirect : ∀ before d after, (p.finalWork.output.load entry).ran = before ++ d :: after →
      ∀ e ∈ p.finalWork.output.edges, e.source = d → e.deferred = false → e.target ∈ before ∨
        ((∃ c ∈ p.finalWork.output.cycles, d ∈ c ∧ e.target ∈ c) ∧
          Precedes (p.finalWork.output.load entry).entered e.target d) := by
    intro before d after hsplit e he hsource _
    refine (hordered before d after hsplit e.target ((himports d e.target).2 ⟨e, he, hsource, rfl⟩)).imp_right ?_
    rintro ⟨hlead, hbefore⟩
    have hmutual : p.finalWork.graph.Mutual d e.target :=
      ⟨.single ⟨e, he, hsource, rfl⟩, hcompletes.transGen_of_leadsTo hp.distinct hlead⟩
    exact ⟨(Graph.exists_mem_cycles_iff hwf).2 hmutual, hbefore⟩
  refine ⟨hran entry (hloading.mem_entered entry (List.mem_singleton.2 rfl)),
    hloading.nodup_ran List.nodup_nil (fun x hx => hx), fun e he hsource => ?_, hdirect, fun hnone => ?_⟩
  · obtain ⟨before, after, hsplit⟩ := List.append_of_mem hsource
    have himported := (himports _ _).2 ⟨e, he, rfl, rfl⟩
    rcases hordered before e.source after hsplit e.target himported with hin | ⟨_, x, y, z, hl⟩
    · rw [hsplit]
      exact List.mem_append_left _ hin
    · exact hran e.target (by rw [hl]; simp)
  · intro before d after hsplit e he hsource hnow
    refine (hdirect before d after hsplit e he hsource hnow).resolve_right ?_
    rintro ⟨⟨c, hc, _⟩, _⟩
    rw [hnone] at hc
    exact List.not_mem_nil hc

theorem direct_read_after_run_mutualPair : (mutualPairOutput.load "a").ran = ["b", "a"] ∧
    (("b" ∈ ["b"]) ∨ ((∃ c ∈ mutualPairOutput.cycles, "a" ∈ c ∧ "b" ∈ c) ∧
      Precedes (mutualPairOutput.load "a").entered "b" "a")) := by
  have hran : (mutualPairOutput.load "a").ran = ["b", "a"] := rfl
  have hentry : "a" ∈ mutualPairOutput.documents.map DocumentOutput.id := by decide
  have hread := (direct_read_after_run reached_mutualPair compile_mutualPair hentry).2.2.2.1
  exact ⟨hran, hread ["b"] "a" [] hran ⟨"a", "b", none, false⟩ (by decide) rfl rfl⟩

/-- **Inside a cycle a direct reference may be read too early**: loaded from the second document, the first runs before
the constant of the second that it reads. -/
theorem not_loadsFrom_mutualPair : Reached mutualPair ∧ mutualPair.compile.1 = .ok mutualPairOutput ∧
    "b" ∈ mutualPairOutput.documents.map DocumentOutput.id ∧ ¬ mutualPairOutput.LoadsFrom "b" := by
  refine ⟨reached_mutualPair, compile_mutualPair, by decide, fun hloads => ?_⟩
  have hran : (mutualPairOutput.load "b").ran = [] ++ "a" :: ["b"] := rfl
  have hread := hloads [] "a" ["b"] hran ⟨"a", "b", none, false⟩ (by decide) rfl rfl
  exact List.not_mem_nil hread

end Project
end Valgen
