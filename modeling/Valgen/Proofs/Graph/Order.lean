import Mathlib.Data.Set.Finite.Basic
import Mathlib.Order.Bounds.Basic
import Mathlib.Order.WellFounded
import Valgen.Proofs.Graph.Basic
/-!
# Proofs.Graph.Order — direct references point back

While documents are placed, each counter holds for how many documents that are not placed its document waits, and the
ready documents are those that wait for none (`Placing.Counts`).  Hence each document is placed behind those it refers
to directly, no counter is lowered that is zero, and what is left over in the end leads into a cycle
(`mem_leftover_iff`).
-/
namespace Valgen
namespace Project
namespace Graph

variable {g : Graph} {placed : List String}

/-! ## Who waits for whom -/

theorem nodup_eraseDups {α : Type} [BEq α] [LawfulBEq α] : ∀ l : List α, l.eraseDups.Nodup
  | [] => by simp
  | a :: l => by
    rw [List.eraseDups_cons]
    refine List.nodup_cons.2 ⟨fun h => ?_, nodup_eraseDups _⟩
    simp at h
termination_by l => l.length
decreasing_by exact Nat.lt_succ_of_le (List.length_filter_le _ l)

theorem nodup_waits (g : Graph) : g.waits.Nodup := nodup_eraseDups _

theorem mem_waits {a b : String} : (a, b) ∈ g.waits ↔ b ∈ g.dependencies a := by
  unfold waits dependencies
  simp only [List.mem_eraseDups, List.mem_map, List.mem_filter, Bool.and_eq_true, beq_iff_eq, Prod.mk.injEq]
  constructor
  · rintro ⟨e, ⟨he, hdirect⟩, rfl, rfl⟩
    exact ⟨e, ⟨he, hdirect, rfl⟩, rfl⟩
  · rintro ⟨e, ⟨he, hdirect, rfl⟩, rfl⟩
    exact ⟨e, ⟨he, hdirect⟩, rfl, rfl⟩

theorem mem_dependents {a b : String} : a ∈ g.dependents b ↔ b ∈ g.dependencies a := by
  unfold dependents
  simp [mem_ascending, ← mem_waits]

theorem nodup_dependents (id : String) : (g.dependents id).Nodup :=
  (pairwise_ascending _).imp (fun hlt => ne_of_lt hlt)

/-- **For how many documents that are not placed a document waits.** -/
def awaited (g : Graph) (placed : List String) (id : String) : Nat :=
  g.waits.countP (fun w => w.1 == id && !placed.contains w.2)

theorem awaited_eq_zero_iff {id : String} : g.awaited placed id = 0 ↔ ∀ d ∈ g.dependencies id, d ∈ placed := by
  unfold awaited
  simp only [List.countP_eq_zero, Prod.forall, mem_waits]
  constructor
  · intro h d hd
    simpa using h id d hd
  · rintro h a d hd
    by_cases ha : a = id
    · simp [h d (ha ▸ hd)]
    · simp [ha]

/-- **Counting with one element more.** -/
theorem countP_eq_add {α : Type} [DecidableEq α] {p q : α → Bool} {a : α} (hq : q a = false)
    (hp : ∀ b, p b = (q b || b == a)) : ∀ {l : List α}, l.Nodup → l.countP p = l.countP q + if a ∈ l then 1 else 0
  | [], _ => rfl
  | b :: rest, h => by
    obtain ⟨hb, hrest⟩ := List.nodup_cons.1 h
    have ih := countP_eq_add hq hp hrest
    by_cases heq : b = a
    · subst heq
      simp [hp b, hq, ih, hb]
    · simp [List.countP_cons, hp b, heq, Ne.symm heq, ih]
      omega

/-- **When a document is placed, those that depend on it wait for one less.** -/
theorem awaited_eq_add {x : String} (hnew : x ∉ placed) (id : String) :
    g.awaited placed id = g.awaited (placed ++ [x]) id + if id ∈ g.dependents x then 1 else 0 := by
  have hcount := countP_eq_add (l := g.waits) (a := (id, x))
    (p := fun w => w.1 == id && !placed.contains w.2)
    (q := fun w => w.1 == id && !(placed ++ [x]).contains w.2) (by simp) (fun w => ?_) g.nodup_waits
  · unfold awaited
    simpa only [mem_waits, mem_dependents] using hcount
  · obtain ⟨a, d⟩ := w
    by_cases ha : a = id <;> by_cases hd : d = x <;> simp [ha, hd, hnew]

/-! ## Settled lists -/

/-- **A document refers to another directly**, and is not that document. -/
def DependsOn (g : Graph) (a b : String) : Prop := b ∈ g.dependencies a

theorem DependsOn.mem_nodes (hwf : g.WellFormed) {a b : String} (h : g.DependsOn a b) : a ∈ g.nodes ∧ b ∈ g.nodes := by
  obtain ⟨⟨e, he, _, rfl, rfl⟩, _⟩ := mem_dependencies.1 h
  exact hwf.ends e he

/-- **Every document of a list stands behind its dependencies.** -/
def Settled (g : Graph) (l : List String) : Prop :=
  ∀ pre x post, l = pre ++ x :: post → ∀ y ∈ g.dependencies x, y ∈ pre

theorem Settled.snoc {l : List String} {x : String} (h : g.Settled l) (hx : ∀ y ∈ g.dependencies x, y ∈ l) :
    g.Settled (l ++ [x]) := by
  intro pre z post hsplit y hy
  rcases List.eq_nil_or_concat post with rfl | ⟨post', last, rfl⟩
  · obtain ⟨rfl, hlast⟩ := List.append_inj' hsplit rfl
    obtain rfl : x = z := by simpa using hlast
    exact hx y hy
  · have hsplit' : l ++ [x] = (pre ++ z :: post') ++ [last] := by simpa using hsplit
    obtain ⟨hl, _⟩ := List.append_inj' hsplit' rfl
    exact h pre z post' hl y hy

theorem Settled.mem {l : List String} (h : g.Settled l) {x y : String} (hx : x ∈ l)
    (hpath : Relation.ReflTransGen g.DependsOn x y) : y ∈ l := by
  induction hpath with
  | refl => exact hx
  | tail _ hstep ih =>
    obtain ⟨pre, post, rfl⟩ := List.append_of_mem ih
    exact List.mem_append_left _ (h pre _ post rfl _ hstep)

theorem Settled.mem_of_transGen {l pre post : List String} {x y : String} (h : g.Settled l)
    (hsplit : l = pre ++ x :: post) (hpath : Relation.TransGen g.DependsOn x y) : y ∈ pre := by
  induction hpath with
  | single hstep => exact h pre x post hsplit _ hstep
  | tail _ hstep ih =>
    obtain ⟨front, back, rfl⟩ := List.append_of_mem ih
    have hmem := h front _ (back ++ x :: post) (by rw [hsplit, List.append_assoc, List.cons_append]) _ hstep
    exact List.mem_append_left _ hmem

/-- **Some documents that a document depends on, through others, depend on themselves.** -/
def LeadsToCycle (g : Graph) (a : String) : Prop :=
  ∃ b, Relation.ReflTransGen g.DependsOn a b ∧ Relation.TransGen g.DependsOn b b

theorem Settled.not_leadsToCycle {l : List String} (h : g.Settled l) (hnodup : l.Nodup) {x : String} (hx : x ∈ l) :
    ¬ g.LeadsToCycle x := by
  rintro ⟨y, hpath, hcycle⟩
  obtain ⟨pre, post, rfl⟩ := List.append_of_mem (h.mem hx hpath)
  have hpre := h.mem_of_transGen rfl hcycle
  exact (List.nodup_append.1 hnodup).2.2 y hpre y List.mem_cons_self rfl

/-! ## Counters -/

/-- **A document is not placed, and all its dependencies are.** -/
def IsReady (g : Graph) (placed : List String) (id : String) : Prop :=
  id ∈ g.nodes ∧ id ∉ placed ∧ ∀ d ∈ g.dependencies id, d ∈ placed

end Graph

namespace Placing

variable {g : Graph} {p q : Placing} {queue : List String} {id : String}

/-- **The counters are right**, but for those of the documents that have yet to be released. -/
structure Counts (g : Graph) (queue : List String) (p : Placing) : Prop where
  nodup : p.placed.Nodup
  nodes : ∀ n ∈ p.placed, n ∈ g.nodes
  settled : g.Settled p.placed
  queued : ∀ n ∈ queue, n ∈ g.nodes ∧ n ∉ p.placed
  pending : ∀ n ∈ g.nodes, p.pending.get? n = some (g.awaited p.placed n + if n ∈ queue then 1 else 0)
  ascending : p.ready.Pairwise (· < ·)
  ready : ∀ n, n ∈ p.ready ↔ g.IsReady p.placed n ∧ n ∉ queue

theorem get?_map_of_mem {α : Type} {f : String → α} : ∀ {ids : List String}, id ∈ ids →
    Assoc.get? (ids.map (fun n => (n, f n))) id = some (f id)
  | n :: rest, h => by
    by_cases heq : n = id
    · simp [Assoc.get?, heq]
    · have ih := get?_map_of_mem (f := f) ((List.mem_cons.1 h).resolve_left (Ne.symm heq))
      simpa [Assoc.get?, heq] using ih

theorem counts_ofGraph (hwf : g.WellFormed) : Counts g [] (ofGraph g) where
  nodup := List.nodup_nil
  nodes _ h := absurd h List.not_mem_nil
  settled pre _ _ hsplit := by cases pre <;> cases hsplit
  queued _ h := absurd h List.not_mem_nil
  pending n hn := by
    rw [ofGraph, get?_map_of_mem hn]
    simp [Graph.awaited]
  ascending := by
    simp only [ofGraph, List.filter_map, List.map_map]
    exact List.Pairwise.map _ (fun _ _ hlt => hlt) (hwf.ascending.filter _)
  ready n := by
    have hmem : n ∈ (ofGraph g).ready ↔ n ∈ g.nodes ∧ g.awaited [] n = 0 := by simp [ofGraph, Graph.awaited]
    rw [hmem, Graph.awaited_eq_zero_iff]
    simp [ofGraph, Graph.IsReady]

@[simp] theorem placed_release (p : Placing) (id : String) : (p.release id).placed = p.placed := by
  unfold release
  split <;> rfl

theorem placed_foldl_release : ∀ (queue : List String) (p : Placing), (queue.foldl release p).placed = p.placed
  | [], _ => rfl
  | id :: queue, p => by rw [List.foldl_cons, placed_foldl_release queue, placed_release]

/-- **A document that has yet to be released has a counter that is not zero.** -/
theorem Counts.pending_head (h : Counts g (id :: queue) p) :
    p.pending.get? id = some (g.awaited p.placed id + 1) := by
  rw [h.pending id (h.queued id List.mem_cons_self).1, if_pos List.mem_cons_self]

theorem Counts.release (h : Counts g (id :: queue) p) (hid : id ∉ queue) : Counts g queue (p.release id) := by
  obtain ⟨hnode, hplaced⟩ := h.queued id List.mem_cons_self
  have hrelease : p.release id = { p with
      pending := p.pending.insert id (g.awaited p.placed id)
      ready := if g.awaited p.placed id = 0 then insertAscending id p.ready else p.ready } := by
    unfold Placing.release
    rw [h.pending_head]
    rfl
  rw [hrelease]
  refine ⟨h.nodup, h.nodes, h.settled, fun n hn => h.queued n (List.mem_cons_of_mem _ hn), fun n hn => ?_, ?_,
    fun n => ?_⟩
  · by_cases heq : n = id
    · rw [heq, Assoc.get?_insert_self, if_neg hid, Nat.add_zero]
    · rw [Assoc.get?_insert_of_ne _ heq, h.pending n hn]
      simp [heq]
  · dsimp only
    split
    · exact pairwise_insertAscending h.ascending
    · exact h.ascending
  · have hready := h.ready n
    have hzero : g.awaited p.placed id = 0 ↔ g.IsReady p.placed id := by
      rw [Graph.awaited_eq_zero_iff]
      exact ⟨fun hall => ⟨hnode, hplaced, hall⟩, fun hall => hall.2.2⟩
    dsimp only
    by_cases heq : n = id
    · subst heq
      have hnot : n ∉ p.ready := fun hmem => (hready.1 hmem).2 List.mem_cons_self
      rw [← hzero]
      split
      · rename_i hcount
        exact ⟨fun _ => ⟨hcount, hid⟩, fun _ => mem_insertAscending.2 (.inl rfl)⟩
      · rename_i hcount
        exact ⟨fun hmem => absurd hmem hnot, fun hmem => absurd hmem.1 hcount⟩
    · have hmem : n ∈ (if g.awaited p.placed id = 0 then insertAscending id p.ready else p.ready) ↔ n ∈ p.ready := by
        split
        · simp [mem_insertAscending, heq]
        · exact Iff.rfl
      rw [hmem, hready]
      simp [heq]

/-- **Releasing some of the documents leaves the others to be released.** -/
theorem Counts.foldl_release : ∀ (before : List String) {after : List String} {p : Placing},
    (before ++ after).Nodup → Counts g (before ++ after) p → Counts g after (before.foldl Placing.release p)
  | [], _, _, _, h => h
  | id :: before, after, p, hnodup, h => by
    rw [List.cons_append] at hnodup h
    obtain ⟨hid, hnodup⟩ := List.nodup_cons.1 hnodup
    exact foldl_release before hnodup (h.release hid)

theorem takeNext?_eq_some : p.takeNext? = some (id, q) ↔
    ∃ rest, p.ready = id :: rest ∧ q = { p with ready := rest, placed := p.placed ++ [id] } := by
  unfold takeNext?
  split
  · rename_i hnone
    simp [hnone]
  · rename_i first rest hready
    simp only [Option.some.injEq, Prod.mk.injEq, hready, List.cons.injEq]
    constructor
    · rintro ⟨rfl, rfl⟩
      exact ⟨rest, ⟨rfl, rfl⟩, rfl⟩
    · rintro ⟨_, ⟨rfl, rfl⟩, rfl⟩
      exact ⟨rfl, rfl⟩

/-- **When the next document is placed, those that depend on it have yet to be released.** -/
theorem Counts.takeNext (hwf : g.WellFormed) (h : Counts g [] p) (hnext : p.takeNext? = some (id, q)) :
    Counts g (g.dependents id) q := by
  obtain ⟨rest, hready, rfl⟩ := takeNext?_eq_some.1 hnext
  obtain ⟨⟨hnode, hnew, hall⟩, _⟩ := (h.ready id).1 (hready ▸ List.mem_cons_self)
  have hascending := h.ascending
  rw [hready] at hascending
  obtain ⟨hleast, hrest⟩ := List.pairwise_cons.1 hascending
  have hsettled : g.Settled (p.placed ++ [id]) := h.settled.snoc hall
  have hnodup : (p.placed ++ [id]).Nodup := by
    rw [List.nodup_append]
    exact ⟨h.nodup, List.nodup_singleton id, fun a ha b hb => by
      rw [List.mem_singleton.1 hb]
      exact fun heq => hnew (heq ▸ ha)⟩
  refine ⟨hnodup, fun n hn => ?_, hsettled, fun n hn => ?_, fun n hn => ?_, hrest, fun n => ?_⟩
  · rcases List.mem_append.1 hn with hold | hnow
    · exact h.nodes n hold
    · exact List.mem_singleton.1 hnow ▸ hnode
  · -- A document that is placed already does not depend on one that is placed now.
    have hdepends : g.DependsOn n id := Graph.mem_dependents.1 hn
    refine ⟨(hdepends.mem_nodes hwf).1, fun hplaced => ?_⟩
    rcases List.mem_append.1 hplaced with hold | hnow
    · exact hnew (h.settled.mem hold (.single hdepends))
    · exact (Graph.mem_dependencies.1 hdepends).2 (List.mem_singleton.1 hnow)
  · rw [h.pending n hn, Graph.awaited_eq_add hnew]
    simp
  · have hiff := h.ready n
    rw [hready] at hiff
    constructor
    · intro hmem
      obtain ⟨⟨hn, hnot, hdependencies⟩, _⟩ := hiff.1 (List.mem_cons_of_mem _ hmem)
      have hne : n ≠ id := fun heq => lt_irrefl id (heq ▸ hleast n hmem)
      refine ⟨⟨hn, ?_, fun d hd => List.mem_append_left _ (hdependencies d hd)⟩, fun hdependent => ?_⟩
      · simp [hnot, hne]
      · exact hnew (hdependencies id (Graph.mem_dependents.1 hdependent))
    · rintro ⟨⟨hn, hnot, hdependencies⟩, hdependent⟩
      simp only [List.mem_append, List.mem_singleton, not_or] at hnot
      have hready' : g.IsReady p.placed n := by
        refine ⟨hn, hnot.1, fun d hd => ?_⟩
        rcases List.mem_append.1 (hdependencies d hd) with hold | hnow
        · exact hold
        · exact absurd (Graph.mem_dependents.2 (List.mem_singleton.1 hnow ▸ hd)) hdependent
      exact (List.mem_cons.1 (hiff.2 ⟨hready', List.not_mem_nil⟩)).resolve_left hnot.2

/-- **The next document is the least of those that are ready.** -/
theorem Counts.isLeast (h : Counts g [] p) (hnext : p.takeNext? = some (id, q)) :
    IsLeast {n | g.IsReady p.placed n} id := by
  obtain ⟨rest, hready, _⟩ := takeNext?_eq_some.1 hnext
  have hascending := h.ascending
  rw [hready] at hascending
  refine ⟨((h.ready id).1 (hready ▸ List.mem_cons_self)).1, fun n hn => ?_⟩
  have hmem := (h.ready n).2 ⟨hn, List.not_mem_nil⟩
  rw [hready] at hmem
  rcases List.mem_cons.1 hmem with rfl | hrest
  · exact le_rfl
  · exact le_of_lt ((List.pairwise_cons.1 hascending).1 n hrest)

end Placing

namespace Graph

variable {g : Graph} {p q : Placing}

/-! ## Runs -/

theorem advance_eq_some : g.advance p = some q ↔
    ∃ id next, p.takeNext? = some (id, next) ∧ (g.dependents id).foldl Placing.release next = q := by
  simp [advance]

theorem placed_of_advance (h : g.advance p = some q) :
    ∃ id next, p.takeNext? = some (id, next) ∧ q.placed = p.placed ++ [id] := by
  obtain ⟨id, next, hnext, rfl⟩ := advance_eq_some.1 h
  refine ⟨id, next, hnext, ?_⟩
  obtain ⟨rest, _, rfl⟩ := Placing.takeNext?_eq_some.1 hnext
  exact Placing.placed_foldl_release _ _

theorem ready_eq_nil_of_advance (h : g.advance p = none) : p.ready = [] := by
  cases hready : p.ready with
  | nil => rfl
  | cons id rest => simp [advance, Placing.takeNext?, hready] at h

theorem counts_advance (hwf : g.WellFormed) (h : Placing.Counts g [] p)
    (hstep : g.advance p = some q) : Placing.Counts g [] q := by
  obtain ⟨id, next, hnext, rfl⟩ := advance_eq_some.1 hstep
  have hqueue := h.takeNext hwf hnext
  rw [← List.append_nil (g.dependents id)] at hqueue
  exact hqueue.foldl_release _ (by simpa using nodup_dependents id)

/-- **The states in which the next document is looked for.** -/
def Visits (g : Graph) (p : Placing) : Prop :=
  Relation.ReflTransGen (fun before after => g.advance before = some after) (Placing.ofGraph g) p

theorem Visits.counts (hwf : g.WellFormed) (h : g.Visits p) : Placing.Counts g [] p := by
  induction h with
  | refl => exact Placing.counts_ofGraph hwf
  | tail _ hstep ih => exact counts_advance hwf ih hstep

theorem Visits.placeAll : ∀ (steps : Nat) {p : Placing}, g.Visits p → g.Visits (g.placeAll steps p)
  | 0, _, h => h
  | steps + 1, p, h => by
    unfold Graph.placeAll
    split
    · exact h
    · exact Visits.placeAll steps (h.tail ‹_›)

/-- **As many steps as there are documents left place all that can be placed.** -/
theorem ready_placeAll (hwf : g.WellFormed) : ∀ (steps : Nat) {p : Placing}, Placing.Counts g [] p →
    g.nodes.length ≤ p.placed.length + steps → (g.placeAll steps p).ready = []
  | 0, p, h, hlength => by
    -- All documents are placed, and those that are ready are not.
    have hall : g.nodes ⊆ p.placed :=
      ((List.subperm_of_subset h.nodup h.nodes).perm_of_length_le hlength).symm.subset
    refine List.eq_nil_iff_forall_not_mem.2 (fun n hn => ?_)
    obtain ⟨⟨hnode, hnot, _⟩, _⟩ := (h.ready n).1 hn
    exact hnot (hall hnode)
  | steps + 1, p, h, hlength => by
    unfold placeAll
    split
    · exact ready_eq_nil_of_advance ‹_›
    · rename_i next hstep
      obtain ⟨id, _, _, hplaced⟩ := placed_of_advance hstep
      refine ready_placeAll hwf steps (counts_advance hwf h hstep) ?_
      rw [hplaced, List.length_append, List.length_singleton]
      omega

/-! ## What is left over -/

theorem LeadsToCycle.mem_nodes (hwf : g.WellFormed) {a : String} (h : g.LeadsToCycle a) : a ∈ g.nodes := by
  obtain ⟨b, hpath, hcycle⟩ := h
  obtain ⟨c, hstep, _⟩ := Relation.TransGen.head'_iff.1 (hcycle.trans_right hpath)
  exact (DependsOn.mem_nodes hwf hstep).1

/-- **If no document is ready, each one that is not placed leads into a cycle.** -/
theorem leadsToCycle_of_not_mem (hwf : g.WellFormed) (h : Placing.Counts g [] p) (hready : p.ready = []) {n : String}
    (hnode : n ∈ g.nodes) (hnot : n ∉ p.placed) : g.LeadsToCycle n := by
  by_contra hnone
  -- Otherwise the documents it leads to depend on each other without a cycle, and a least of them is ready.
  let Left := {m // m ∈ g.nodes ∧ m ∉ p.placed ∧ Relation.ReflTransGen g.DependsOn n m}
  let below : Left → Left → Prop := fun a b => Relation.TransGen g.DependsOn b.1 a.1
  have : IsTrans Left below := ⟨fun _ _ _ hab hbc => hbc.trans hab⟩
  have : Std.Irrefl below := ⟨fun a ha => hnone ⟨a.1, a.2.2.2, ha⟩⟩
  have : Finite Left := ((List.finite_toSet g.nodes).subset (fun _ hm => hm.1)).to_subtype
  have hwellFounded : WellFounded below := Finite.wellFounded_of_trans_of_irrefl below
  obtain ⟨least, _, hleast⟩ := hwellFounded.has_min Set.univ ⟨⟨n, hnode, hnot, .refl⟩, trivial⟩
  obtain ⟨hm, hplaced, hpath⟩ := least.2
  have hwaits : ¬ g.IsReady p.placed least.1 := by
    intro hm
    have hmem := (h.ready least.1).2 ⟨hm, List.not_mem_nil⟩
    rw [hready] at hmem
    cases hmem
  refine hwaits ⟨hm, hplaced, fun d hd => ?_⟩
  by_contra hd'
  exact hleast ⟨d, (DependsOn.mem_nodes hwf hd).2, hd', hpath.tail hd⟩ trivial (.single hd)

/-- **How the placing of documents ends.** -/
theorem exists_last (hwf : g.WellFormed) : ∃ last, g.Visits last ∧ Placing.Counts g [] last ∧ last.ready = [] ∧
    g.order = last.placed ++ g.nodes.filter (fun id => !last.placed.contains id) := by
  have hvisits : g.Visits (g.placeAll g.nodes.length (Placing.ofGraph g)) := Visits.placeAll _ .refl
  exact ⟨_, hvisits, hvisits.counts hwf,
    ready_placeAll hwf _ (Placing.counts_ofGraph hwf) (Nat.le_add_left _ _), rfl⟩

theorem mem_leftover_iff (hwf : g.WellFormed) (h : Placing.Counts g [] p) (hready : p.ready = []) {n : String} :
    n ∈ g.nodes.filter (fun id => !p.placed.contains id) ↔ g.LeadsToCycle n := by
  simp only [List.mem_filter, Bool.not_eq_true', List.contains_eq_mem, decide_eq_false_iff_not]
  constructor
  · exact fun hn => leadsToCycle_of_not_mem hwf h hready hn.1 hn.2
  · exact fun hn => ⟨hn.mem_nodes hwf, fun hplaced => h.settled.not_leadsToCycle h.nodup hplaced hn⟩

theorem WellFormed.order_perm (hwf : g.WellFormed) : g.order.Perm g.nodes := by
  obtain ⟨last, _, hcounts, _, horder⟩ := exists_last hwf
  rw [horder]
  have hsplit : (last.placed ++ g.nodes.filter (fun id => !last.placed.contains id)).Nodup := by
    rw [List.nodup_append]
    refine ⟨hcounts.nodup, hwf.nodup.filter _, fun a ha b hb heq => ?_⟩
    simp [← heq, ha] at hb
  rw [List.perm_ext_iff_of_nodup hsplit hwf.nodup]
  intro n
  by_cases hn : n ∈ last.placed
  · simp [hn, hcounts.nodes n hn]
  · simp [hn]

/-- **If dependencies form no cycle, every document stands behind its dependencies.** -/
theorem settled_order_of_dependsOn (hwf : g.WellFormed) (hnone : ∀ a, ¬ Relation.TransGen g.DependsOn a a) :
    g.Settled g.order := by
  obtain ⟨last, _, hcounts, hready, horder⟩ := exists_last hwf
  have hleft : g.nodes.filter (fun id => !last.placed.contains id) = [] := by
    refine List.eq_nil_iff_forall_not_mem.2 (fun n hn => ?_)
    obtain ⟨b, _, hcycle⟩ := (mem_leftover_iff hwf hcounts hready).1 hn
    exact hnone b hcycle
  rw [horder, hleft, List.append_nil]
  exact hcounts.settled

/-- **In the order of a graph whose direct references form no cycle, every document stands behind its dependencies.** -/
theorem settled_order (hwf : g.WellFormed) (hacyclic : g.Acyclic) : g.Settled g.order :=
  settled_order_of_dependsOn hwf (fun a hcycle =>
    hacyclic a (Relation.TransGen.mono (fun _ _ h => (mem_dependencies.1 h).1) _ _ hcycle))

/-- **The order depends on the nodes and on what asks to come first.** -/
theorem order_congr {g' : Graph} (hnodes : g'.nodes = g.nodes)
    (hdependencies : ∀ a b, b ∈ g'.dependencies a ↔ b ∈ g.dependencies a) : g'.order = g.order := by
  have hwaits : g'.waits.Perm g.waits := by
    rw [List.perm_ext_iff_of_nodup g'.nodup_waits g.nodup_waits]
    rintro ⟨a, b⟩
    rw [mem_waits, mem_waits, hdependencies]
  have hdependents : g'.dependents = g.dependents := by
    funext id
    refine (pairwise_ascending _).eq_of_mem_iff (pairwise_ascending _) (fun n => ?_)
    exact mem_dependents.trans ((hdependencies n id).trans mem_dependents.symm)
  have hstart : Placing.ofGraph g' = Placing.ofGraph g := by
    unfold Placing.ofGraph
    simp only [hnodes, hwaits.countP_eq]
  have hadvance : g'.advance = g.advance := by
    funext p
    unfold advance
    rw [hdependents]
  have hplace : ∀ (steps : Nat) (p : Placing), g'.placeAll steps p = g.placeAll steps p := by
    intro steps
    induction steps with
    | zero => exact fun _ => rfl
    | succ steps ih =>
      intro p
      unfold placeAll
      rw [hadvance]
      split
      · rfl
      · exact ih _
  unfold order
  simp only [hnodes, hstart, hplace]

/-! ## The order of a graph that has grown -/

/-- **A counter is lowered**: in the state `p` the next thing is that `id` waits for one document less. -/
inductive Lowers (g : Graph) : Placing → String → Prop
  | intro {p next : Placing} {placed id : String} {before after : List String} : g.Visits p →
    p.takeNext? = some (placed, next) → g.dependents placed = before ++ id :: after →
    Lowers g (before.foldl Placing.release next) id

theorem Lowers.pending (hwf : g.WellFormed) {id : String} (h : g.Lowers p id) :
    ∃ count, p.pending.get? id = some (count + 1) := by
  obtain ⟨hvisits, hnext, hsplit⟩ := h
  have hqueue := (hvisits.counts hwf).takeNext hwf hnext
  rw [hsplit] at hqueue
  exact ⟨_, (hqueue.foldl_release _ (hsplit ▸ nodup_dependents _)).pending_head⟩

/-- **The order of a graph, however it has grown.**  It is a rearrangement of the documents; each step places the
least of those that are ready; if dependencies form no cycle, each document stands behind its own; what is left over
in the end ascends and is what leads into a cycle; and no counter is lowered that is zero. -/
theorem order_grown (growths : List Growth) :
    let g := grown growths
    g.order.Perm g.nodes ∧
      (∀ p q, g.Visits p → g.advance p = some q →
        ∃ id, q.placed = p.placed ++ [id] ∧ IsLeast {n | g.IsReady p.placed n} id) ∧
      ((∀ a, ¬ Relation.TransGen g.DependsOn a a) → g.Settled g.order) ∧
      (∃ last left, g.Visits last ∧ g.advance last = none ∧ g.order = last.placed ++ left ∧
        left.Pairwise (· < ·) ∧ ∀ n, n ∈ left ↔ g.LeadsToCycle n) ∧
      ∀ p id, g.Lowers p id → ∃ count, p.pending.get? id = some (count + 1) := by
  intro g
  have hwf : g.WellFormed := wellFormed_grown growths
  refine ⟨hwf.order_perm, fun p q hvisits hstep => ?_, settled_order_of_dependsOn hwf, ?_,
    fun p id hlowers => hlowers.pending hwf⟩
  · obtain ⟨id, next, hnext, hplaced⟩ := placed_of_advance hstep
    exact ⟨id, hplaced, (hvisits.counts hwf).isLeast hnext⟩
  · obtain ⟨last, hvisits, hcounts, hready, horder⟩ := exists_last hwf
    refine ⟨last, _, hvisits, ?_, horder, hwf.ascending.filter _, fun n => mem_leftover_iff hwf hcounts hready⟩
    simp [advance, Placing.takeNext?, hready]

-- Two edges from one document to another count once, an edge to itself does not, and `c` is left over with its cycle.
example : (grown [.edge ⟨"a", "b", none, false⟩, .edge ⟨"a", "b", some "T", false⟩, .edge ⟨"b", "a", none, false⟩,
    .edge ⟨"c", "a", none, false⟩, .edge ⟨"d", "d", none, false⟩, .edge ⟨"e", "d", none, false⟩,
    .edge ⟨"e", "d", some "T", false⟩, .edge ⟨"d", "e", none, true⟩]).order = ["d", "e", "a", "b", "c"] := by
  decide +kernel

end Graph
end Project
end Valgen
