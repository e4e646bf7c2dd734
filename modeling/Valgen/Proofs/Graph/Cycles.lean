import Valgen.Proofs.Graph.Basic
/-!
# Proofs.Graph.Cycles — the groups of documents that reach each other

`Graph.reach` adds the targets of what is there, again and again.  A step that adds nothing has reached a set that no
edge leaves, and there are as many steps as nodes, hence `Graph.reachable` holds exactly what a path leads to
(`mem_reachable`).  Whatever finds the strongly connected components (`Graph.AreComponents`), the groups among them are
the same (`mem_groupsAmong`).  Two documents are in one of the `Graph.cycles` if and only if each reaches the other
(`exists_mem_cycles_iff`), and a cycle has a deferred edge if direct references form none.
-/
namespace Valgen
namespace Project
namespace Graph

variable {g : Graph}

/-! ## Reaching -/

theorem mem_targets {ids : List String} {n : String} :
    n ∈ g.targets ids ↔ ∃ e ∈ g.edges, e.source ∈ ids ∧ e.target = n := by
  unfold targets
  rw [List.mem_map]
  constructor
  · rintro ⟨e, he, rfl⟩
    rw [List.mem_filter, List.contains_iff_mem] at he
    exact ⟨e, he.1, he.2, rfl⟩
  · rintro ⟨e, he, hsource, rfl⟩
    exact ⟨e, List.mem_filter.2 ⟨he, List.contains_iff_mem.2 hsource⟩, rfl⟩

/-- One step of `reach`. -/
def extend (g : Graph) (ids : List String) : List String :=
  g.nodes.filter (fun n => ids.contains n || (g.targets ids).contains n)

theorem mem_extend {ids : List String} {n : String} :
    n ∈ g.extend ids ↔ n ∈ g.nodes ∧ (n ∈ ids ∨ n ∈ g.targets ids) := by
  unfold extend
  rw [List.mem_filter, Bool.or_eq_true, List.contains_iff_mem, List.contains_iff_mem]

theorem reach_succ (g : Graph) (steps : Nat) (ids : List String) :
    g.reach (steps + 1) ids = g.reach steps (g.extend ids) := rfl

/-- **No edge leaves a set of documents.** -/
def Closed (g : Graph) (ids : List String) : Prop := ∀ e ∈ g.edges, e.source ∈ ids → e.target ∈ ids

theorem Closed.mem_reach {ids : List String} (h : g.Closed ids) (hids : ∀ n ∈ ids, n ∈ g.nodes) {n : String} :
    ∀ steps : Nat, n ∈ g.reach steps ids ↔ n ∈ ids
  | 0 => Iff.rfl
  | steps + 1 => by
    have hsame : ∀ m, m ∈ g.extend ids ↔ m ∈ ids := by
      intro m
      rw [mem_extend]
      constructor
      · rintro ⟨_, hm | hm⟩
        · exact hm
        · obtain ⟨e, he, hsource, rfl⟩ := mem_targets.1 hm
          exact h e he hsource
      · intro hm
        exact ⟨hids m hm, .inl hm⟩
    have hclosed : g.Closed (g.extend ids) := by
      intro e he hsource
      rw [hsame] at hsource ⊢
      exact h e he hsource
    rw [reach_succ, hclosed.mem_reach (fun m hm => (mem_extend.1 hm).1) steps, hsame]

/-- **What is reached stays in any set of documents that no edge leaves.** -/
theorem reach_induction {holds : String → Prop} (hstep : ∀ e ∈ g.edges, holds e.source → holds e.target) :
    ∀ (steps : Nat) {ids : List String}, (∀ n ∈ ids, holds n) → ∀ n ∈ g.reach steps ids, holds n
  | 0, _, hids => hids
  | steps + 1, ids, hids => by
    rw [reach_succ]
    refine reach_induction hstep steps (fun n hn => ?_)
    rcases (mem_extend.1 hn).2 with hold | hnew
    · exact hids n hold
    · obtain ⟨e, he, hsource, rfl⟩ := mem_targets.1 hnew
      exact hstep e he (hids e.source hsource)

def missing (g : Graph) (ids : List String) : List String := g.nodes.filter (fun n => !ids.contains n)

theorem mem_missing {ids : List String} {n : String} : n ∈ g.missing ids ↔ n ∈ g.nodes ∧ n ∉ ids := by
  unfold missing
  rw [List.mem_filter, Bool.not_eq_true', ← Bool.not_eq_true, List.contains_iff_mem]

/-- **A step from a set that an edge leaves adds a node.** -/
theorem length_missing_extend_lt (hwf : g.WellFormed) {ids : List String} (hopen : ¬ g.Closed ids) :
    (g.missing (g.extend ids)).length < (g.missing ids).length := by
  have hfilter : g.missing (g.extend ids) = (g.missing ids).filter (fun n => !(g.extend ids).contains n) := by
    unfold missing
    rw [List.filter_filter]
    refine List.filter_congr (fun n hn => ?_)
    have hkeep : n ∈ ids → n ∈ g.extend ids := fun hmem => mem_extend.2 ⟨hn, .inl hmem⟩
    by_cases hmem : n ∈ ids
    · simp [hmem, hkeep hmem]
    · simp [hmem]
  unfold Closed at hopen
  push Not at hopen
  obtain ⟨e, he, hsource, htarget⟩ := hopen
  have hnode := (hwf.ends e he).2
  rw [hfilter, List.length_filter_lt_length_iff_exists]
  refine ⟨e.target, mem_missing.2 ⟨hnode, htarget⟩, ?_⟩
  have hadded : e.target ∈ g.extend ids := mem_extend.2 ⟨hnode, .inr (mem_targets.2 ⟨e, he, hsource, rfl⟩)⟩
  simp [hadded]

/-- **After as many steps as nodes are missing no edge leaves what is reached.** -/
theorem reach_closed (hwf : g.WellFormed) : ∀ (steps : Nat) {ids : List String}, (∀ n ∈ ids, n ∈ g.nodes) →
    (g.missing ids).length ≤ steps → g.Closed (g.reach steps ids) ∧ ∀ n ∈ ids, n ∈ g.reach steps ids
  | 0, ids, _, hlength => by
    refine ⟨fun e he _ => ?_, fun n hn => hn⟩
    have hnone : e.target ∉ g.missing ids := by
      rw [List.length_eq_zero_iff.1 (Nat.le_zero.1 hlength)]
      exact List.not_mem_nil
    rw [mem_missing, not_and, not_not] at hnone
    exact hnone (hwf.ends e he).2
  | steps + 1, ids, hids, hlength => by
    by_cases hclosed : g.Closed ids
    · have hreach := fun n => hclosed.mem_reach (n := n) hids (steps + 1)
      refine ⟨fun e he hsource => ?_, fun n hn => (hreach n).2 hn⟩
      rw [hreach] at hsource ⊢
      exact hclosed e he hsource
    · have hless := length_missing_extend_lt hwf hclosed
      have hnodes : ∀ n ∈ g.extend ids, n ∈ g.nodes := fun n hn => (mem_extend.1 hn).1
      obtain ⟨hclosed', hsub⟩ := reach_closed hwf steps hnodes (by omega)
      rw [reach_succ]
      exact ⟨hclosed', fun n hn => hsub n (mem_extend.2 ⟨hids n hn, .inl hn⟩)⟩

/-- **A document reaches what a path of edges leads to.** -/
theorem mem_reachable (hwf : g.WellFormed) {a b : String} : b ∈ g.reachable a ↔ Relation.TransGen g.Linked a b := by
  have htargets : ∀ n ∈ g.targets [a], n ∈ g.nodes := by
    intro n hn
    obtain ⟨e, he, _, rfl⟩ := mem_targets.1 hn
    exact (hwf.ends e he).2
  unfold reachable
  constructor
  · refine fun hb => reach_induction (fun e he hpath => ?_) g.nodes.length (fun n hn => ?_) b hb
    · exact hpath.tail ⟨e, he, rfl, rfl⟩
    · obtain ⟨e, he, hsource, rfl⟩ := mem_targets.1 hn
      exact .single ⟨e, he, List.mem_singleton.1 hsource, rfl⟩
  · intro hpath
    obtain ⟨hclosed, hsub⟩ := reach_closed hwf g.nodes.length htargets (List.length_filter_le _ _)
    induction hpath with
    | single hlink =>
      obtain ⟨e, he, hsource, rfl⟩ := hlink
      exact hsub _ (mem_targets.2 ⟨e, he, List.mem_singleton.2 hsource, rfl⟩)
    | tail _ hlink ih =>
      obtain ⟨e, he, rfl, rfl⟩ := hlink
      exact hclosed e he ih

/-! ## Groups -/

/-- **Each of two documents reaches the other.** -/
def Mutual (g : Graph) (a b : String) : Prop := Relation.TransGen g.Linked a b ∧ Relation.TransGen g.Linked b a

theorem Mutual.symm {a b : String} (h : g.Mutual a b) : g.Mutual b a := ⟨h.2, h.1⟩

theorem Mutual.trans {a b c : String} (h : g.Mutual a b) (h' : g.Mutual b c) : g.Mutual a c :=
  ⟨h.1.trans h'.1, h'.2.trans h.2⟩

theorem WellFormed.mem_nodes (hwf : g.WellFormed) {a b : String} (h : Relation.TransGen g.Linked a b) :
    b ∈ g.nodes := by
  obtain ⟨_, _, e, he, _, rfl⟩ := Relation.TransGen.tail'_iff.1 h
  exact (hwf.ends e he).2

theorem mem_group (hwf : g.WellFormed) {a b : String} : b ∈ g.group a ↔ g.Mutual a b := by
  unfold group
  rw [List.mem_filter, Bool.and_eq_true, List.contains_iff_mem, List.contains_iff_mem, mem_reachable hwf,
    mem_reachable hwf]
  exact ⟨fun h => h.2, fun h => ⟨hwf.mem_nodes h.1, h⟩⟩

theorem pairwise_group (hwf : g.WellFormed) (a : String) : (g.group a).Pairwise (· < ·) := hwf.ascending.filter _

/-- **Documents that reach each other have one group.** -/
theorem group_eq_of_mutual (hwf : g.WellFormed) {a b : String} (h : g.Mutual a b) : g.group a = g.group b := by
  refine (pairwise_group hwf a).eq_of_mem_iff (pairwise_group hwf b) (fun n => ?_)
  rw [mem_group hwf, mem_group hwf]
  exact ⟨fun hn => h.symm.trans hn, fun hn => h.trans hn⟩

/-! ## Components -/

/-- **A document reaches another**, or is that document. -/
def Reaches (g : Graph) (a b : String) : Prop := Relation.ReflTransGen g.Linked a b

theorem reaches_iff {a b : String} : g.Reaches a b ∧ g.Reaches b a ↔ a = b ∨ g.Mutual a b := by
  unfold Reaches Mutual
  rw [Relation.reflTransGen_iff_eq_or_transGen, Relation.reflTransGen_iff_eq_or_transGen]
  grind

/-- **Lists of documents are the strongly connected components of a graph**, in whatever order. -/
structure AreComponents (g : Graph) (parts : List (List String)) : Prop where
  nonempty : ∀ c ∈ parts, c ≠ []
  once : parts.flatten.Perm g.nodes
  strong : ∀ c ∈ parts, ∀ a ∈ c, ∀ b ∈ g.nodes, b ∈ c ↔ g.Reaches a b ∧ g.Reaches b a

theorem one_lt_length_iff {c : List String} {a : String} (hnodup : c.Nodup) (ha : a ∈ c) :
    1 < c.length ↔ ∃ b ∈ c, b ≠ a := by
  match c with
  | [] => cases ha
  | [x] => simpa using (List.mem_singleton.1 ha).symm
  | x :: y :: rest =>
    refine ⟨fun _ => ?_, fun _ => by simp⟩
    have hne : x ≠ y := (List.pairwise_cons.1 hnodup).1 y List.mem_cons_self
    by_cases hx : x = a
    · exact ⟨y, by simp, fun hy => hne (hx.trans hy.symm)⟩
    · exact ⟨x, List.mem_cons_self, hx⟩

namespace AreComponents

variable {parts : List (List String)} {c : List String} {a b : String}

theorem mem_nodes (h : g.AreComponents parts) (hc : c ∈ parts) (ha : a ∈ c) : a ∈ g.nodes :=
  h.once.subset (List.mem_flatten_of_mem hc ha)

theorem mem_iff (hwf : g.WellFormed) (h : g.AreComponents parts) (hc : c ∈ parts) (ha : a ∈ c) :
    b ∈ c ↔ b = a ∨ g.Mutual a b := by
  constructor
  · intro hb
    exact (reaches_iff.1 ((h.strong c hc a ha b (h.mem_nodes hc hb)).1 hb)).imp Eq.symm id
  · rintro (rfl | hmutual)
    · exact ha
    · exact (h.strong c hc a ha b (hwf.mem_nodes hmutual.1)).2 (reaches_iff.2 (.inr hmutual))

theorem nodup (hwf : g.WellFormed) (h : g.AreComponents parts) (hc : c ∈ parts) : c.Nodup :=
  (List.nodup_flatten.1 (h.once.nodup_iff.2 hwf.nodup)).1 c hc

/-- **A component has several documents or one that refers to itself if and only if its documents reach themselves.** -/
theorem nontrivial_iff (hwf : g.WellFormed) (h : g.AreComponents parts) (hc : c ∈ parts) (ha : a ∈ c) :
    (1 < c.length ∨ ∃ b ∈ c, g.Linked b b) ↔ g.Mutual a a := by
  constructor
  · rintro (hlength | ⟨b, hb, hself⟩)
    · obtain ⟨b, hb, hne⟩ := (one_lt_length_iff (h.nodup hwf hc) ha).1 hlength
      have hmutual := ((h.mem_iff hwf hc ha).1 hb).resolve_left hne
      exact hmutual.trans hmutual.symm
    · rcases (h.mem_iff hwf hc ha).1 hb with rfl | hmutual
      · exact ⟨.single hself, .single hself⟩
      · exact hmutual.trans hmutual.symm
  · intro hmutual
    obtain ⟨b, hlink, hback⟩ := Relation.TransGen.head'_iff.1 hmutual.1
    by_cases hb : b = a
    · exact .inr ⟨a, ha, hb ▸ hlink⟩
    · have hcycle : g.Mutual a b :=
        ⟨.single hlink, ((Relation.reflTransGen_iff_eq_or_transGen.1 hback).resolve_left (Ne.symm hb))⟩
      exact .inl ((one_lt_length_iff (h.nodup hwf hc) ha).2 ⟨b, (h.mem_iff hwf hc ha).2 (.inr hcycle), hb⟩)

end AreComponents

theorem refersToItself_iff {a : String} : g.refersToItself a = true ↔ g.Linked a a := by
  unfold refersToItself Linked
  simp

/-- **The groups among the components are the groups of the documents that reach themselves.** -/
theorem mem_groupsAmong (hwf : g.WellFormed) {parts : List (List String)} (h : g.AreComponents parts)
    {c : List String} : c ∈ g.groupsAmong parts ↔ ∃ a, g.Mutual a a ∧ g.group a = c := by
  have hgroup : ∀ part ∈ parts, ∀ a ∈ part, g.Mutual a a → ascending part = g.group a := by
    intro part hpart a ha hmutual
    refine (pairwise_ascending part).eq_of_mem_iff (pairwise_group hwf a) (fun n => ?_)
    rw [mem_ascending, mem_group hwf, h.mem_iff hwf hpart ha]
    exact ⟨fun hn => hn.elim (fun heq => heq ▸ hmutual) id, .inr⟩
  simp only [groupsAmong, mem_ascending, List.mem_map, List.mem_filter, Bool.or_eq_true, decide_eq_true_eq,
    List.any_eq_true, refersToItself_iff]
  constructor
  · rintro ⟨part, ⟨hpart, hnontrivial⟩, rfl⟩
    obtain ⟨a, ha⟩ := List.exists_mem_of_ne_nil part (h.nonempty part hpart)
    have hmutual := (h.nontrivial_iff hwf hpart ha).1 hnontrivial
    exact ⟨a, hmutual, (hgroup part hpart a ha hmutual).symm⟩
  · rintro ⟨a, hmutual, rfl⟩
    obtain ⟨part, hpart, ha⟩ := List.mem_flatten.1 (h.once.symm.subset (hwf.mem_nodes hmutual.1))
    exact ⟨part, ⟨hpart, (h.nontrivial_iff hwf hpart ha).2 hmutual⟩, hgroup part hpart a ha hmutual⟩

theorem mem_component (hwf : g.WellFormed) {a b : String} :
    b ∈ g.component a ↔ b ∈ g.nodes ∧ (b = a ∨ g.Mutual a b) := by
  unfold component
  simp only [List.mem_filter, Bool.or_eq_true, beq_iff_eq, List.contains_iff_mem, mem_group hwf]

theorem pairwise_component (hwf : g.WellFormed) (a : String) : (g.component a).Pairwise (· < ·) :=
  hwf.ascending.filter _

theorem component_eq (hwf : g.WellFormed) {a b : String} (h : b ∈ g.component a) : g.component b = g.component a := by
  refine (pairwise_component hwf b).eq_of_mem_iff (pairwise_component hwf a) (fun n => ?_)
  rw [mem_component hwf, mem_component hwf]
  rcases ((mem_component hwf).1 h).2 with rfl | hmutual
  · exact Iff.rfl
  · grind [Mutual.trans, Mutual.symm]

theorem mem_components {c : List String} :
    c ∈ g.components ↔ ∃ a ∈ g.nodes, g.component a = c ∧ c.head? = some a := by
  unfold components
  simp only [List.mem_filterMap, List.mem_map, Option.ite_none_right_eq_some, Option.some.injEq]
  constructor
  · rintro ⟨_, ⟨a, ha, rfl⟩, hhead, rfl⟩
    exact ⟨a, ha, rfl, hhead⟩
  · rintro ⟨a, ha, rfl, hhead⟩
    exact ⟨_, ⟨a, ha, rfl⟩, hhead, rfl⟩

theorem nodup_flatten_components (hwf : g.WellFormed) : g.components.flatten.Nodup := by
  rw [List.nodup_flatten]
  refine ⟨fun c hc => ?_, ?_⟩
  · obtain ⟨a, _, rfl, _⟩ := mem_components.1 hc
    exact hwf.nodup.filter _
  · unfold components
    rw [List.pairwise_filterMap, List.pairwise_map]
    refine hwf.nodup.imp (fun {a b} hne c hc c' hc' => ?_)
    simp only [Option.ite_none_right_eq_some, Option.some.injEq] at hc hc'
    obtain ⟨hhead, rfl⟩ := hc
    obtain ⟨hhead', rfl⟩ := hc'
    -- A document in both would make them one component with one first document.
    refine List.disjoint_left.2 (fun n hn hn' => hne ?_)
    rw [← component_eq hwf hn, component_eq hwf hn', hhead'] at hhead
    exact (Option.some.inj hhead).symm

/-- **The components that are found are the strongly connected components.** -/
theorem areComponents_components (hwf : g.WellFormed) : g.AreComponents g.components where
  nonempty c hc := by
    obtain ⟨a, _, _, hhead⟩ := mem_components.1 hc
    rintro rfl
    cases hhead
  once := by
    rw [List.perm_ext_iff_of_nodup (nodup_flatten_components hwf) hwf.nodup]
    refine fun n => ⟨fun hn => ?_, fun hn => ?_⟩
    · obtain ⟨c, hc, hmem⟩ := List.mem_flatten.1 hn
      obtain ⟨a, _, rfl, _⟩ := mem_components.1 hc
      exact ((mem_component hwf).1 hmem).1
    · have hself : n ∈ g.component n := (mem_component hwf).2 ⟨hn, .inl rfl⟩
      cases hcomponent : g.component n with
      | nil =>
        rw [hcomponent] at hself
        cases hself
      | cons first rest =>
        have hfirst : first ∈ g.component n := hcomponent ▸ List.mem_cons_self
        have hc : g.component n ∈ g.components :=
          mem_components.2 ⟨first, ((mem_component hwf).1 hfirst).1, component_eq hwf hfirst, by rw [hcomponent]; rfl⟩
        exact List.mem_flatten_of_mem hc hself
  strong c hc a ha b hb := by
    obtain ⟨first, _, rfl, _⟩ := mem_components.1 hc
    rw [← component_eq hwf ha, mem_component hwf, reaches_iff]
    simp [hb, eq_comm]

theorem mem_cycles (hwf : g.WellFormed) {c : List String} : c ∈ g.cycles ↔ ∃ a, g.Mutual a a ∧ g.group a = c :=
  mem_groupsAmong hwf (areComponents_components hwf)

/-- **Whatever finds the components, the groups among them are the cycles.** -/
theorem groupsAmong_eq_cycles (hwf : g.WellFormed) {parts : List (List String)} (h : g.AreComponents parts) :
    g.groupsAmong parts = g.cycles := by
  refine (pairwise_ascending _).eq_of_mem_iff (pairwise_ascending _) (fun c => ?_)
  exact (mem_groupsAmong hwf h).trans (mem_cycles hwf).symm

/-- **The cycles depend on which document refers to which.** -/
theorem cycles_congr {g' : Graph} (hwf : g.WellFormed) (hwf' : g'.WellFormed)
    (hlinked : ∀ a b, g'.Linked a b ↔ g.Linked a b) : g'.cycles = g.cycles := by
  have hrelation : g'.Linked = g.Linked := by
    funext a b
    exact propext (hlinked a b)
  have hgroup : g'.group = g.group := by
    funext a
    refine (pairwise_group hwf' a).eq_of_mem_iff (pairwise_group hwf a) (fun n => ?_)
    rw [mem_group hwf', mem_group hwf, Mutual, Mutual, hrelation]
  refine (pairwise_ascending _).eq_of_mem_iff (pairwise_ascending _) (fun c => ?_)
  refine (mem_cycles hwf').trans (Iff.trans ?_ (mem_cycles hwf).symm)
  rw [hgroup]
  simp only [Mutual, hrelation]

/-- **Documents stand in one cycle if and only if they reach each other.** -/
theorem exists_mem_cycles_iff (hwf : g.WellFormed) {a b : String} :
    (∃ c ∈ g.cycles, a ∈ c ∧ b ∈ c) ↔ g.Mutual a b := by
  constructor
  · rintro ⟨c, hc, ha, hb⟩
    obtain ⟨first, _, rfl⟩ := (mem_cycles hwf).1 hc
    exact ((mem_group hwf).1 ha).symm.trans ((mem_group hwf).1 hb)
  · intro h
    have hself := h.trans h.symm
    exact ⟨g.group a, (mem_cycles hwf).2 ⟨a, hself, rfl⟩, (mem_group hwf).2 hself, (mem_group hwf).2 h⟩

/-- **A path inside a cycle without deferred edges is a path of direct edges.** -/
theorem transGen_direct_of_linked {a b : String}
    (hdirect : ∀ e ∈ g.edges, g.Mutual a e.source → g.Mutual a e.target → e.deferred = false)
    (hpath : Relation.TransGen g.Linked b a) (hback : Relation.TransGen g.Linked a b) :
    Relation.TransGen g.Direct b a := by
  induction hpath using Relation.TransGen.head_induction_on with
  | single hlink =>
    obtain ⟨e, he, rfl, rfl⟩ := hlink
    have hsource : g.Mutual e.target e.source := ⟨hback, .single ⟨e, he, rfl, rfl⟩⟩
    exact .single ⟨e, he, hdirect e he hsource (hsource.trans hsource.symm), rfl, rfl⟩
  | head hlink hrest ih =>
    obtain ⟨e, he, rfl, rfl⟩ := hlink
    have htarget : g.Mutual a e.target := ⟨hback.tail ⟨e, he, rfl, rfl⟩, hrest⟩
    have hsource : g.Mutual a e.source := ⟨hback, .head ⟨e, he, rfl, rfl⟩ hrest⟩
    exact .head ⟨e, he, hdirect e he hsource htarget, rfl, rfl⟩ (ih htarget.1)

/-- **A cycle has a deferred edge**, if direct references form none. -/
theorem exists_deferred_of_mem_cycles (hwf : g.WellFormed) (hacyclic : g.Acyclic) {c : List String}
    (hc : c ∈ g.cycles) : ∃ e ∈ g.edges, e.deferred = true ∧ e.source ∈ c ∧ e.target ∈ c := by
  obtain ⟨first, hself, rfl⟩ := (mem_cycles hwf).1 hc
  by_contra hnone
  push Not at hnone
  refine hacyclic first (transGen_direct_of_linked (fun e he hsource htarget => ?_) hself.1 hself.2)
  by_contra hdeferred
  rw [Bool.not_eq_false] at hdeferred
  exact hnone e he hdeferred ((mem_group hwf).2 hsource) ((mem_group hwf).2 htarget)

/-! ## The cycles of a graph that has grown -/

theorem singleton_mem_cycles_iff (hwf : g.WellFormed) {a : String} :
    [a] ∈ g.cycles ↔ g.Linked a a ∧ ∀ b, b ≠ a → ¬ (g.Reaches a b ∧ g.Reaches b a) := by
  rw [mem_cycles hwf]
  constructor
  · rintro ⟨first, hself, hgroup⟩
    obtain rfl : first = a := List.mem_singleton.1 (hgroup ▸ (mem_group hwf).2 hself)
    have hothers : ∀ b, g.Mutual first b → b = first := fun b hb =>
      List.mem_singleton.1 (hgroup ▸ (mem_group hwf).2 hb)
    obtain ⟨next, hlink, hback⟩ := Relation.TransGen.head'_iff.1 hself.1
    have hnext : next = first := by
      rcases reaches_iff.1 ⟨.single hlink, hback⟩ with heq | hmutual
      · exact heq.symm
      · exact hothers next hmutual
    exact ⟨hnext ▸ hlink, fun b hne hb => hne (hothers b ((reaches_iff.1 hb).resolve_left (Ne.symm hne)))⟩
  · rintro ⟨hself, hothers⟩
    have hmutual : g.Mutual a a := ⟨.single hself, .single hself⟩
    refine ⟨a, hmutual, (pairwise_group hwf a).eq_of_mem_iff (List.pairwise_singleton _ _) (fun b => ?_)⟩
    rw [mem_group hwf, List.mem_singleton]
    refine ⟨fun hb => ?_, fun heq => heq ▸ hmutual⟩
    by_contra hne
    exact hothers b hne (reaches_iff.2 (.inr hb))

/-- **The groups of a graph, however it has grown, are its strongly connected components but for the trivial ones**, in
whatever order the components are found: different documents share a group if and only if they reach each other, a
document is a group of its own if and only if it refers to itself and shares no group, and the others are in none; no
document is in two groups, and the groups ascend, each ascending. -/
theorem groups_grown (growths : List Growth) (parts : List (List String))
    (hparts : (grown growths).AreComponents parts) :
    let g := grown growths
    let groups := g.groupsAmong parts
    groups = g.cycles ∧
      (∀ a b, a ≠ b → ((∃ c ∈ groups, a ∈ c ∧ b ∈ c) ↔ g.Reaches a b ∧ g.Reaches b a)) ∧
      (∀ a, [a] ∈ groups ↔ g.Linked a a ∧ ∀ b, b ≠ a → ¬ (g.Reaches a b ∧ g.Reaches b a)) ∧
      (∀ a, ¬ g.Linked a a → (∀ b, b ≠ a → ¬ (g.Reaches a b ∧ g.Reaches b a)) → ∀ c ∈ groups, a ∉ c) ∧
      (∀ c ∈ groups, ∀ c' ∈ groups, ∀ a, a ∈ c → a ∈ c' → c = c') ∧
      (∀ c ∈ groups, c ≠ [] ∧ c.Pairwise (· < ·)) ∧ groups.Pairwise (· < ·) := by
  intro g groups
  have hwf : g.WellFormed := wellFormed_grown growths
  have hgroups : groups = g.cycles := groupsAmong_eq_cycles hwf hparts
  rw [hgroups]
  refine ⟨rfl, fun a b hne => ?_, fun a => singleton_mem_cycles_iff hwf, fun a hself hothers c hc ha => ?_,
    fun c hc c' hc' a ha ha' => ?_, fun c hc => ?_, pairwise_ascending _⟩
  · rw [exists_mem_cycles_iff hwf, reaches_iff]
    exact ⟨.inr, fun h => h.resolve_left hne⟩
  · -- The first step of a way back to it leads to itself or to another document of its group.
    obtain ⟨next, hlink, hback⟩ :=
      Relation.TransGen.head'_iff.1 ((exists_mem_cycles_iff hwf).1 ⟨c, hc, ha, ha⟩).1
    by_cases hnext : next = a
    · exact hself (hnext ▸ hlink)
    · exact hothers next hnext ⟨.single hlink, hback⟩
  · obtain ⟨b, _, rfl⟩ := (mem_cycles hwf).1 hc
    obtain ⟨b', _, rfl⟩ := (mem_cycles hwf).1 hc'
    exact group_eq_of_mutual hwf (((mem_group hwf).1 ha).trans ((mem_group hwf).1 ha').symm)
  · obtain ⟨a, hself, rfl⟩ := (mem_cycles hwf).1 hc
    exact ⟨List.ne_nil_of_mem ((mem_group hwf).2 hself), pairwise_group hwf a⟩

/-- **Two documents in a cycle**, one of them with two edges to the other, a third that refers to itself, and a
fourth. -/
def entangled : List Growth :=
  [.node "d", .edge ⟨"a", "b", none, false⟩, .edge ⟨"a", "b", some "T", false⟩, .edge ⟨"b", "a", none, true⟩,
    .edge ⟨"b", "c", none, false⟩, .edge ⟨"c", "c", none, true⟩]

theorem areComponents_entangled : (grown entangled).AreComponents [["d"], ["c"], ["b", "a"]] := by
  have hwf := wellFormed_grown entangled
  refine ⟨by decide, by decide +kernel, fun c hc a ha b hb => ?_⟩
  have hcomponent : ∀ c ∈ [["d"], ["c"], ["b", "a"]], ∀ a ∈ c, ∀ b ∈ (grown entangled).nodes,
      b ∈ c ↔ b ∈ (grown entangled).component a := by decide +kernel
  rw [hcomponent c hc a ha b hb, mem_component hwf, reaches_iff]
  simp [hb, eq_comm]

theorem groups_grown_entangled : (grown entangled).AreComponents [["d"], ["c"], ["b", "a"]] ∧
    [["a", "b"], ["c"]] = (grown entangled).cycles ∧ (grown entangled).Reaches "a" "b" := by
  have hgroups : (grown entangled).groupsAmong [["d"], ["c"], ["b", "a"]] = [["a", "b"], ["c"]] := by decide +kernel
  obtain ⟨hcycles, htogether, _⟩ := groups_grown entangled _ areComponents_entangled
  rw [hgroups] at hcycles htogether
  exact ⟨areComponents_entangled, hcycles,
    ((htogether "a" "b" (by decide)).1 ⟨["a", "b"], by decide, by decide, by decide⟩).1⟩

end Graph
end Project
end Valgen
