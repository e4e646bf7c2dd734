import Mathlib.Algebra.Group.Nat.Defs
import Mathlib.Data.Nat.Log
import Valgen.Proofs.Compile.Failures
/-!
# Proofs.Compile.Intersections — the members of `allOf`

The members are compiled one after the other, each at its own index (`Series`), and what they are compiled to are the
leaves of a tree of intersections, in their order and no deeper than the logarithm of their number (`exists_meet`).  The
first member that fails is the one whose error is reported (`allOf_meets_members`).
-/
namespace Valgen
namespace Compile

open Schema (Keywords Node)

variable {ω : Type}

/-! ## Trees of intersections -/

/-- **A tree of intersections.** -/
inductive Meet where
  | leaf (v : Validator)
  | meet (left right : Meet)

namespace Meet

def validator : Meet → Validator
  | leaf v => v
  | meet left right => Validator.ofBase (.intersection left.validator right.validator)

/-- **The leaves from left to right**, each with its depth. -/
def leaves : Meet → List (Validator × Nat)
  | leaf v => [(v, 0)]
  | meet left right => (left.leaves ++ right.leaves).map (fun l => (l.1, l.2 + 1))

theorem map_fst_leaves_meet (left right : Meet) :
    (meet left right).leaves.map Prod.fst = left.leaves.map Prod.fst ++ right.leaves.map Prod.fst := by
  rw [leaves, List.map_map, ← List.map_append]
  rfl

theorem depth_leaves_meet {left right : Meet} {d : Nat} (hleft : ∀ l ∈ left.leaves, l.2 ≤ d)
    (hright : ∀ l ∈ right.leaves, l.2 ≤ d) : ∀ l ∈ (meet left right).leaves, l.2 ≤ d + 1 := by
  intro l hl
  obtain ⟨l', hl', rfl⟩ := List.mem_map.1 hl
  rcases List.mem_append.1 hl' with h | h
  · exact Nat.succ_le_succ (hleft l' h)
  · exact Nat.succ_le_succ (hright l' h)

end Meet

theorem exists_meet_singleton (d : Nat) {vs : List Validator} (h : vs.length = 1) :
    ∃ tree : Meet, tree.validator = balanced vs ∧ tree.leaves.map Prod.fst = vs ∧ ∀ l ∈ tree.leaves, l.2 ≤ d := by
  obtain ⟨v, rfl⟩ := List.length_eq_one_iff.1 h
  refine ⟨.leaf v, by rw [balanced, Meet.validator], rfl, fun l hl => ?_⟩
  obtain rfl := List.mem_singleton.1 hl
  exact Nat.zero_le d

/-- **A balanced intersection has the validators as leaves**, no deeper than the number of halvings that separate
them. -/
theorem exists_meet (d : Nat) : ∀ vs : List Validator, vs ≠ [] → vs.length ≤ 2 ^ d →
    ∃ tree : Meet, tree.validator = balanced vs ∧ tree.leaves.map Prod.fst = vs ∧ ∀ l ∈ tree.leaves, l.2 ≤ d := by
  induction d with
  | zero =>
    intro vs hne hlength
    exact exists_meet_singleton 0 (Nat.le_antisymm hlength (List.length_pos_of_ne_nil hne))
  | succ d ih =>
    intro vs hne hlength
    by_cases hone : vs.length = 1
    · exact exists_meet_singleton (d + 1) hone
    · have hpos := List.length_pos_of_ne_nil hne
      rw [Nat.pow_succ] at hlength
      -- The halves differ by one at most, so that each of them fits into the next smaller power of two.
      have htake : (vs.take (vs.length / 2)).length = vs.length / 2 := by
        rw [List.length_take]
        omega
      have hdrop : (vs.drop (vs.length / 2)).length = vs.length - vs.length / 2 := List.length_drop
      obtain ⟨left, hleft, hleaves, hdepth⟩ := ih (vs.take (vs.length / 2))
        (List.ne_nil_of_length_pos (by omega)) (by omega)
      obtain ⟨right, hright, hleaves', hdepth'⟩ := ih (vs.drop (vs.length / 2))
        (List.ne_nil_of_length_pos (by omega)) (by omega)
      refine ⟨.meet left right, ?_, ?_, Meet.depth_leaves_meet hdepth hdepth'⟩
      · rw [Meet.validator, hleft, hright, @balanced_of_two_le vs (by omega)]
      · rw [Meet.map_fst_leaves_meet, hleaves, hleaves', List.take_append_drop]

/-! ## Members one after the other -/

/-- **The schema in whose form a member is compiled**: a truth value is written as an object. -/
inductive MemberForm : Node → Node → Prop
  | accepting : MemberForm (.bool true) (.object {})
  | rejecting : MemberForm (.bool false) (.object { not := some (.object {}) })
  | object (k : Keywords Node) : MemberForm (.object k) (.object k)

theorem memberForm_asObject : ∀ node : Node, MemberForm node (asObject node)
  | .bool true => .accepting
  | .bool false => .rejecting
  | .object k => .object k

def memberPlace (ctx : Context) (index : Nat) : Context :=
  { ctx with path := ctx.path ++ [.key "allOf", .index index], suppressDefault := false }

theorem descend_allOf (ctx : Context) (index : Nat) : ctx.descend "allOf" (.index index) = memberPlace ctx index := by
  simp [Context.descend, Context.child, memberPlace]

/-- **Members that are compiled one after the other**, from an index on, each in the state that the one before it
left. -/
inductive Series (sub : Sub ω) (ctx : Context) : Nat → List Node → State ω → List Validator → State ω → Prop
  | nil (start : Nat) (s : State ω) : Series sub ctx start [] s [] s
  | cons {start : Nat} {member form : Node} {rest : List Node} {v : Validator} {vs : List Validator} {s u t : State ω} :
    MemberForm member form → Runs (sub.compile form (memberPlace ctx start)) s v u →
    Series sub ctx (start + 1) rest u vs t → Series sub ctx start (member :: rest) s (v :: vs) t

/-- **A series that fails**: some first members are compiled, and the next one fails. -/
def SeriesFails (sub : Sub ω) (ctx : Context) (start : Nat) (members : List Node) (s : State ω) (e : Error)
    (t : State ω) : Prop :=
  ∃ before failing after form vs u, members = before ++ failing :: after ∧ Series sub ctx start before s vs u ∧
    MemberForm failing form ∧ Fails (sub.compile form (memberPlace ctx (start + before.length))) u e t

theorem SeriesFails.cons {sub : Sub ω} {ctx : Context} {start : Nat} {member form : Node} {rest : List Node}
    {v : Validator} {s u t : State ω} {e : Error} (hform : MemberForm member form)
    (hv : Runs (sub.compile form (memberPlace ctx start)) s v u) (h : SeriesFails sub ctx (start + 1) rest u e t) :
    SeriesFails sub ctx start (member :: rest) s e t := by
  obtain ⟨before, failing, after, form', vs, u', rfl, hseries, hform', hfails⟩ := h
  refine ⟨member :: before, failing, after, form', v :: vs, u', rfl, .cons hform hv hseries, hform', ?_⟩
  rwa [List.length_cons, Nat.add_comm before.length, ← Nat.add_assoc]

theorem Series.length_eq {sub : Sub ω} {ctx : Context} {start : Nat} {members : List Node} {vs : List Validator}
    {s t : State ω} (h : Series sub ctx start members s vs t) : vs.length = members.length := by
  induction h with
  | nil => rfl
  | cons _ _ _ ih => rw [List.length_cons, List.length_cons, ih]

/-- **The members are compiled in a series.** -/
theorem runs_or_fails_compileEach (sub : Sub ω) (ctx : Context) : ∀ (members : List Node) (start : Nat) (s : State ω),
    (∃ vs t, Series sub ctx start members s vs t ∧
      Runs (sub.compileEach "allOf" ctx start (members.map asObject)) s vs t) ∨
    ∃ e t, SeriesFails sub ctx start members s e t ∧
      Fails (sub.compileEach "allOf" ctx start (members.map asObject)) s e t
  | [], start, s => .inl ⟨[], s, .nil start s, rfl⟩
  | member :: rest, start, s => by
    have hform := memberForm_asObject member
    rw [List.map_cons, Sub.compileEach, descend_allOf]
    -- Whatever fails, nothing behind it is compiled.
    rcases runs_or_fails (sub.compile (asObject member) (memberPlace ctx start)) s with ⟨v, u, hv⟩ | ⟨e, t, hfails⟩
    · rcases runs_or_fails_compileEach sub ctx rest (start + 1) u with ⟨vs, t, hseries, hvs⟩ | ⟨e, t, hseries, hfails⟩
      · exact .inl ⟨v :: vs, t, .cons hform hv hseries,
          runs_bind.2 ⟨v, u, hv, runs_bind.2 ⟨vs, t, hvs, runs_pure.2 ⟨rfl, rfl⟩⟩⟩⟩
      · exact .inr ⟨e, t, hseries.cons hform hv, fails_bind.2 (.inr ⟨v, u, hv, fails_bind.2 (.inl hfails)⟩)⟩
    · exact .inr ⟨e, t, ⟨[], member, rest, _, [], s, rfl, .nil start s, hform, hfails⟩, fails_bind.2 (.inl hfails)⟩

/-- **The members of `allOf` meet in a tree.**  Its leaves are what they are compiled to, in their order and each at its
index, and no leaf is deeper than the logarithm of their number; if members fail, the error is that of the first. -/
theorem allOf_meets_members (sub : Sub ω) {k : Keywords Node} (ctx : Context) {members : List Node}
    (hmembers : k.allOf = some members) (hne : members ≠ []) (s : State ω) :
    (∃ vs t tree, Series sub ctx 0 members s vs t ∧ Runs (compileAllOf sub k ctx) s (Meet.validator tree) t ∧
      tree.leaves.map Prod.fst = vs ∧ tree.leaves.length = members.length ∧
      ∀ l ∈ tree.leaves, l.2 ≤ Nat.clog 2 members.length) ∨
    ∃ e t, SeriesFails sub ctx 0 members s e t ∧ Fails (compileAllOf sub k ctx) s e t := by
  rw [compileAllOf_eq, hmembers, Option.getD_some]
  rcases runs_or_fails_compileEach sub ctx members 0 s with ⟨vs, t, hseries, hvs⟩ | ⟨e, t, hseries, hfails⟩
  · have hlength := hseries.length_eq
    have hvs' : vs ≠ [] := by
      intro hnil
      rw [hnil] at hlength
      exact hne (List.length_eq_zero_iff.1 hlength.symm)
    obtain ⟨tree, htree, hleaves, hdepth⟩ := exists_meet (Nat.clog 2 members.length) vs hvs'
      (hlength ▸ Nat.le_pow_clog Nat.one_lt_two _)
    refine .inl ⟨vs, t, tree, hseries, ?_, hleaves, ?_, hdepth⟩
    · exact runs_bind.2 ⟨vs, t, hvs, runs_pure.2 ⟨htree.symm, rfl⟩⟩
    · rw [← hlength, ← hleaves, List.length_map]
  · exact .inr ⟨e, t, hseries, fails_bind.2 (.inl hfails)⟩

def threeMembers : List Node := [.bool true, .bool false, .object { type := some (.single "string") }]

/-- **Members of which the last two fail.** -/
def failingMembers : List Node := [.bool false, .object { thenSchema := some Node.empty },
  .object { elseSchema := some Node.empty }]

def plainSub : Sub Unit where
  setup := {}
  raw := (standalone {} Node.empty).compileRaw 3 []
  refer _ _ := return Validator.any

def freshState : State Unit := ⟨PatternCache.empty, ()⟩

theorem allOf_meets_members_three :
    (∃ vs t tree, Series plainSub (Context.root {} none) 0 threeMembers freshState vs t ∧
      Runs (compileAllOf plainSub { allOf := some threeMembers } (Context.root {} none)) freshState
        (Meet.validator tree) t ∧
      tree.leaves.map Prod.fst = vs ∧ tree.leaves.length = 3 ∧ ∀ l ∈ tree.leaves, l.2 ≤ 2) ∧
    ∃ t, SeriesFails plainSub (Context.root {} none) 0 failingMembers freshState
      (.malformed "if" "`then`/`else` without `if`" [.key "allOf", .index 1]) t := by
  have hthree : ∃ v t, Runs (compileAllOf plainSub { allOf := some threeMembers } (Context.root {} none)) freshState
      v t := by
    rw [compileAllOf_eq]
    exact ⟨_, _, rfl⟩
  have hfailing : ∃ t, Fails (compileAllOf plainSub { allOf := some failingMembers } (Context.root {} none)) freshState
      (.malformed "if" "`then`/`else` without `if`" [.key "allOf", .index 1]) t := by
    rw [compileAllOf_eq]
    exact ⟨_, rfl⟩
  have hlog : Nat.clog 2 threeMembers.length = 2 := by decide
  constructor
  · rcases @allOf_meets_members _ plainSub { allOf := some threeMembers } (Context.root {} none) threeMembers rfl
      (List.cons_ne_nil _ _) freshState with ⟨vs, t, tree, hseries, hrun, hleaves, hlength, hdepth⟩ | ⟨e, t, _, hfails⟩
    · exact ⟨vs, t, tree, hseries, hrun, hleaves, hlength, hlog ▸ hdepth⟩
    · obtain ⟨v, u, hrun⟩ := hthree
      cases hrun.symm.trans hfails
  · obtain ⟨u, hknown⟩ := hfailing
    rcases @allOf_meets_members _ plainSub { allOf := some failingMembers } (Context.root {} none) failingMembers rfl
      (List.cons_ne_nil _ _) freshState with ⟨vs, t, tree, _, hrun, _⟩ | ⟨e, t, hseries, hfails⟩
    · cases hrun.symm.trans hknown
    · cases hknown.symm.trans hfails
      exact ⟨_, hseries⟩

end Compile
end Valgen
