import Valgen.Proofs.Compile.Runs
/-!
# Proofs.Compile.Halving — the members of `allOf` one after the other

The members of `allOf` are compiled half by half, and each half in its turn.  That is to compile them one after the
other, from the first to the last, and then to intersect what they are compiled to as a balanced tree (`balanced`): the
recursion on the halves is led back to a loop and a fold (`compileAllOf_eq`), which say the same of every state.
-/
namespace Valgen
namespace Compile

open Schema (Keywords Node)

variable {ω : Type}

/-- **The intersection of validators as a balanced tree.** -/
def balanced : List Validator → Validator
  | [] => Validator.never
  | [v] => v
  | v :: w :: rest =>
    let vs := v :: w :: rest
    let half := vs.length / 2
    Validator.ofBase (.intersection (balanced (vs.take half)) (balanced (vs.drop half)))
termination_by vs => vs.length
decreasing_by
  · simp only [List.length_take, List.length_cons]; omega
  · simp only [List.length_drop, List.length_cons]; omega

theorem balanced_of_two_le {vs : List Validator} (h : 2 ≤ vs.length) : balanced vs = Validator.ofBase
    (.intersection (balanced (vs.take (vs.length / 2))) (balanced (vs.drop (vs.length / 2)))) := by
  cases vs with
  | nil => cases h
  | cons v rest =>
    cases rest with
    | nil => simp at h
    | cons w rest => rw [balanced]

theorem balanced_append {vs ws : List Validator} (htwo : 2 ≤ (vs ++ ws).length)
    (hhalf : (vs ++ ws).length / 2 = vs.length) :
    balanced (vs ++ ws) = Validator.ofBase (.intersection (balanced vs) (balanced ws)) := by
  rw [balanced_of_two_le htwo, hhalf, List.take_left, List.drop_left]

/-! ## The loop -/

theorem compileEach_append (sub : Sub ω) (keyword : String) (ctx : Context) :
    ∀ (before after : List Node) (start : Nat),
    sub.compileEach keyword ctx start (before ++ after) = (do
      let vs ← sub.compileEach keyword ctx start before
      let ws ← sub.compileEach keyword ctx (start + before.length) after
      return vs ++ ws)
  | [], after, start => by simp [Sub.compileEach]
  | node :: before, after, start => by
    have hplace : start + (node :: before).length = start + 1 + before.length := by
      rw [List.length_cons]
      omega
    rw [List.cons_append, Sub.compileEach, Sub.compileEach, hplace, compileEach_append sub keyword ctx before after]
    simp only [bind_assoc, pure_bind, List.cons_append]

theorem length_of_runs_compileEach {sub : Sub ω} {keyword : String} {ctx : Context} : ∀ {nodes : List Node}
    {start : Nat} {s t : State ω} {vs : List Validator}, Runs (sub.compileEach keyword ctx start nodes) s vs t →
      vs.length = nodes.length
  | [], _, _, _, _, h => by
    obtain ⟨rfl, _⟩ := runs_pure.1 h
    rfl
  | node :: rest, _, _, _, _, h => by
    obtain ⟨v, _, _, h⟩ := runs_bind.1 h
    obtain ⟨vs, _, hvs, h⟩ := runs_bind.1 h
    obtain ⟨rfl, _⟩ := runs_pure.1 h
    rw [List.length_cons, List.length_cons, length_of_runs_compileEach hvs]

/-! ## The recursion on halves -/

theorem intersect_append (sub : Sub ω) (ctx : Context) {left right : List (Node × Nat)}
    (htwo : 2 ≤ (left ++ right).length) (hhalf : (left ++ right).length / 2 = left.length) :
    intersect sub ctx (left ++ right) = (do
      let v ← intersect sub ctx left
      let w ← intersect sub ctx right
      return Validator.ofBase (.intersection v w)) := by
  have hsplit : ∀ members : List (Node × Nat), 2 ≤ members.length → intersect sub ctx members = (do
      let v ← intersect sub ctx (members.take (members.length / 2))
      let w ← intersect sub ctx (members.drop (members.length / 2))
      return Validator.ofBase (.intersection v w)) := by
    intro members h
    match members, h with
    | first :: second :: rest, _ => rw [intersect]
  rw [hsplit _ htwo, hhalf, List.take_left, List.drop_left]

/-- **The members half by half are the members one after the other**: by induction on their number. -/
theorem intersect_zipIdx (sub : Sub ω) (ctx : Context) (nodes : List Node) (start : Nat) :
    intersect sub ctx (nodes.zipIdx start) = (do
      let vs ← sub.compileEach "allOf" ctx start nodes
      return balanced vs) := by
  induction hlength : nodes.length using Nat.strongRecOn generalizing nodes start with
  | ind n ih =>
    obtain hnone | hone | htwo : n = 0 ∨ n = 1 ∨ 2 ≤ n := by omega
    · obtain rfl := List.length_eq_zero_iff.1 (hlength.trans hnone)
      simp [intersect, Sub.compileEach, balanced]
    · obtain ⟨node, rfl⟩ := List.length_eq_one_iff.1 (hlength.trans hone)
      simp [intersect, Sub.compileEach, balanced]
    · obtain ⟨left, right, rfl, hleft⟩ : ∃ left right, nodes = left ++ right ∧ left.length = n / 2 :=
        ⟨_, _, (List.take_append_drop (n / 2) nodes).symm, by rw [List.length_take]; omega⟩
      rw [List.length_append] at hlength
      rw [List.zipIdx_append, intersect_append sub ctx (by simp; omega) (by simp; omega),
        ih left.length (by omega) left start rfl, ih right.length (by omega) right _ rfl, compileEach_append]
      simp only [bind_assoc, pure_bind]
      refine bind_congr_of_runs (fun s vs t hvs => bind_congr_of_runs (fun s' ws t' hws => ?_))
      have hvs' := length_of_runs_compileEach hvs
      have hws' := length_of_runs_compileEach hws
      rw [balanced_append (by rw [List.length_append]; omega) (by rw [List.length_append]; omega)]

theorem compileAllOf_eq (sub : Sub ω) (k : Keywords Node) (ctx : Context) : compileAllOf sub k ctx = (do
    let vs ← sub.compileEach "allOf" ctx 0 ((k.allOf.getD []).map asObject)
    return balanced vs) := by
  rw [← intersect_zipIdx, List.zipIdx_map]
  rfl

end Compile
end Valgen
