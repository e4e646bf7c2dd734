import Mathlib.Data.List.Forall2
import Valgen.Path.Pattern
/-!
# Proofs.Path.Cuts — patterns as ways to cut a path

A pattern fits a path if the path can be cut into stretches, one for each piece of the pattern, that the pieces take
(`Pattern.Cuts`).  The matcher goes through the pieces and tries every stretch for `**`; it succeeds exactly if there is
such a cut (`Pattern.matchesPath_iff`).  A cache of patterns answers the same, whatever was asked of it before and
whenever it was told to forget (`PatternCache.ask_iff_cuts`).
-/
namespace Valgen

/-- **A piece takes a stretch of a path**: a literal one step with its text, `*` any one step, `**` any steps. -/
inductive Piece.Takes : Piece → Path → Prop
  | literal {text : String} {step : Segment} : step.text = text → Takes (.literal text) [step]
  | one (step : Segment) : Takes .one [step]
  | many (steps : Path) : Takes .many steps

namespace Pattern

/-- **A path can be cut into stretches for the pieces of a pattern**, with nothing left over. -/
def Cuts (pattern : Pattern) (path : Path) : Prop :=
  ∃ stretches : List Path, List.Forall₂ Piece.Takes pattern stretches ∧ stretches.flatten = path

theorem cuts_nil {path : Path} : Cuts [] path ↔ path = [] := by
  constructor
  · rintro ⟨stretches, htakes, rfl⟩
    cases htakes
    rfl
  · rintro rfl
    exact ⟨[], .nil, rfl⟩

theorem cuts_cons {piece : Piece} {rest : Pattern} {path : Path} :
    Cuts (piece :: rest) path ↔ ∃ stretch tail, path = stretch ++ tail ∧ piece.Takes stretch ∧ rest.Cuts tail := by
  constructor
  · rintro ⟨stretches, htakes, rfl⟩
    cases htakes with
    | @cons _ stretch _ others hpiece hrest => exact ⟨stretch, others.flatten, rfl, hpiece, others, hrest, rfl⟩
  · rintro ⟨stretch, _, rfl, hpiece, others, hrest, rfl⟩
    exact ⟨stretch :: others, .cons hpiece hrest, rfl⟩

theorem cuts_literal {text : String} {rest : Pattern} {path : Path} :
    Cuts (.literal text :: rest) path ↔ ∃ step tail, path = step :: tail ∧ step.text = text ∧ rest.Cuts tail := by
  rw [cuts_cons]
  constructor
  · rintro ⟨_, tail, rfl, htakes, hrest⟩
    cases htakes with
    | literal htext => exact ⟨_, tail, rfl, htext, hrest⟩
  · rintro ⟨step, tail, rfl, htext, hrest⟩
    exact ⟨[step], tail, rfl, .literal htext, hrest⟩

theorem cuts_one {rest : Pattern} {path : Path} :
    Cuts (.one :: rest) path ↔ ∃ step tail, path = step :: tail ∧ rest.Cuts tail := by
  rw [cuts_cons]
  constructor
  · rintro ⟨_, tail, rfl, htakes, hrest⟩
    cases htakes with
    | one step => exact ⟨step, tail, rfl, hrest⟩
  · rintro ⟨step, tail, rfl, hrest⟩
    exact ⟨[step], tail, rfl, .one step, hrest⟩

/-- **Behind `**` the rest of the pattern may start anywhere**, at the end of the path too. -/
theorem cuts_many {rest : Pattern} {path : Path} :
    Cuts (.many :: rest) path ↔ ∃ n < path.length + 1, rest.Cuts (path.drop n) := by
  rw [cuts_cons]
  constructor
  · rintro ⟨stretch, tail, rfl, _, hrest⟩
    refine ⟨stretch.length, ?_, by rwa [List.drop_left]⟩
    rw [List.length_append]
    omega
  · rintro ⟨n, _, hrest⟩
    exact ⟨path.take n, path.drop n, (List.take_append_drop n path).symm, .many _, hrest⟩

/-- **The matcher finds a cut exactly if there is one.** -/
theorem matchesPath_iff (pattern : Pattern) (path : Path) : pattern.matchesPath path = true ↔ pattern.Cuts path := by
  induction pattern generalizing path with
  | nil => rw [matchesPath, List.isEmpty_iff, cuts_nil]
  | cons piece rest ih =>
    cases piece with
    | literal text =>
      rw [cuts_literal]
      cases path with
      | nil => simp [matchesPath]
      | cons step tail => simp [matchesPath, ih]
    | one =>
      rw [cuts_one]
      cases path with
      | nil => simp [matchesPath]
      | cons step tail => simp [matchesPath, ih]
    | many =>
      rw [cuts_many, matchesPath, List.any_eq_true]
      simp only [List.mem_range, ih]

end Pattern

namespace PatternCache

inductive Operation where
  | get (text : String)
  | ask (text : String) (path : Path)
  | clear
deriving DecidableEq, Repr

def perform (cache : PatternCache) : Operation → PatternCache
  | .get text => (cache.get text).2
  | .ask text path => (cache.ask text path).2
  | .clear => cache.clear

/-- **The cache after operations**, one after another. -/
def after (operations : List Operation) : PatternCache := operations.foldl perform empty

/-- **A cache says yes exactly if the path can be cut for the pattern**, after whatever operations. -/
theorem ask_iff_cuts (operations : List Operation) (text : String) (path : Path) :
    ((after operations).ask text path).1 = true ↔ (Pattern.parse text).Cuts path := by
  rw [ask_fst, Pattern.matchesPath_iff]

-- The first `a` is a wrong start for the rest of the pattern, so the stretch for `**` has to go on behind it.
example : ((after [.get "$.**.a.*.b", .clear, .ask "$..b" []]).ask "$.**.a.*.b"
    [.key "x", .key "a", .index 1, .key "a", .key "z", .key "b"]).1 = true := by
  decide +kernel

end PatternCache
end Valgen
