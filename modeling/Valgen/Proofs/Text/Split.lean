import Mathlib.Tactic.SplitIfs
import Valgen.Text.Split
/-!
# Proofs.Text.Split — texts put together and cut again

The pieces of a text hold no separator, and cutting a text that was put together from such pieces gives them back
(`splitAt_flatMap`).  A number written in decimal is read back (`decimal?_toString`).
-/
namespace Valgen
namespace Text

theorem dropStart_eq_some_iff : ∀ {start cs rest : List Char}, dropStart start cs = some rest ↔ cs = start ++ rest
  | [], cs, rest => by simp [dropStart]
  | s :: start, [], rest => by simp [dropStart]
  | s :: start, c :: cs, rest => by
    rw [dropStart]
    split_ifs with heq
    · simp [heq, dropStart_eq_some_iff]
    · simp [Ne.symm heq]

theorem not_mem_of_mem_splitAt {sep : Char} : ∀ {cs piece : List Char}, piece ∈ splitAt sep cs → sep ∉ piece
  | [], _, h => by
    rw [splitAt, List.mem_singleton] at h
    simp [h]
  | c :: rest, piece, h => by
    rw [splitAt] at h
    split at h
    · rcases List.mem_cons.1 h with rfl | hrest
      · exact List.not_mem_nil
      · exact not_mem_of_mem_splitAt hrest
    · rename_i hc
      have hcons : ∀ {first}, sep ∉ first → sep ∉ c :: first := by
        intro first hfirst hmem
        rcases List.mem_cons.1 hmem with heq | hmem
        · exact hc heq.symm
        · exact hfirst hmem
      split at h
      · rw [List.mem_singleton.1 h]
        exact hcons List.not_mem_nil
      · rename_i first more hsplit
        rcases List.mem_cons.1 h with rfl | hmore
        · exact hcons (not_mem_of_mem_splitAt (hsplit ▸ List.mem_cons_self))
        · exact not_mem_of_mem_splitAt (hsplit ▸ List.mem_cons_of_mem _ hmore)

theorem splitAt_of_not_mem {sep : Char} : ∀ {cs : List Char}, sep ∉ cs → splitAt sep cs = [cs]
  | [], _ => rfl
  | c :: cs, h => by
    obtain ⟨hc, hcs⟩ := List.ne_and_not_mem_of_not_mem_cons h
    rw [splitAt, if_neg (Ne.symm hc), splitAt_of_not_mem hcs]

theorem splitAt_append {sep : Char} {rest : List Char} :
    ∀ {cs : List Char}, sep ∉ cs → splitAt sep (cs ++ sep :: rest) = cs :: splitAt sep rest
  | [], _ => by rw [List.nil_append, splitAt, if_pos rfl]
  | c :: cs, h => by
    obtain ⟨hc, hcs⟩ := List.ne_and_not_mem_of_not_mem_cons h
    rw [List.cons_append, splitAt, if_neg (Ne.symm hc), splitAt_append hcs]

/-- **Pieces with a separator before each but the first are found again.** -/
theorem splitAt_flatMap {sep : Char} : ∀ {pieces : List (List Char)} {first : List Char}, sep ∉ first →
    (∀ piece ∈ pieces, sep ∉ piece) → splitAt sep (first ++ pieces.flatMap (sep :: ·)) = first :: pieces
  | [], first, hfirst, _ => by rw [List.flatMap_nil, List.append_nil, splitAt_of_not_mem hfirst]
  | piece :: rest, first, hfirst, hpieces => by
    obtain ⟨hpiece, hrest⟩ := List.forall_mem_cons.1 hpieces
    rw [List.flatMap_cons, List.cons_append, splitAt_append hfirst, splitAt_flatMap hpiece hrest]

/-! ## Numbers -/

theorem decimal?_toDigits (n : Nat) : decimal? (Nat.toDigits 10 n) = some n := by
  have hdigit : ∀ c ∈ Nat.toDigits 10 n, c.isDigit = true := fun c hc =>
    Nat.isDigit_of_mem_toDigits (by decide) (by decide) hc
  have hsign : ∀ rest, Nat.toDigits 10 n ≠ '+' :: rest := by
    intro rest heq
    exact absurd (hdigit '+' (heq ▸ List.mem_cons_self)) (by decide)
  have hdecimal : decimal? (Nat.toDigits 10 n) = some (Nat.ofDigitChars 10 (Nat.toDigits 10 n) 0) := by
    unfold decimal?
    split
    · rename_i rest heq
      exact absurd heq (hsign rest)
    · rw [if_neg]
      simpa [Nat.toDigits_ne_nil] using hdigit
  rw [hdecimal, Nat.ofDigitChars_toDigits (by decide) (by decide)]

/-- **A number written in decimal is read back.** -/
theorem decimal?_toString (n : Nat) : decimal? (toString n).toList = some n := by
  rw [Nat.toString_eq_ofList_toDigits, String.toList_ofList, decimal?_toDigits]

end Text
end Valgen
