import Mathlib.Tactic.SplitIfs
import Valgen.Name
/-!
# Proofs.Name — safe identifiers

`safeIdentifier` gives an identifier that is not reserved, whatever text it is given; hence it leaves what it gave as it
is.
-/
namespace Valgen
namespace Name

theorem not_mem_underscore : ∀ word ∈ reservedWords, '_' ∉ word.toList := by decide +kernel

theorem isReserved_of_mem_underscore {s : String} (h : '_' ∈ s.toList) : isReserved s = false := by
  unfold isReserved
  rw [List.contains_eq_mem, decide_eq_false_iff_not]
  exact fun hmem => not_mem_underscore s hmem h

theorem isReserved_safeIdentifier (s : String) : isReserved (safeIdentifier s) = false := by
  unfold safeIdentifier
  split
  · rename_i hplain
    simpa using (Bool.and_eq_true_iff.1 hplain).2
  · dsimp only
    split
    · exact isReserved_of_mem_underscore (by simp)
    · rename_i hfine
      simp only [needsUnderscore, Bool.or_eq_true, not_or, Bool.not_eq_true] at hfine
      exact hfine.2

theorem ne_z_of_not_reserved {s : String} (h : isReserved s = false) : s ≠ "z" := by
  rintro rfl
  exact absurd h (by decide)

/-! ## Identifiers -/

theorem isStart_of_isContinue {c : Char} (h : isContinue c = true) (hdigit : c.isDigit = false) : isStart c = true := by
  unfold isContinue Char.isAlphanum at h
  unfold isStart
  rwa [hdigit, Bool.or_false] at h

theorem isContinue_of_isStart {c : Char} (h : isStart c = true) : isContinue c = true := by
  unfold isStart at h
  unfold isContinue Char.isAlphanum
  rw [Bool.or_eq_true, Bool.or_eq_true] at h ⊢
  exact h.imp_left (fun hc => hc.imp_left (fun halpha => Bool.or_eq_true_iff.2 (.inl halpha)))

/-- **An identifier has no other characters than it may go on with.** -/
theorem isContinue_of_mem {s : String} (h : isIdentifier s = true) {c : Char} (hc : c ∈ s.toList) :
    isContinue c = true := by
  unfold isIdentifier at h
  split at h
  · cases h
  · rename_i first rest hlist
    obtain ⟨hstart, hcontinue⟩ := Bool.and_eq_true_iff.1 h
    rw [hlist] at hc
    rcases List.mem_cons.1 hc with rfl | hrest
    · exact isContinue_of_isStart hstart
    · exact List.all_eq_true.1 hcontinue c hrest

theorem all_isContinue_replaceForeign (cs : List Char) : (replaceForeign cs).all isContinue = true := by
  rw [List.all_eq_true]
  intro c hc
  obtain ⟨d, _, rfl⟩ := List.mem_map.1 hc
  split
  · assumption
  · rfl

theorem isIdentifier_safeIdentifier (s : String) : isIdentifier (safeIdentifier s) = true := by
  unfold safeIdentifier
  split
  · rename_i hplain
    exact (Bool.and_eq_true_iff.1 hplain).1
  · have hall := all_isContinue_replaceForeign s.toList
    unfold isIdentifier
    rw [String.toList_ofList]
    split_ifs with hneeds
    · exact Bool.and_eq_true_iff.2 ⟨rfl, hall⟩
    · -- A text that needs no `_` has a first character, and that is no digit.
      simp only [needsUnderscore, Bool.or_eq_true, not_or, Bool.not_eq_true] at hneeds
      cases hcs : replaceForeign s.toList with
      | nil => simp [hcs] at hneeds
      | cons c cs =>
        rw [hcs, List.all_cons, Bool.and_eq_true_iff] at hall
        have hdigit : c.isDigit = false := by simpa [hcs] using hneeds.1.2
        exact Bool.and_eq_true_iff.2 ⟨isStart_of_isContinue hall.1 hdigit, hall.2⟩

/-- **A safe identifier is its own safe identifier.** -/
theorem safeIdentifier_safeIdentifier (s : String) : safeIdentifier (safeIdentifier s) = safeIdentifier s := by
  rw [safeIdentifier, isIdentifier_safeIdentifier, isReserved_safeIdentifier]
  rfl

end Name
end Valgen
