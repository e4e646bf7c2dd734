import Valgen.Proofs.Validator.Texts
/-!
# Proofs.Validator.Returns — carriage returns in the text of a validator

Literals and JSON write a carriage return as an escape, and no plain text holds one.  Comments are the only texts of a
validator that hold what their user wrote without escapes, so that a validator written without comments has carriage
returns only where the texts have them that it takes over (`not_mem_return_validator`).
-/
namespace Valgen
namespace Render

open Lexer

theorem mem_of_mem_lines {cs line : List Char} (hline : line ∈ Text.lines cs) {c : Char} (hc : c ∈ line) : c ∈ cs := by
  fun_induction Text.lines cs generalizing line with
  | case1 => cases hline
  | case2 rest ih =>
    rcases List.mem_cons.1 hline with rfl | hline
    · cases hc
    · exact List.mem_cons_of_mem _ (List.mem_cons_of_mem _ (ih hline hc))
  | case3 rest ih =>
    rcases List.mem_cons.1 hline with rfl | hline
    · cases hc
    · exact List.mem_cons_of_mem _ (ih hline hc)
  | case4 d rest _ _ hlines ih =>
    rw [List.mem_singleton.1 hline] at hc
    rw [List.mem_singleton.1 hc]
    exact List.mem_cons_self
  | case5 d rest _ _ first more hlines ih =>
    rw [hlines] at ih
    rcases List.mem_cons.1 hline with rfl | hline
    · rcases List.mem_cons.1 hc with rfl | hc
      · exact List.mem_cons_self
      · exact List.mem_cons_of_mem _ (ih List.mem_cons_self hc)
    · exact List.mem_cons_of_mem _ (ih (List.mem_cons_of_mem _ hline) hc)

theorem not_mem_return_joined (width : Nat) {lines : List (List Char)} (h : ∀ line ∈ lines, '\r' ∉ line) :
    '\r' ∉ joined width lines := by
  cases lines with
  | nil => exact List.not_mem_nil
  | cons first rest =>
    simp only [joined, List.mem_append, List.mem_flatMap, List.mem_cons, not_or, not_exists, not_and]
    refine ⟨h first List.mem_cons_self, fun line hline => ⟨by decide, ?_⟩⟩
    split_ifs
    · exact List.not_mem_nil
    · intro hmem
      rcases List.mem_append.1 hmem with hmem | hmem
      · cases List.eq_of_mem_replicate hmem
      · exact h line (List.mem_cons_of_mem _ hline) hmem

theorem not_mem_return_reindent {text : String} (h : '\r' ∉ text.toList) (depth : Nat) :
    '\r' ∉ (Text.reindent text depth).toList := by
  unfold Text.reindent
  split
  · exact h
  · unfold Text.linesOf
    have hjoined := not_mem_return_joined (2 * depth) (fun line hline hc => h (mem_of_mem_lines hline hc))
    cases hlines : Text.lines text.toList with
    | nil => exact List.not_mem_nil
    | cons first rest =>
      rw [hlines] at hjoined
      simp only [List.map_cons]
      rw [toList_moved]
      exact hjoined

theorem not_mem_return_exactlyOne {members : String} (h : '\r' ∉ members.toList) :
    '\r' ∉ (exactlyOne members).toList := by
  unfold exactlyOne
  generalize hquote : Text.quote "Invalid input: Should pass exactly one schema" = quoted
  have hquoted : '\r' ∉ quoted.toList := hquote ▸ not_mem_of_any_isBreak (any_isBreak_quote _) rfl
  simp only [String.toList_append, List.mem_append, not_or]
  refine ⟨⟨⟨⟨⟨?_, h⟩, ?_⟩, ?_⟩, hquoted⟩, ?_⟩ <;> simp

/-- **The texts without a carriage return**, which are a kind if no comments are written. -/
def returnless {jsdocs : Bool} (hjsdocs : jsdocs = false) : TextKind jsdocs where
  Whole text := '\r' ∉ text.toList
  Part text := '\r' ∉ text.toList
  empty := List.not_mem_nil
  whole_of_part h := h
  part_append ha hb := by
    rw [String.toList_append]
    exact List.not_mem_append ha hb
  separated ha hbetween hb := by
    rw [String.toList_append, String.toList_append]
    exact List.not_mem_append (List.not_mem_append ha hbetween) hb
  plain _ hplain hreturn := absurd (List.all_eq_true.1 hplain _ hreturn) (by decide)
  bracketed hinner hpair htext := by
    rw [htext]
    rcases eq_of_closer? hpair with ⟨rfl, rfl⟩ | ⟨rfl, rfl⟩ | ⟨rfl, rfl⟩ <;> simp [hinner]
  quote s := not_mem_of_any_isBreak (any_isBreak_quote s) rfl
  jsonQuote s := not_mem_of_any_isBreak (any_isBreak_jsonQuote s) rfl
  comment _ h := absurd (hjsdocs.symm.trans h) (by decide)
  reindent depth h := not_mem_return_reindent h depth
  exactlyOne := not_mem_return_exactlyOne

/-- **The text of a validator has no carriage return** if no comments are written and the texts have none that it takes
over. -/
theorem not_mem_return_validator {style : Style} (hjsdocs : style.jsdocs = false) (depth : Nat) {v : Validator}
    (h : ∀ text ∈ v.fragments, '\r' ∉ text.toList) : '\r' ∉ (validator style depth v).toList :=
  whole_validator style (K := returnless hjsdocs) depth v h

end Render
end Valgen
