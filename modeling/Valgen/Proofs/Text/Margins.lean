import Mathlib.Data.List.Chain
import Valgen.Proofs.Text.Lexer
/-!
# Proofs.Text.Margins — text that is moved to the right

Moving a text to the right puts a margin behind each of its line feeds, unless the line behind it is empty
(`shifted`).  Margins add up (`shifted_shifted`), and texts may be moved piece by piece where no line feed is cut off
from its line (`shifted_append`).  Cutting a text into lines and putting them together again moves it in the same way,
if it is `Tidy`: then no line loses a carriage return, and no line feed is lost at the end (`toList_reindent`).
-/
namespace Valgen
namespace Text

open Lexer (isBreak)

/-- **The margin behind a line feed**, before a line that is not empty. -/
def margin (width : Nat) (line : List Char) : List Char :=
  if line.head?.getD '\n' = '\n' then [] else List.replicate width ' '

/-- **A text with a margin behind its line feeds.** -/
def shifted (width : Nat) : List Char → List Char
  | [] => []
  | c :: rest => c :: ((if c = '\n' then margin width rest else []) ++ shifted width rest)

variable {width : Nat} {cs : List Char}

theorem margin_congr {line other : List Char} (h : line.head? = other.head?) :
    margin width line = margin width other := by
  rw [margin, margin, h]

theorem shifted_cons_of_ne {c : Char} (hc : c ≠ '\n') : shifted width (c :: cs) = c :: shifted width cs := by
  rw [shifted, if_neg hc, List.nil_append]

theorem shifted_feed (width : Nat) (cs : List Char) :
    shifted width ('\n' :: cs) = '\n' :: (margin width cs ++ shifted width cs) := by
  rw [shifted, if_pos rfl]

theorem head?_shifted (cs : List Char) : (shifted width cs).head? = cs.head? := by
  cases cs <;> rfl

theorem getLast?_shifted (cs : List Char) : (shifted width cs).getLast? = cs.getLast? := by
  induction cs with
  | nil => rfl
  | cons c rest ih =>
    cases rest with
    | nil =>
      rw [shifted, shifted, List.append_nil]
      split_ifs <;> rfl
    | cons d rest =>
      have hne : shifted width (d :: rest) ≠ [] := List.cons_ne_nil _ _
      rw [shifted, List.getLast?_cons_cons, ← ih, ← List.cons_append, List.getLast?_append_of_ne_nil _ hne]

theorem mem_shifted {c : Char} (h : c ∈ shifted width cs) : c = ' ' ∨ c ∈ cs := by
  induction cs with
  | nil => cases h
  | cons d rest ih =>
    have hmargin : ∀ c ∈ margin width rest, c = ' ' := by
      intro c hc
      unfold margin at hc
      split_ifs at hc
      · cases hc
      · exact List.eq_of_mem_replicate hc
    rw [shifted, List.mem_cons, List.mem_append] at h
    rcases h with rfl | hc | hc
    · exact .inr List.mem_cons_self
    · split_ifs at hc
      · exact .inl (hmargin c hc)
      · cases hc
    · exact (ih hc).imp_right (List.mem_cons_of_mem d)

/-- **Text without line feeds stays where it is.** -/
theorem shifted_of_not_mem (h : '\n' ∉ cs) : shifted width cs = cs := by
  induction cs with
  | nil => rfl
  | cons c rest ih =>
    rw [shifted_cons_of_ne (fun hc => h (hc ▸ List.mem_cons_self)), ih (fun hmem => h (List.mem_cons_of_mem _ hmem))]

theorem shifted_zero (cs : List Char) : shifted 0 cs = cs := by
  induction cs with
  | nil => rfl
  | cons c rest ih => simp [shifted, margin, ih]

/-- **Text is moved piece by piece**, unless a line feed is cut off from its line. -/
theorem shifted_append {a : List Char} (h : a.getLast? ≠ some '\n') (b : List Char) :
    shifted width (a ++ b) = shifted width a ++ shifted width b := by
  induction a with
  | nil => rfl
  | cons c rest ih =>
    cases rest with
    | nil =>
      have hc : c ≠ '\n' := fun hc => h (congrArg some hc)
      rw [List.singleton_append, shifted_cons_of_ne hc, shifted_cons_of_ne hc]
      rfl
    | cons d rest =>
      rw [List.getLast?_cons_cons] at h
      rw [List.cons_append, shifted, ih h, ← List.append_assoc, margin_congr (List.head?_append_of_ne_nil _ (by simp))]
      rfl

theorem shifted_replicate_append (n : Nat) (cs : List Char) :
    shifted width (List.replicate n ' ' ++ cs) = List.replicate n ' ' ++ shifted width cs := by
  induction n with
  | zero => rfl
  | succ n ih =>
    rw [List.replicate_succ, List.cons_append, shifted_cons_of_ne (by decide), ih, List.cons_append]

/-- **A line behind a margin gets the margin more.** -/
theorem shifted_line (n : Nat) {line : List Char} (h : line.head?.getD '\n' ≠ '\n') :
    shifted width ('\n' :: (List.replicate n ' ' ++ line)) =
      '\n' :: (List.replicate (n + width) ' ' ++ shifted width line) := by
  have hfirst : (List.replicate n ' ' ++ line).head?.getD '\n' ≠ '\n' := by
    cases n with
    | zero => exact h
    | succ n => simp [List.replicate_succ]
  rw [shifted_feed, margin, if_neg hfirst, shifted_replicate_append, ← List.append_assoc,
    List.replicate_append_replicate, Nat.add_comm]

/-- **Margins add up.** -/
theorem shifted_shifted (width more : Nat) (cs : List Char) :
    shifted more (shifted width cs) = shifted (width + more) cs := by
  induction cs with
  | nil => rfl
  | cons c rest ih =>
    by_cases hc : c = '\n'
    · subst hc
      rw [shifted_feed _ rest, shifted_feed _ rest, ← ih]
      by_cases hempty : rest.head?.getD '\n' = '\n'
      · have hnone : ∀ {n : Nat}, margin n rest = [] := if_pos hempty
        rw [hnone, hnone, List.nil_append, shifted_feed, margin_congr (head?_shifted rest), hnone]
      · have hmargin : ∀ {n : Nat}, margin n rest = List.replicate n ' ' := if_neg hempty
        rw [hmargin, hmargin, shifted_line width (by rwa [head?_shifted])]
    · rw [shifted_cons_of_ne hc, shifted_cons_of_ne hc, shifted_cons_of_ne hc, ih]

/-! ## Lines -/

/-- **A text that its lines give back**: no line of it ends in a carriage return, and it ends in no line break. -/
structure Tidy (cs : List Char) : Prop where
  unbroken : cs.IsChain (fun c d => c = '\r' → d ≠ '\n')
  ending : ∀ c ∈ cs.getLast?, isBreak c = false

namespace Tidy

theorem nil : Tidy [] := ⟨.nil, fun _ h => by cases h⟩

theorem append {a b : List Char} (ha : Tidy a) (hb : Tidy b) : Tidy (a ++ b) := by
  refine ⟨List.isChain_append.2 ⟨ha.unbroken, hb.unbroken, fun c hc d _ hreturn => ?_⟩, fun c hc => ?_⟩
  · rw [hreturn] at hc
    cases ha.ending _ hc
  · cases hlast : b.getLast? with
    | none =>
      rw [List.getLast?_eq_none_iff.1 hlast, List.append_nil] at hc
      exact ha.ending c hc
    | some d =>
      rw [List.getLast?_append, hlast] at hc
      exact hb.ending c (hlast ▸ hc)

theorem of_not_mem_feed (h : '\n' ∉ cs) (hlast : cs.getLast? ≠ some '\r') : Tidy cs := by
  refine ⟨?_, fun c hc => ?_⟩
  · refine List.Pairwise.isChain (List.pairwise_iff_forall_sublist.2 (fun hsub _ hd => ?_))
    exact h (hd ▸ hsub.subset (List.mem_cons_of_mem _ List.mem_cons_self))
  · have hfeed : c ≠ '\n' := fun heq => h (heq ▸ List.mem_of_mem_getLast? hc)
    have hreturn : c ≠ '\r' := fun heq => hlast (heq ▸ hc)
    simp [isBreak, hfeed, hreturn]

theorem of_not_mem_return (h : '\r' ∉ cs) (hlast : cs.getLast? ≠ some '\n') : Tidy cs := by
  refine ⟨?_, fun c hc => ?_⟩
  · refine List.Pairwise.isChain (List.pairwise_iff_forall_sublist.2 (fun hsub hc _ => ?_))
    exact h (hc ▸ hsub.subset List.mem_cons_self)
  · have hfeed : c ≠ '\n' := fun heq => hlast (heq ▸ hc)
    have hreturn : c ≠ '\r' := fun heq => h (heq ▸ List.mem_of_mem_getLast? hc)
    simp [isBreak, hfeed, hreturn]

theorem feed_cons (h : Tidy cs) (hne : cs ≠ []) : Tidy ('\n' :: cs) := by
  refine ⟨List.isChain_cons.2 ⟨fun _ _ hreturn => absurd hreturn (by decide), h.unbroken⟩, ?_⟩
  rw [List.getLast?_cons_of_ne_nil hne]
  exact h.ending

theorem getLast?_ne (h : Tidy cs) : cs.getLast? ≠ some '\n' := fun hlast => by cases h.ending _ hlast

end Tidy

/-- **The first line is empty exactly if there is none or the text begins with a line feed.** -/
theorem lines_head_eq_nil {line : List Char} {more : List (List Char)} (h : lines cs = line :: more)
    (htidy : cs.IsChain (fun c d => c = '\r' → d ≠ '\n')) : line = [] ↔ cs.head?.getD '\n' = '\n' := by
  unfold lines at h
  split at h
  · cases h
  · exact absurd rfl ((List.isChain_cons_cons.1 htidy).1 rfl)
  · cases h
    simp
  · rename_i c rest _ hfeed
    have hc : c ≠ '\n' := hfeed
    split at h <;> cases h <;> simp [hc]

/-- **The lines of a tidy text, put together behind a margin, are the text moved to the right.** -/
theorem joined_lines (width : Nat) (h : Tidy cs) : Lexer.joined width (lines cs) = shifted width cs := by
  obtain ⟨hunbroken, hending⟩ := h
  fun_induction lines cs with
  | case1 => rfl
  | case2 rest ih => exact absurd rfl ((List.isChain_cons_cons.1 hunbroken).1 rfl)
  | case3 rest ih =>
    cases rest with
    | nil => cases hending '\n' rfl
    | cons d rest =>
      rw [List.getLast?_cons_cons] at hending
      have htail := (List.isChain_cons_cons.1 hunbroken).2
      have hrest := ih htail hending
      cases hlines : lines (d :: rest) with
      | nil => exact absurd (Lexer.lines_eq_nil_iff.1 hlines) (List.cons_ne_nil _ _)
      | cons line more =>
        have hempty := lines_head_eq_nil hlines htail
        rw [hlines] at hrest
        rw [shifted_feed, ← hrest, margin]
        simp only [Lexer.joined, List.flatMap_cons, List.nil_append, ← hempty]
        split_ifs with hline
        · rw [hline]
          rfl
        · rw [List.cons_append, List.append_assoc]
  | case4 c rest _ hfeed hlines ih =>
    have hc : c ≠ '\n' := hfeed
    rw [Lexer.lines_eq_nil_iff.1 hlines, shifted_cons_of_ne hc]
    rfl
  | case5 c rest hreturn hfeed line more hlines ih =>
    have hc : c ≠ '\n' := hfeed
    have hne : rest ≠ [] := fun hnil => by
      rw [hnil] at hlines
      cases hlines
    rw [List.getLast?_cons_of_ne_nil hne] at hending
    rw [Lexer.joined_cons_cons, ← hlines, ih hunbroken.tail hending, shifted_cons_of_ne hc]

/-- **A tidy block of text at a deeper margin.** -/
theorem toList_reindent {text : String} (h : Tidy text.toList) (depth : Nat) :
    (reindent text depth).toList = shifted (2 * depth) text.toList := by
  unfold reindent
  split
  · rename_i hstays
    rcases hstays with rfl | hfeed
    · exact (shifted_zero _).symm
    · exact (shifted_of_not_mem hfeed).symm
  · have hjoined := joined_lines (2 * depth) h
    unfold linesOf
    cases hlines : lines text.toList with
    | nil =>
      rw [Lexer.lines_eq_nil_iff.1 hlines]
      rfl
    | cons first rest =>
      rw [hlines] at hjoined
      simp only [List.map_cons]
      rw [Lexer.toList_moved, hjoined]

end Text
end Valgen
