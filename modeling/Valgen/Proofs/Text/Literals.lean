import Mathlib.Tactic.SplitIfs
import Valgen.Text.Quoted
/-!
# Proofs.Text.Literals — what a string literal stands for

`unescape?` reads the body of a double-quoted literal: the escapes of quotes, backslashes and control characters, four
hexadecimal digits behind `\u`, and every other character for itself.  What `escape` writes is read back
(`unescape?_escape`), so that a literal stands for the text it was written for.
-/
namespace Valgen
namespace Text

def hexDigit? (c : Char) : Option Nat :=
  if '0' ≤ c ∧ c ≤ '9' then some (c.toNat - 48)
  else if 'a' ≤ c ∧ c ≤ 'f' then some (c.toNat - 87)
  else if 'A' ≤ c ∧ c ≤ 'F' then some (c.toNat - 55)
  else none

/-- **The number that hexadecimal digits write**, behind another. -/
def hexNumber? (start : Nat) (digits : List Char) : Option Nat :=
  digits.foldlM (fun n c => (hexDigit? c).map (fun d => 16 * n + d)) start

/-- **The character of a code**, unless the code is half of a pair. -/
def ofCode? (code : Nat) : Option Char := if code.isValidChar then some (Char.ofNat code) else none

/-- **The character for which another one stands behind a backslash.**  Octal and short hexadecimal escapes and line
breaks are not read. -/
def escaped? (c : Char) : Option Char :=
  if c = 'n' then some '\n'
  else if c = 'r' then some '\r'
  else if c = 't' then some '\t'
  else if c = 'b' then some '\x08'
  else if c = 'v' then some '\x0b'
  else if c = 'f' then some '\x0c'
  else if c = 'u' ∨ c = 'x' ∨ c = '\n' ∨ c = '\r' ∨ ('0' ≤ c ∧ c ≤ '9') then none
  else some c

/-- **What the body of a literal stands for.** -/
def unescape? : List Char → Option (List Char)
  | [] => some []
  | '\\' :: 'u' :: a :: b :: c :: d :: rest =>
    ((hexNumber? 0 [a, b, c, d]).bind ofCode?).bind (fun e => (unescape? rest).map (fun cs => e :: cs))
  | '\\' :: c :: rest => (escaped? c).bind (fun e => (unescape? rest).map (fun cs => e :: cs))
  | c :: rest => if c = '\\' ∨ c = '"' ∨ c = '\n' ∨ c = '\r' then none else (unescape? rest).map (fun cs => c :: cs)

example : unescape? "a\\u0042\\n\\\"".toList = some "aB\n\"".toList := by decide
example : unescape? "a\"b".toList = none ∧ unescape? "\\ud800".toList = none := by decide

theorem hexNumber?_hex4 {n : Nat} (h : n < 0x20 ∨ n = 0x2028 ∨ n = 0x2029) : hexNumber? 0 (hex4 n) = some n := by
  have hsmall : ∀ m < 0x20, hexNumber? 0 (hex4 m) = some m := by decide
  rcases h with h | rfl | rfl
  · exact hsmall n h
  · decide
  · decide

theorem exists_hex4 {n : Nat} (h : n < 0x20 ∨ n = 0x2028 ∨ n = 0x2029) : ∃ a b c d, hex4 n = [a, b, c, d] := by
  have hsmall : ∀ m < 0x20, (hex4 m).length = 4 := by decide
  have hlength : (hex4 n).length = 4 := by
    rcases h with h | rfl | rfl
    · exact hsmall n h
    · decide
    · decide
  match hex4 n, hlength with
  | [a, b, c, d], _ => exact ⟨a, b, c, d, rfl⟩

theorem ofCode?_toNat (c : Char) : ofCode? c.toNat = some c := by
  rw [ofCode?, if_pos (show c.toNat.isValidChar from c.valid), Char.ofNat_toNat]

theorem unescape?_cons {c : Char} (hslash : c ≠ '\\') (rest : List Char) :
    unescape? (c :: rest) =
      if c = '\\' ∨ c = '"' ∨ c = '\n' ∨ c = '\r' then none else (unescape? rest).map (fun cs => c :: cs) := by
  rw [unescape?]
  · exact fun _ _ _ _ _ h => absurd h hslash
  · exact fun _ _ h => absurd h hslash

/-- **The escape of a character stands for it.** -/
theorem unescape?_escapeChar (c : Char) (rest : List Char) :
    unescape? (escapeChar c ++ rest) = (unescape? rest).map (fun cs => c :: cs) := by
  have hsimple : ∀ {d e : Char}, d ≠ 'u' → escaped? d = some e →
      unescape? ('\\' :: d :: rest) = (unescape? rest).map (fun cs => e :: cs) := by
    intro d e hd he
    rw [unescape?, he, Option.bind_some]
    exact fun _ _ _ _ _ h => absurd h hd
  unfold escapeChar
  split_ifs with hquote hslash hfeed hreturn htab hother
  · subst hquote
    exact hsimple (by decide) rfl
  · subst hslash
    exact hsimple (by decide) rfl
  · subst hfeed
    exact hsimple (by decide) rfl
  · subst hreturn
    exact hsimple (by decide) rfl
  · subst htab
    exact hsimple (by decide) rfl
  · obtain ⟨a, b, d, e, hdigits⟩ := exists_hex4 hother
    have hnumber := hexNumber?_hex4 hother
    rw [hdigits] at hnumber ⊢
    show unescape? ('\\' :: 'u' :: a :: b :: d :: e :: rest) = _
    rw [unescape?, hnumber, Option.bind_some, ofCode?_toNat, Option.bind_some]
  · rw [List.singleton_append, unescape?_cons hslash, if_neg]
    simp only [hslash, hquote, hfeed, hreturn, or_self, not_false_eq_true]

/-- **What is written as a literal is read back.** -/
theorem unescape?_escape (cs : List Char) : unescape? (escape cs) = some cs := by
  induction cs with
  | nil => rfl
  | cons c rest ih =>
    rw [escape, List.flatMap_cons, unescape?_escapeChar]
    exact congrArg (Option.map (fun cs => c :: cs)) ih

end Text
end Valgen
