import Valgen.Proofs.Text.Lexer
import Valgen.Proofs.Text.Literals
/-!
# Proofs.Text.Values — the values of string literals

A string is a list of code units (`units`), and a literal stands for one (`Denotes`): a character stands for its own
units, and behind a backslash there is an escape (`Escape`).  The escapes are those of all scripts, strict or not, and
are read without looking ahead, so that a literal with escapes may have more values here than the one it is given.

An escape with its backslash is longer than what it stands for, so that no literal with escapes stands for its own
text (`Denotes.eq_or_lt`).  Hence text between quotes stands for itself exactly if all its characters do
(`firstLiteral_iff`).
-/
namespace Valgen
namespace Text

open Lexer (isLiteral)

/-! ## Code units -/

/-- **The code units of a code point**: one, or the two halves of a pair. -/
def codeUnits (code : Nat) : List Nat :=
  if code < 0x10000 then [code] else [0xD800 + (code - 0x10000) / 0x400, 0xDC00 + (code - 0x10000) % 0x400]

def units (cs : List Char) : List Nat := cs.flatMap (fun c => codeUnits c.toNat)

theorem length_codeUnits (code : Nat) : (codeUnits code).length = 1 ∨ (codeUnits code).length = 2 := by
  unfold codeUnits
  split
  · exact .inl rfl
  · exact .inr rfl

@[simp] theorem units_nil : units [] = [] := rfl

@[simp] theorem units_cons (c : Char) (cs : List Char) : units (c :: cs) = codeUnits c.toNat ++ units cs := rfl

theorem units_append (cs ds : List Char) : units (cs ++ ds) = units cs ++ units ds := List.flatMap_append

theorem length_le_length_units (cs : List Char) : cs.length ≤ (units cs).length := by
  induction cs with
  | nil => exact Nat.le_refl 0
  | cons c cs ih =>
    rw [units_cons, List.length_append, List.length_cons]
    rcases length_codeUnits c.toNat with h | h <;> omega

/-! ## Escapes -/

def octalNumber (digits : List Char) : Nat := digits.foldl (fun n c => 8 * n + (c.toNat - 48)) 0

/-- **What stands behind a backslash, and the code units it stands for.** -/
inductive Escape : List Char → List Nat → Prop
  | letter {c e : Char} :
    (c, e) ∈ [('b', '\x08'), ('t', '\t'), ('n', '\n'), ('v', '\x0b'), ('f', '\x0c'), ('r', '\r')] → Escape [c] [e.toNat]
  | other {c : Char} : c ∉ "btnvfrux0123456789\n\r\u2028\u2029".toList → Escape [c] (codeUnits c.toNat)
  | octal {digits : List Char} : digits ≠ [] → digits.length ≤ 3 → (∀ c ∈ digits, '0' ≤ c ∧ c ≤ '7') →
    octalNumber digits < 0x100 → Escape digits [octalNumber digits]
  | decimal {c : Char} : c = '8' ∨ c = '9' → Escape [c] [c.toNat]
  | hex {a b : Char} {n : Nat} : hexNumber? 0 [a, b] = some n → Escape ['x', a, b] [n]
  | unicode {a b c d : Char} {n : Nat} : hexNumber? 0 [a, b, c, d] = some n → Escape ['u', a, b, c, d] [n]
  | codePoint {digits : List Char} {n : Nat} : digits ≠ [] → hexNumber? 0 digits = some n → n ≤ 0x10FFFF →
    Escape ('u' :: '\x7b' :: (digits ++ ['\x7d'])) (codeUnits n)
  /-- A line that is continued stands for nothing. -/
  | continued {ending : List Char} : ending ∈ [['\n'], ['\r'], ['\r', '\n'], ['\u2028'], ['\u2029']] → Escape ending []

/-- **An escape is no shorter than what it stands for**, even without its backslash. -/
theorem Escape.length_le {sequence : List Char} {value : List Nat} (h : Escape sequence value) :
    value.length ≤ (units sequence).length := by
  have hlength := length_le_length_units sequence
  cases h with
  | letter | decimal | hex | unicode => exact Nat.le_trans (by simp) hlength
  | other => simp
  | octal hne => exact Nat.le_trans (List.length_pos_iff.2 hne) hlength
  | @codePoint digits n hne =>
    simp only [List.length_cons, List.length_append] at hlength
    rcases length_codeUnits n with h | h <;> omega
  | continued => exact Nat.zero_le _

/-! ## Literals -/

/-- **What the body of a literal stands for.** -/
inductive Denotes : List Char → List Nat → Prop
  | nil : Denotes [] []
  | literal {c : Char} {body : List Char} {value : List Nat} : isLiteral c = true → Denotes body value →
    Denotes (c :: body) (codeUnits c.toNat ++ value)
  | escape {sequence body : List Char} {escaped value : List Nat} : Escape sequence escaped → Denotes body value →
    Denotes ('\\' :: (sequence ++ body)) (escaped ++ value)

theorem denotes_units {body : List Char} (h : ∀ c ∈ body, isLiteral c = true) : Denotes body (units body) := by
  induction body with
  | nil => exact .nil
  | cons c body ih => exact .literal (h c List.mem_cons_self) (ih (fun d hd => h d (List.mem_cons_of_mem _ hd)))

namespace Denotes

variable {body : List Char} {value : List Nat}

/-- **A literal stands for its own text, or for less than that.** -/
theorem eq_or_lt (h : Denotes body value) :
    (value = units body ∧ ∀ c ∈ body, isLiteral c = true) ∨ value.length < (units body).length := by
  induction h with
  | nil => exact .inl ⟨rfl, fun _ hc => absurd hc List.not_mem_nil⟩
  | literal hc _ ih =>
    rcases ih with ⟨rfl, hbody⟩ | hlt
    · exact .inl ⟨rfl, List.forall_mem_cons.2 ⟨hc, hbody⟩⟩
    · rw [units_cons, List.length_append, List.length_append]
      exact .inr (Nat.add_lt_add_left hlt _)
  | @escape sequence body escaped value hescape _ ih =>
    have hsequence := hescape.length_le
    have hvalue : value.length ≤ (units body).length := by
      rcases ih with ⟨rfl, _⟩ | hlt
      · exact Nat.le_refl _
      · exact Nat.le_of_lt hlt
    right
    rw [units_cons, units_append, List.length_append, List.length_append, List.length_append]
    rcases length_codeUnits '\\'.toNat with h | h <;> omega

theorem eq_units (h : Denotes body value) (hbody : ∀ c ∈ body, isLiteral c = true) : value = units body := by
  induction h with
  | nil => rfl
  | literal _ _ ih => rw [ih (List.forall_mem_cons.1 hbody).2, units_cons]
  | escape => cases (List.forall_mem_cons.1 hbody).1

end Denotes

/-- **The literal at the first quote of a text**, if there is one, **stands for a value.** -/
def FirstLiteral (text : List Char) (value : List Nat) : Prop :=
  ∃ body rest, text.dropWhile (fun c => c != '"') = '"' :: (body ++ '"' :: rest) ∧ Denotes body value

section
variable {head body tail : List Char} (hhead : '"' ∉ head) (htail : '"' ∉ tail)
include hhead

theorem dropWhile_quoted : (head ++ '"' :: body).dropWhile (fun c => c != '"') = '"' :: body := by
  have hne : ∀ c ∈ head, (c != '"') = true := fun c hc => bne_iff_ne.2 (fun heq => hhead (heq ▸ hc))
  rw [List.dropWhile_append_of_pos hne, List.dropWhile_cons_of_neg (by decide)]

include htail

/-- **A literal at the first quote ends at the last one**, or before, at a quote in between. -/
theorem FirstLiteral.denotes_or_lt {value : List Nat} (h : FirstLiteral (head ++ '"' :: (body ++ '"' :: tail)) value) :
    Denotes body value ∨ '"' ∈ body ∧ value.length < (units body).length := by
  obtain ⟨read, rest, htext, hread⟩ := h
  rw [dropWhile_quoted hhead] at htext
  rcases List.append_eq_append_iff.1 (List.cons.inj htext).2 with ⟨more, rfl, hmore⟩ | ⟨more, rfl, hmore⟩
  · cases more with
    | nil =>
      rw [List.append_nil] at hread
      exact .inl hread
    | cons c more =>
      -- The quote that ends the literal would stand behind the last one.
      exact absurd ((List.cons.inj hmore).2 ▸ List.mem_append_right _ List.mem_cons_self) htail
  · cases more with
    | nil =>
      rw [List.append_nil]
      exact .inl hread
    | cons c more =>
      obtain rfl := (List.cons.inj hmore).1
      refine .inr ⟨List.mem_append_right _ List.mem_cons_self, ?_⟩
      have hle : value.length ≤ (units read).length := by
        rcases hread.eq_or_lt with ⟨rfl, _⟩ | hlt
        · exact Nat.le_refl _
        · exact Nat.le_of_lt hlt
      have hpos := length_le_length_units ('"' :: more)
      rw [List.length_cons] at hpos
      rw [units_append, List.length_append]
      omega

/-- **Text between quotes that stands for itself** has no other characters than do. -/
theorem FirstLiteral.forall_isLiteral (h : FirstLiteral (head ++ '"' :: (body ++ '"' :: tail)) (units body)) :
    ∀ c ∈ body, isLiteral c = true := by
  rcases h.denotes_or_lt hhead htail with hdenotes | ⟨_, hlt⟩
  · rcases hdenotes.eq_or_lt with ⟨_, hbody⟩ | hlt
    · exact hbody
    · exact absurd hlt (Nat.lt_irrefl _)
  · exact absurd hlt (Nat.lt_irrefl _)

/-- **Text between quotes stands for itself**, and for nothing else, exactly if all its characters do. -/
theorem firstLiteral_iff : (∀ value, FirstLiteral (head ++ '"' :: (body ++ '"' :: tail)) value ↔ value = units body) ↔
    ∀ c ∈ body, isLiteral c = true := by
  constructor
  · intro h
    exact ((h (units body)).2 rfl).forall_isLiteral hhead htail
  · intro hbody value
    constructor
    · intro h
      rcases h.denotes_or_lt hhead htail with hdenotes | ⟨hquote, _⟩
      · exact hdenotes.eq_units hbody
      · cases hbody _ hquote
    · rintro rfl
      exact ⟨body, tail, dropWhile_quoted hhead, denotes_units hbody⟩

end

end Text
end Valgen
