import Mathlib.Tactic.SplitIfs
import Valgen.Proofs.Json.Grammar
/-!
# Proofs.Json.Scalars — numbers and strings are read

The reader gives for a number or a string the value that its text stands for (`readNumber_text`, `readBody_text`).  In
each lemma the part may stand before anything that cannot go on with it, and the bytes that were counted so far do not
matter.
-/
namespace Valgen
namespace Json

/-! ## Numbers -/

/-- **What may stand behind a number**: nothing that would go on with it. -/
def ends : List Char → Bool
  | [] => true
  | c :: _ => !c.isDigit && c != '.' && c != 'e' && c != 'E'

theorem ends_append {blanks rest : List Char} (h : Blank blanks) (hrest : ends rest = true) :
    ends (blanks ++ rest) = true := by
  cases blanks with
  | nil => exact hrest
  | cons c blanks =>
    rcases h c List.mem_cons_self with rfl | rfl | rfl | rfl <;> rfl

theorem head_of_ends {rest : List Char} (h : ends rest = true) : rest.head?.any Char.isDigit = false := by
  cases rest with
  | nil => rfl
  | cons c rest =>
    simp only [ends, Bool.and_eq_true, Bool.not_eq_true'] at h
    exact h.1.1.1

section
variable {digits rest : List Char} (hdigits : ∀ c ∈ digits, c.isDigit = true)
  (hrest : rest.head?.any Char.isDigit = false)
include hdigits hrest

theorem takeWhile_digits : (digits ++ rest).takeWhile Char.isDigit = digits := by
  rw [List.takeWhile_append_of_pos hdigits]
  cases rest with
  | nil => exact List.append_nil digits
  | cons c rest => rw [List.takeWhile_cons_of_neg (by simpa using hrest), List.append_nil]

theorem dropWhile_digits : (digits ++ rest).dropWhile Char.isDigit = rest := by
  rw [List.dropWhile_append_of_pos hdigits]
  cases rest with
  | nil => rfl
  | cons c rest => exact List.dropWhile_cons_of_neg (by simpa using hrest)

end

theorem le_ofDigitChars (digits : List Char) (value : Nat) : value ≤ Nat.ofDigitChars 10 digits value := by
  induction digits generalizing value with
  | nil => exact Nat.le_refl _
  | cons c digits ih =>
    rw [Nat.ofDigitChars_cons]
    exact Nat.le_trans (by omega) (ih _)

theorem floatOf_of_some {float : Rounding} {negative : Bool} {whole places : List Char} {exponent : Int} {x : Binary64}
    (h : float negative whole places exponent = some x) (c : Cursor) :
    floatOf float negative whole places exponent c = .ok (.number (.float x), c) := by
  rw [floatOf, h]

theorem readExponentDigits_end {rest : List Char} (hrest : rest.head?.any Char.isDigit = false) (settled : Bool)
    (value? : Option Nat) (seen : Nat) : readExponentDigits settled value? seen rest = .ok (value?, ⟨rest, seen⟩) := by
  cases rest with
  | nil => rfl
  | cons c rest =>
    have hc : c.isDigit = false := hrest
    simp [readExponentDigits, hc]

section
variable {digits rest : List Char} (hdigits : ∀ c ∈ digits, c.isDigit = true)
  (hrest : rest.head?.any Char.isDigit = false)
include hdigits hrest

theorem readExponentDigits_none (seen : Nat) :
    readExponentDigits true none seen (digits ++ rest) = .ok (none, ⟨rest, seen + digits.length⟩) := by
  induction digits generalizing seen with
  | nil => exact readExponentDigits_end hrest true none seen
  | cons c digits ih =>
    obtain ⟨hc, hdigits⟩ := List.forall_mem_cons.1 hdigits
    rw [List.cons_append, readExponentDigits, if_pos hc]
    show readExponentDigits true none (seen + 1) (digits ++ rest) = _
    rw [ih hdigits, List.length_cons, Nat.add_assoc, Nat.add_comm 1]

/-- **An exponent is read up to the limit**, and if it passes it the number must be settled. -/
theorem readExponentDigits_some {settled : Bool} {value : Nat} (hvalue : value ≤ exponentLimit)
    (hsettled : exponentLimit < Nat.ofDigitChars 10 digits value → settled = true) (seen : Nat) :
    readExponentDigits settled (some value) seen (digits ++ rest) =
      .ok (if Nat.ofDigitChars 10 digits value ≤ exponentLimit then some (Nat.ofDigitChars 10 digits value) else none,
        ⟨rest, seen + digits.length⟩) := by
  induction digits generalizing value seen with
  | nil =>
    rw [Nat.ofDigitChars_nil, if_pos hvalue]
    exact readExponentDigits_end hrest settled (some value) seen
  | cons c digits ih =>
    obtain ⟨hc, hdigits⟩ := List.forall_mem_cons.1 hdigits
    rw [Nat.ofDigitChars_cons, Nat.mul_comm] at hsettled ⊢
    rw [List.cons_append, readExponentDigits, if_pos hc, Option.bind_some, exponentWith?]
    have hle := le_ofDigitChars digits (value * 10 + (c.toNat - '0'.toNat))
    rw [List.length_cons, Nat.add_comm digits.length, ← Nat.add_assoc]
    -- Once the limit is passed no digit brings the value back, so the number has to be settled here.
    by_cases hlimit : exponentLimit < value * 10 + (c.toNat - '0'.toNat)
    · have hpast := Nat.lt_of_lt_of_le hlimit hle
      obtain rfl := hsettled hpast
      simp only [hlimit, if_true, if_neg (Nat.not_le.2 hpast)]
      exact readExponentDigits_none hdigits hrest (seen + 1)
    · simp only [hlimit, if_false]
      exact ih hdigits (Nat.le_of_not_lt hlimit) hsettled (seen + 1)

end

theorem Digits.exists_cons (digits : Digits) : ∃ d more, digits.chars = d :: more ∧ d.isDigit = true := by
  obtain ⟨d, more, heq⟩ := List.exists_cons_of_ne_nil digits.ne_nil
  exact ⟨d, more, heq, digits.isDigit d (heq ▸ List.mem_cons_self)⟩

theorem readSign_text (e : Exponent) (rest : List Char) (seen : Nat) : ∃ seen',
    readSign ⟨e.sign ++ (e.digits.chars ++ rest), seen⟩ = (e.negative, ⟨e.digits.chars ++ rest, seen'⟩) := by
  obtain ⟨d, more, hchars, hd⟩ := e.digits.exists_cons
  unfold Exponent.negative
  rcases e.sign_eq with hsign | hsign | hsign
  · refine ⟨seen, ?_⟩
    rw [hsign, hchars]
    unfold readSign
    split
    · rename_i heq
      cases heq
      cases hd
    · rename_i heq
      cases heq
      cases hd
    · rfl
  · rw [hsign]
    exact ⟨seen + 1, rfl⟩
  · rw [hsign]
    exact ⟨seen + 1, rfl⟩

section
variable {float : Rounding} {n : Numeral} {x : Binary64} {e : Exponent} (hexponent : n.exponent = some e)
  (h : n.float? float = some x) {rest : List Char} (hrest : rest.head?.any Char.isDigit = false) (seen : Nat)
include hexponent h hrest

theorem readScaled_text : ∃ seen',
    readScaled float n.negative n.whole.chars n.places e.negative ⟨e.digits.chars ++ rest, seen⟩ =
      .ok (.number (.float x), ⟨rest, seen'⟩) := by
  simp only [Numeral.float?, hexponent] at h
  have hsettled : exponentLimit < e.digits.value → (n.significand == 0 || e.negative) = true := by
    intro hpast
    rw [if_neg (Nat.not_le.2 hpast)] at h
    split_ifs at h with hzero
    simpa using hzero
  have hread : readExponentDigits (n.significand == 0 || e.negative) (some 0) seen (e.digits.chars ++ rest) =
      .ok (if e.digits.value ≤ exponentLimit then some e.digits.value else none,
        ⟨rest, seen + e.digits.chars.length⟩) :=
    readExponentDigits_some e.digits.isDigit hrest (Nat.zero_le _) hsettled seen
  obtain ⟨d, more, hchars, hd⟩ := e.digits.exists_cons
  have hcons : e.digits.chars ++ rest = d :: (more ++ rest) := by rw [hchars, List.cons_append]
  refine ⟨seen + e.digits.chars.length, ?_⟩
  rw [Numeral.significand, hcons] at hread
  rw [hcons]
  unfold readScaled
  simp only [hd, if_true, hread]
  by_cases hlimit : e.digits.value ≤ exponentLimit
  · rw [if_pos hlimit] at h ⊢
    exact floatOf_of_some h _
  · rw [if_neg hlimit, if_pos (by simpa using hsettled (Nat.lt_of_not_le hlimit))] at h
    rw [if_neg hlimit]
    cases h
    rfl

theorem readExponent_text : ∃ seen',
    readExponent float n.negative n.whole.chars n.places ⟨e.sign ++ (e.digits.chars ++ rest), seen⟩ =
      .ok (.number (.float x), ⟨rest, seen'⟩) := by
  obtain ⟨behind, hsign⟩ := readSign_text e rest seen
  unfold readExponent
  rw [hsign]
  exact readScaled_text hexponent h hrest behind

end

namespace Numeral

variable {float : Rounding} {n : Numeral} {number : Number}

/-- **A number with a fraction or an exponent is a float.** -/
theorem exists_float (h : n.value? float = some number) (hpart : (n.fraction.isSome || n.exponent.isSome) = true) :
    ∃ x, n.float? float = some x ∧ number = .float x := by
  rw [value?, whole?, if_pos hpart] at h
  obtain ⟨x, hx, rfl⟩ := Option.map_eq_some_iff.1 h
  exact ⟨x, hx, rfl⟩

theorem wholeOf_text (hfraction : n.fraction = none) (hexponent : n.exponent = none) (h : n.value? float = some number)
    (c : Cursor) : wholeOf float n.negative n.whole.chars c = .ok (.number number, c) := by
  have hplaces : n.places = [] := by rw [places, hfraction, Option.elim_none]
  have hsignificand : n.significand = digitsValue n.whole.chars := by rw [significand, hplaces, List.append_nil]
  have hfloat : n.float? float = float n.negative n.whole.chars [] 0 := by
    simp only [float?, hexponent, hplaces]
  have hwhole : n.whole? = if n.negative = true then
      if 0 < digitsValue n.whole.chars ∧ digitsValue n.whole.chars ≤ 0x8000000000000000 then
        some (-digitsValue n.whole.chars : Int) else none
      else if digitsValue n.whole.chars < 0x10000000000000000 then
        some (digitsValue n.whole.chars : Int)
      else none := by
    rw [whole?, hfraction, hexponent, hsignificand, if_neg (by decide)]
  rw [value?, hwhole, hfloat] at h
  unfold wholeOf
  cases hnegative : n.negative <;> rw [hnegative] at h
  · simp only [Bool.false_eq_true, if_false] at h ⊢
    split_ifs at h ⊢
    · cases h
      rfl
    · obtain ⟨x, hx, rfl⟩ := Option.map_eq_some_iff.1 h
      exact floatOf_of_some hx c
  · simp only [if_true] at h ⊢
    split_ifs at h ⊢
    · cases h
      rfl
    · obtain ⟨x, hx, rfl⟩ := Option.map_eq_some_iff.1 h
      exact floatOf_of_some hx c

end Numeral

theorem head_exponent (exponent : Option Exponent) {rest : List Char} (h : ends rest = true) :
    (exponent.elim [] Exponent.text ++ rest).head?.any Char.isDigit = false := by
  cases exponent with
  | none => exact head_of_ends h
  | some e =>
    show e.letter.isDigit = false
    rcases e.letter_eq with hletter | hletter <;> rw [hletter] <;> rfl

theorem readAfterWhole_text {float : Rounding} (n : Numeral) {number : Number} (h : n.value? float = some number)
    {rest : List Char} (hrest : ends rest = true) (seen : Nat) : ∃ seen',
      readAfterWhole float n.negative n.whole.chars
        ⟨n.fraction.elim [] (fun digits => '.' :: digits.chars) ++ (n.exponent.elim [] Exponent.text ++ rest), seen⟩ =
      .ok (.number number, ⟨rest, seen'⟩) := by
  have hhead := head_of_ends hrest
  cases hfraction : n.fraction with
  | none =>
    have hplaces : n.places = [] := by rw [Numeral.places, hfraction, Option.elim_none]
    cases hexponent : n.exponent with
    | none =>
      refine ⟨seen, ?_⟩
      show readAfterWhole float n.negative n.whole.chars ⟨rest, seen⟩ = _
      unfold readAfterWhole
      split
      · rename_i heq
        subst heq
        cases hrest
      · rename_i heq
        subst heq
        cases hrest
      · rename_i heq
        subst heq
        cases hrest
      · exact n.wholeOf_text hfraction hexponent h _
    | some e =>
      obtain ⟨x, hfloat, rfl⟩ := n.exists_float h (by rw [hexponent, Option.isSome_some, Bool.or_true])
      show ∃ seen', readAfterWhole float n.negative n.whole.chars
        ⟨e.letter :: (e.sign ++ e.digits.chars) ++ rest, seen⟩ = _
      rw [List.cons_append, List.append_assoc]
      have hread := readExponent_text hexponent hfloat hhead (seen + 1)
      rw [hplaces] at hread
      rcases e.letter_eq with hletter | hletter <;> rw [hletter]
      all_goals exact hread
  | some digits =>
    obtain ⟨x, hfloat, rfl⟩ := n.exists_float h (by rw [hfraction, Option.isSome_some, Bool.true_or])
    have hplaces : n.places = digits.chars := by rw [Numeral.places, hfraction, Option.elim_some]
    have htail := head_exponent n.exponent hrest
    have hsome : digits.chars.isEmpty = false := List.isEmpty_eq_false_iff.2 digits.ne_nil
    rw [Option.elim_some, List.cons_append]
    simp only [readAfterWhole, takeWhile_digits digits.isDigit htail, dropWhile_digits digits.isDigit htail, hsome,
      Bool.false_eq_true, if_false]
    cases hexponent : n.exponent with
    | none =>
      simp only [Numeral.float?, hexponent, hplaces] at hfloat
      refine ⟨seen + 1 + digits.chars.length, ?_⟩
      rw [Option.elim_none, List.nil_append]
      split
      · cases hrest
      · cases hrest
      · exact floatOf_of_some hfloat _
    | some e =>
      rw [Option.elim_some, Exponent.text, List.cons_append, List.append_assoc]
      have hread := readExponent_text hexponent hfloat hhead (seen + 1 + digits.chars.length + 1)
      rw [hplaces] at hread
      rcases e.letter_eq with hletter | hletter <;> rw [hletter]
      all_goals exact hread

theorem readNumber_text {float : Rounding} (n : Numeral) {number : Number} (h : n.value? float = some number)
    {rest : List Char} (hrest : ends rest = true) (seen : Nat) :
    ∃ seen', readNumber float n.negative ⟨n.unsigned ++ rest, seen⟩ = .ok (.number number, ⟨rest, seen'⟩) := by
  rw [Numeral.unsigned, List.append_assoc, List.append_assoc]
  have hafter := readAfterWhole_text n h hrest
  have hhead : (n.fraction.elim [] (fun digits => '.' :: digits.chars) ++
      (n.exponent.elim [] Exponent.text ++ rest)).head?.any Char.isDigit = false := by
    cases n.fraction with
    | none => exact head_exponent n.exponent hrest
    | some digits => rfl
  generalize n.fraction.elim [] (fun digits => '.' :: digits.chars) ++
    (n.exponent.elim [] Exponent.text ++ rest) = tail at hafter hhead ⊢
  have htake := takeWhile_digits n.whole.isDigit hhead
  have hdrop := dropWhile_digits n.whole.isDigit hhead
  obtain ⟨d, more, hchars, hd⟩ := n.whole.exists_cons
  -- A zero at the front has a branch of its own in the reader, as no digit may stand behind it.
  rcases n.leading with hzero | hleading
  · rw [hzero] at hafter ⊢
    rw [List.singleton_append]
    unfold readNumber
    simp only [hhead, Bool.false_eq_true, if_false]
    exact hafter (seen + 1)
  · have hd0 : d ≠ '0' := by
      rintro rfl
      exact hleading (by rw [hchars]; rfl)
    have hcons : n.whole.chars ++ tail = d :: (more ++ tail) := by rw [hchars, List.cons_append]
    rw [hcons] at htake hdrop ⊢
    unfold readNumber
    split
    · rename_i heq
      cases heq
    · rename_i heq
      exact absurd (List.cons.inj heq).1 hd0
    · rename_i heq
      obtain ⟨rfl, rfl⟩ := List.cons.inj heq
      simp only [hd, if_true, htake, hdrop]
      exact hafter _

/-! ## Strings -/

theorem hexDigit_eq (c : Char) : hexDigit c = Text.hexDigit? c := by
  have hdigit : c.isDigit = true ↔ '0' ≤ c ∧ c ≤ '9' := by
    simp [Char.isDigit, Char.le_def, ge_iff_le]
  have hcode : ∀ {d : Char}, d ≤ c → d.toNat ≤ c.toNat := fun h => h
  unfold hexDigit Text.hexDigit?
  simp only [hdigit]
  split_ifs with hnumber hsmall hcapital
  · rfl
  · have := hcode hsmall.1
    simp only [Char.reduceToNat] at this ⊢
    congr 1
    omega
  · have := hcode hcapital.1
    simp only [Char.reduceToNat] at this ⊢
    congr 1
    omega
  · rfl

/-- **The digits of a code are read to the end**: behind them stands another character, or the low half of a pair. -/
theorem readBody_hex {digits : List Char} {value code : Nat} (hne : digits ≠ [])
    (hcode : Text.hexNumber? value digits = some code) {high : Option Nat} {next : Char ⊕ Nat}
    (hnext : hexEscape high code = some next) (start : Nat) (done rest : List Char) (seen : Nat) :
    ∃ seen', readBody (.hex high start digits.length value) done (digits ++ rest) seen =
      next.elim (fun e => readBody .plain (e :: done) rest seen')
        (fun h => readBody (.lowBackslash h) done rest seen') := by
  induction digits generalizing value seen with
  | nil => exact absurd rfl hne
  | cons c digits ih =>
    obtain ⟨value', hvalue, hrest⟩ := Option.bind_eq_some_iff.1 hcode
    obtain ⟨d, hd, rfl⟩ := Option.map_eq_some_iff.1 hvalue
    rw [Nat.mul_comm] at hrest
    rw [List.cons_append, readBody, hexDigit_eq, hd]
    cases digits with
    | nil =>
      cases hrest
      refine ⟨seen + 1, ?_⟩
      simp only [List.length_singleton, Nat.lt_irrefl, if_false, hnext]
      cases next <;> rfl
    | cons c' digits =>
      have hleft : 1 < (c :: c' :: digits).length := Nat.le_add_left 2 _
      simp only [hleft, if_true]
      exact ih (List.cons_ne_nil _ _) hrest (seen + 1)

section
variable {digits : List Char} {code : Nat} (hcode : IsCode digits code) {next : Char ⊕ Nat} (done rest : List Char)
  (seen : Nat)
include hcode

theorem IsCode.ne_nil : digits ≠ [] := by
  rintro rfl
  cases hcode.1

theorem readBody_code (hnext : hexEscape none code = some next) :
    ∃ seen', readBody .plain done ('\\' :: 'u' :: (digits ++ rest)) seen =
      next.elim (fun e => readBody .plain (e :: done) rest seen')
        (fun h => readBody (.lowBackslash h) done rest seen') := by
  rw [readBody, if_neg (by decide), if_pos rfl, readBody, if_pos rfl, ← hcode.1]
  exact readBody_hex hcode.ne_nil hcode.2 hnext (seen + 1 + 1) done rest (seen + 1 + 1)

theorem readBody_low {high : Nat} (hnext : hexEscape (some high) code = some next) :
    ∃ seen', readBody (.lowBackslash high) done ('\\' :: 'u' :: (digits ++ rest)) seen =
      next.elim (fun e => readBody .plain (e :: done) rest seen')
        (fun h => readBody (.lowBackslash h) done rest seen') := by
  rw [readBody, if_pos rfl, readBody, if_pos rfl, ← hcode.1]
  exact readBody_hex hcode.ne_nil hcode.2 hnext (seen + 1 + 1) done rest (seen + 1 + 1)

end

theorem shortEscape_of_mem {c e : Char} (h : (c, e) ∈ shortEscapes) : c ≠ 'u' ∧ shortEscape c = some e := by
  have hall : shortEscapes.all (fun p => p.1 != 'u' && shortEscape p.1 == some p.2) = true := by decide
  simpa using List.all_eq_true.1 hall _ h

/-- **The body of a string is read**, up to the quote behind it. -/
theorem readBody_text {text value : List Char} (h : Body text value) (done rest : List Char) (seen : Nat) :
    ∃ seen', readBody .plain done (text ++ '"' :: rest) seen =
      .ok (String.ofList (done.reverse ++ value), ⟨rest, seen'⟩) := by
  induction h generalizing done seen with
  | nil => exact ⟨seen + 1, by simp [readBody]⟩
  | @plain c text value hplain _ ih =>
    obtain ⟨⟨hquote, hslash⟩, hcontrol⟩ : (c ≠ '"' ∧ c ≠ '\\') ∧ 0x20 ≤ c.toNat := by simpa [isPlain] using hplain
    rw [List.cons_append, readBody, if_neg hquote, if_neg hslash, if_neg (Nat.not_lt.2 hcontrol)]
    simpa using ih (c :: done) (seen + c.utf8Size)
  | @short c e text value hshort _ ih =>
    obtain ⟨hu, hescape⟩ := shortEscape_of_mem hshort
    rw [List.cons_append, List.cons_append, readBody, if_neg (by decide), if_pos rfl, readBody, if_neg hu, hescape]
    simpa using ih (e :: done) (seen + 1 + 1)
  | @code digits text value code hcode hplain _ ih =>
    have hnext : hexEscape none code = some (.inl (Char.ofNat code)) := by
      rw [hexEscape, if_neg (by omega), if_neg (by omega)]
    obtain ⟨behind, hread⟩ := readBody_code hcode done (text ++ '"' :: rest) seen hnext
    rw [List.cons_append, List.cons_append, List.append_assoc, hread]
    simpa using ih (Char.ofNat code :: done) behind
  | @pair digits digits' text value high low hhigh hlow hhighBounds hlowBounds _ ih =>
    have hnext : hexEscape none high = some (.inr high) := by
      rw [hexEscape, if_neg (by omega), if_pos hhighBounds]
    have hnext' : hexEscape (some high) low =
        some (.inl (Char.ofNat (0x10000 + (high - 0xD800) * 0x400 + (low - 0xDC00)))) := by
      rw [hexEscape, if_pos hlowBounds]
    obtain ⟨between, hread⟩ := readBody_code hhigh done ('\\' :: 'u' :: (digits' ++ (text ++ '"' :: rest))) seen hnext
    obtain ⟨behind, hread'⟩ := readBody_low hlow done (text ++ '"' :: rest) between hnext'
    simp only [List.cons_append, List.append_assoc]
    rw [hread, Sum.elim_inr, hread']
    simpa using ih (_ :: done) behind

end Json
end Valgen
