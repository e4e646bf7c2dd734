import Valgen.Json.Reader
import Valgen.Proofs.Json.Repeats
import Valgen.Proofs.Text.Literals
/-!
# Proofs.Json.Grammar — the texts that stand for JSON values

`Written` is the grammar of JSON texts, with the value that each of them stands for.  The parts of a text are values,
values between blanks, and what stands between the brackets of an array or the braces of an object.

- A number without fraction and exponent that fits 64 bits is whole; every other number is a float, which a rounding
  gives for its digits, and there is none for a number that is too large (`Numeral.value?`).
- The characters of a string stand for themselves or behind a backslash; half of a surrogate pair stands for nothing.
- The members of an object keep their order, and a key may come twice.
-/
namespace Valgen
namespace Json

/-! ## Numbers -/

/-- **A run of decimal digits**, at least one. -/
structure Digits where
  chars : List Char
  ne_nil : chars ≠ []
  isDigit : ∀ c ∈ chars, c.isDigit = true

def Digits.value (digits : Digits) : Nat := digitsValue digits.chars

structure Exponent where
  letter : Char
  letter_eq : letter = 'e' ∨ letter = 'E'
  sign : List Char
  sign_eq : sign = [] ∨ sign = ['+'] ∨ sign = ['-']
  digits : Digits

namespace Exponent

def text (e : Exponent) : List Char := e.letter :: (e.sign ++ e.digits.chars)

def negative (e : Exponent) : Bool := e.sign == ['-']

def value (e : Exponent) : Int := if e.negative then -e.digits.value else e.digits.value

end Exponent

/-- **A number as it is written**: only zero itself begins with a zero. -/
structure Numeral where
  negative : Bool
  whole : Digits
  leading : whole.chars = ['0'] ∨ whole.chars.head? ≠ some '0'
  fraction : Option Digits
  exponent : Option Exponent

namespace Numeral

def places (n : Numeral) : List Char := n.fraction.elim [] Digits.chars

/-- **The text of a number** behind its sign. -/
def unsigned (n : Numeral) : List Char :=
  n.whole.chars ++ (n.fraction.elim [] (fun digits => '.' :: digits.chars) ++ n.exponent.elim [] Exponent.text)

def text (n : Numeral) : List Char := if n.negative then '-' :: n.unsigned else n.unsigned

/-- **The number that all digits write**, those behind the point too. -/
def significand (n : Numeral) : Nat := digitsValue (n.whole.chars ++ n.places)

/-- **The whole number of 64 bits**, if the number is one; minus zero is not. -/
def whole? (n : Numeral) : Option Int :=
  if n.fraction.isSome || n.exponent.isSome then none
  else if n.negative then
    if 0 < n.significand ∧ n.significand ≤ 0x8000000000000000 then some (-n.significand) else none
  else if n.significand < 0x10000000000000000 then some n.significand
  else none

/-- **The float of a number**, if there is one.  An exponent beyond the limit makes the number zero, or too large if it
is positive and the digits are not all zero. -/
def float? (n : Numeral) (float : Rounding) : Option Binary64 :=
  match n.exponent with
  | none => float n.negative n.whole.chars n.places 0
  | some e =>
    if e.digits.value ≤ exponentLimit then float n.negative n.whole.chars n.places e.value
    else if n.significand = 0 ∨ e.negative = true then some (.zero n.negative)
    else none

/-- **The number that a text stands for.** -/
def value? (n : Numeral) (float : Rounding) : Option Number :=
  match n.whole? with
  | some value => some (.whole value)
  | none => (n.float? float).map .float

end Numeral

/-! ## Strings -/

/-- **A character that stands for itself in a string.** -/
def isPlain (c : Char) : Bool := c != '"' && c != '\\' && decide (0x20 ≤ c.toNat)

/-- **The characters that stand for others behind a backslash.** -/
def shortEscapes : List (Char × Char) :=
  [('"', '"'), ('\\', '\\'), ('/', '/'), ('b', '\x08'), ('f', '\x0c'), ('n', '\n'), ('r', '\r'), ('t', '\t')]

/-- **Four hexadecimal digits with their value.** -/
def IsCode (digits : List Char) (code : Nat) : Prop := digits.length = 4 ∧ Text.hexNumber? 0 digits = some code

instance (digits : List Char) (code : Nat) : Decidable (IsCode digits code) := inferInstanceAs (Decidable (_ ∧ _))

/-- **What stands between the quotes of a string, and the characters it stands for.** -/
inductive Body : List Char → List Char → Prop
  | nil : Body [] []
  | plain {c : Char} {text value : List Char} : isPlain c = true → Body text value → Body (c :: text) (c :: value)
  | short {c e : Char} {text value : List Char} : (c, e) ∈ shortEscapes → Body text value →
    Body ('\\' :: c :: text) (e :: value)
  | code {digits text value : List Char} {code : Nat} : IsCode digits code → ¬ (0xD800 ≤ code ∧ code ≤ 0xDFFF) →
    Body text value → Body ('\\' :: 'u' :: (digits ++ text)) (Char.ofNat code :: value)
  | pair {digits digits' text value : List Char} {high low : Nat} : IsCode digits high → IsCode digits' low →
    0xD800 ≤ high ∧ high ≤ 0xDBFF → 0xDC00 ≤ low ∧ low ≤ 0xDFFF → Body text value →
    Body ('\\' :: 'u' :: (digits ++ '\\' :: 'u' :: (digits' ++ text)))
      (Char.ofNat (0x10000 + (high - 0xD800) * 0x400 + (low - 0xDC00)) :: value)

theorem Body.self {text : List Char} (h : text.all isPlain = true) : Body text text := by
  induction text with
  | nil => exact .nil
  | cons c text ih =>
    rw [List.all_cons, Bool.and_eq_true] at h
    exact .plain h.1 (ih h.2)

/-! ## Values -/

/-- **A blank**: a space, a tab, a line feed or a carriage return. -/
def IsBlank (c : Char) : Prop := c = ' ' ∨ c = '\n' ∨ c = '\t' ∨ c = '\r'

instance : DecidablePred IsBlank := fun _ => inferInstanceAs (Decidable (_ ∨ _))

def Blank (cs : List Char) : Prop := ∀ c ∈ cs, IsBlank c

instance : DecidablePred Blank := fun cs => List.decidableBAll IsBlank cs

/-- **The texts of a key**, with the colon behind it. -/
inductive Key : String → List Char → Prop
  | mk {before text after value : List Char} : Blank before → Body text value → Blank after →
    Key (String.ofList value) (before ++ '"' :: (text ++ '"' :: (after ++ [':'])))

theorem Key.self (key : String) (h : key.toList.all isPlain = true) {before after : List Char} (hbefore : Blank before)
    (hafter : Blank after) : Key key (before ++ '"' :: (key.toList ++ '"' :: (after ++ [':']))) := by
  have hkey := Key.mk hbefore (.self h) hafter
  rwa [String.ofList_toList] at hkey

/-- **A part of a text, and what it stands for.** -/
inductive Part where
  | value (value : Json)
  /-- A value with the blanks around it. -/
  | element (value : Json)
  /-- Elements with commas between them. -/
  | items (items : List Json)
  /-- Members with commas between them. -/
  | members (members : List (String × Json))

/-- **The texts that stand for a part**, with a rounding for their numbers. -/
inductive Written (float : Rounding) : Part → List Char → Prop
  | null : Written float (.value .null) "null".toList
  | truth (value : Bool) : Written float (.value (.bool value)) (if value then "true" else "false").toList
  | number (n : Numeral) {number : Number} : n.value? float = some number →
      Written float (.value (.number number)) n.text
  | string {text value : List Char} : Body text value →
    Written float (.value (.string (String.ofList value))) ('"' :: (text ++ ['"']))
  | emptyArray {blanks : List Char} : Blank blanks → Written float (.value (.array [])) ('[' :: (blanks ++ [']']))
  | array {text : List Char} {items : List Json} : Written float (.items items) text →
    Written float (.value (.array items)) ('[' :: (text ++ [']']))
  | emptyObject {blanks : List Char} : Blank blanks →
      Written float (.value (.object [])) ('\x7b' :: (blanks ++ ['\x7d']))
  | object {text : List Char} {members : List (String × Json)} : Written float (.members members) text →
    Written float (.value (.object members)) ('\x7b' :: (text ++ ['\x7d']))
  | element {before text after : List Char} {value : Json} : Blank before → Written float (.value value) text →
      Blank after →
    Written float (.element value) (before ++ (text ++ after))
  | lastItem {text : List Char} {item : Json} : Written float (.element item) text → Written float (.items [item]) text
  | item {text more : List Char} {item : Json} {rest : List Json} : Written float (.element item) text →
    Written float (.items rest) more → Written float (.items (item :: rest)) (text ++ ',' :: more)
  | lastMember {key : String} {keyText text : List Char} {value : Json} : Key key keyText →
    Written float (.element value) text → Written float (.members [(key, value)]) (keyText ++ text)
  | member {key : String} {keyText text more : List Char} {value : Json} {rest : List (String × Json)} :
    Key key keyText → Written float (.element value) text → Written float (.members rest) more →
    Written float (.members ((key, value) :: rest)) (keyText ++ (text ++ ',' :: more))

/-- **A text stands for a value**: it is the value with blanks around it. -/
def Denotes (float : Rounding) (text : String) (value : Json) : Prop := Written float (.element value) text.toList

/-! ## Nesting -/

mutual

/-- **How many arrays and objects are nested in a value**, itself included. -/
def nesting : Json → Nat
  | .null => 0
  | .bool _ => 0
  | .number _ => 0
  | .string _ => 0
  | .array items => itemsNesting items + 1
  | .object members => membersNesting members + 1

def itemsNesting : List Json → Nat
  | [] => 0
  | item :: rest => max (nesting item) (itemsNesting rest)

def membersNesting : List (String × Json) → Nat
  | [] => 0
  | (_, value) :: rest => max (nesting value) (membersNesting rest)

end

end Json
end Valgen
