import Valgen.Json.Basic
import Valgen.Json.Rounding
/-!
# Json.Reader — JSON text to values, with the place of a fault

The reader walks the characters of a text and counts the bytes it has looked at.  When the text is not JSON it stops at
the first byte that rules it out, and the fault says how many bytes had been looked at by then, that byte included; at
the end of the text, all of them.

At most 127 arrays and objects may be nested.  A key that is repeated in an object is kept as often as it is written.
The float of a number is found by a rounding that the reader is given.
-/
namespace Valgen
namespace Json

/-- **Where reading stopped**: the bytes looked at, the offending one included. -/
structure Fault where
  seen : Nat
deriving DecidableEq, Repr

/-- **A place in a text**: what is left of it, and the bytes before it. -/
structure Cursor where
  rest : List Char
  seen : Nat
deriving Repr

namespace Cursor

def ofString (s : String) : Cursor := ⟨s.toList, 0⟩

def bytes (cs : List Char) : Nat := cs.foldl (fun n c => n + c.utf8Size) 0

/-- **The next byte is unexpected**, or the text ends where it should not. -/
def unexpected (c : Cursor) : Fault := if c.rest.isEmpty then ⟨c.seen⟩ else ⟨c.seen + 1⟩

/-- **The place behind blanks**: spaces, tabs, line feeds and carriage returns. -/
def skipBlanks (rest : List Char) (seen : Nat) : Cursor :=
  match rest with
  | [] => ⟨[], seen⟩
  | c :: more => if c = ' ' ∨ c = '\n' ∨ c = '\t' ∨ c = '\r' then skipBlanks more (seen + 1) else ⟨rest, seen⟩

/-- **The place of the next character that is not blank.** -/
def next (c : Cursor) : Cursor := skipBlanks c.rest c.seen

end Cursor

/-- **What reading a part gives**: the part and the place behind it, or the fault. -/
abbrev Reading (α : Type) : Type := Except Fault (α × Cursor)

def readWord (value : Json) : List Char → Cursor → Reading Json
  | [], c => .ok (value, c)
  | w :: ws, c =>
    match c.rest with
    | [] => .error c.unexpected
    | d :: rest => if d = w then readWord value ws ⟨rest, c.seen + 1⟩ else .error c.unexpected

/-! ## Numbers -/

def digitsValue (digits : List Char) : Nat := Nat.ofDigitChars 10 digits 0

/-- **The greatest exponent that is counted.** -/
def exponentLimit : Nat := 0x7fffffff

/-- **An exponent with a digit more**, unless it passes the limit then. -/
def exponentWith? (value : Nat) (c : Char) : Option Nat :=
  let value := value * 10 + (c.toNat - '0'.toNat)
  if exponentLimit < value then none else some value

/-- **The digits of an exponent**, behind those that make up `value`; there is none once they pass the limit.  Then the
number is settled if it is zero whatever follows, else the digit that passes the limit is a fault. -/
def readExponentDigits (settled : Bool) (value : Option Nat) (seen : Nat) :
    List Char → Except Fault (Option Nat × Cursor)
  | [] => .ok (value, ⟨[], seen⟩)
  | c :: rest =>
    if c.isDigit then
      match value.bind (fun n => exponentWith? n c) with
      | some n => readExponentDigits settled (some n) (seen + 1) rest
      | none => if settled then readExponentDigits settled none (seen + 1) rest else .error ⟨seen + 1⟩
    else .ok (value, ⟨c :: rest, seen⟩)

/-- **The sign of an exponent**: whether it is a minus, and the place behind it. -/
def readSign (c : Cursor) : Bool × Cursor :=
  match c.rest with
  | '-' :: rest => (true, ⟨rest, c.seen + 1⟩)
  | '+' :: rest => (false, ⟨rest, c.seen + 1⟩)
  | _ => (false, c)

section
variable (float : Rounding)

/-- **The float of a numeral**, or the fault of a number that is too large. -/
def floatOf (negative : Bool) (whole places : List Char) (exponent : Int) (c : Cursor) : Reading Json :=
  match float negative whole places exponent with
  | some value => .ok (.number (.float value), c)
  | none => .error ⟨c.seen⟩

/-- **A float with its exponent**, read behind the sign.  If the exponent passes the limit, the number is zero when its
digits are all zero or the exponent is negative, and too large otherwise. -/
def readScaled (negative : Bool) (whole places : List Char) (minus : Bool) (c : Cursor) : Reading Json :=
  match c.rest with
  | [] => .error c.unexpected
  | d :: _ =>
    if d.isDigit then
      match readExponentDigits (digitsValue (whole ++ places) == 0 || minus) (some 0) c.seen c.rest with
      | .error fault => .error fault
      | .ok (none, c) => .ok (.number (.float (.zero negative)), c)
      | .ok (some value, c) => floatOf float negative whole places (if minus then -value else value) c
    else .error c.unexpected

/-- **A float with its exponent**, read behind the `e`. -/
def readExponent (negative : Bool) (whole places : List Char) (c : Cursor) : Reading Json :=
  readScaled float negative whole places (readSign c).1 (readSign c).2

/-- **A whole number as it stands**: of 64 bits if it fits, else a float; minus zero is a float. -/
def wholeOf (negative : Bool) (whole : List Char) (c : Cursor) : Reading Json :=
  let value := digitsValue whole
  if negative then
    if 0 < value ∧ value ≤ 0x8000000000000000 then .ok (.number (.whole (-value)), c)
    else floatOf float true whole [] 0 c
  else if value < 0x10000000000000000 then .ok (.number (.whole value), c)
  else floatOf float false whole [] 0 c

def readAfterWhole (negative : Bool) (whole : List Char) (c : Cursor) : Reading Json :=
  match c.rest with
  | '.' :: rest =>
    let places := rest.takeWhile Char.isDigit
    let c := Cursor.mk (rest.dropWhile Char.isDigit) (c.seen + 1 + places.length)
    if places.isEmpty then .error c.unexpected
    else
      match c.rest with
      | 'e' :: more => readExponent float negative whole places ⟨more, c.seen + 1⟩
      | 'E' :: more => readExponent float negative whole places ⟨more, c.seen + 1⟩
      | _ => floatOf float negative whole places 0 c
  | 'e' :: rest => readExponent float negative whole [] ⟨rest, c.seen + 1⟩
  | 'E' :: rest => readExponent float negative whole [] ⟨rest, c.seen + 1⟩
  | _ => wholeOf float negative whole c

/-- **A number**, read behind its sign. -/
def readNumber (negative : Bool) (c : Cursor) : Reading Json :=
  match c.rest with
  | [] => .error c.unexpected
  | '0' :: rest =>
    let c := Cursor.mk rest (c.seen + 1)
    if rest.head?.any Char.isDigit then .error c.unexpected else readAfterWhole float negative ['0'] c
  | d :: _ =>
    if d.isDigit then
      let whole := c.rest.takeWhile Char.isDigit
      readAfterWhole float negative whole ⟨c.rest.dropWhile Char.isDigit, c.seen + whole.length⟩
    else .error c.unexpected

end

/-! ## Strings -/

/-- **What the body of a string waits for.** -/
inductive Pending where
  /-- A character, the closing quote or a backslash. -/
  | plain
  /-- The character behind a backslash. -/
  | escape
  /-- The `left` digits that remain of four, the first of which stands at byte `start`; `high` is the high half of a
  surrogate pair whose low half is being read. -/
  | hex (high : Option Nat) (start left value : Nat)
  /-- The backslash of the low half of a surrogate pair. -/
  | lowBackslash (high : Nat)
  /-- The `u` of the low half of a surrogate pair. -/
  | lowLetter (high : Nat)

def shortEscape (c : Char) : Option Char :=
  if c = '"' ∨ c = '\\' ∨ c = '/' then some c
  else if c = 'b' then some '\x08'
  else if c = 'f' then some '\x0c'
  else if c = 'n' then some '\n'
  else if c = 'r' then some '\r'
  else if c = 't' then some '\t'
  else none

def hexDigit (c : Char) : Option Nat :=
  if c.isDigit then some (c.toNat - '0'.toNat)
  else if 'a' ≤ c ∧ c ≤ 'f' then some (c.toNat - 'a'.toNat + 10)
  else if 'A' ≤ c ∧ c ≤ 'F' then some (c.toNat - 'A'.toNat + 10)
  else none

/-- **The four digits of an escape as a whole**: a character, the high half of a pair, or nothing. -/
def hexEscape (high : Option Nat) (value : Nat) : Option (Char ⊕ Nat) :=
  match high with
  | some h =>
    if 0xDC00 ≤ value ∧ value ≤ 0xDFFF then
      some (.inl (Char.ofNat (0x10000 + (h - 0xD800) * 0x400 + (value - 0xDC00))))
    else none
  | none =>
    if 0xDC00 ≤ value ∧ value ≤ 0xDFFF then none
    else if 0xD800 ≤ value ∧ value ≤ 0xDBFF then some (.inr value)
    else some (.inl (Char.ofNat value))

/-- **The body of a string**, behind its opening quote; `done` holds what was read, last character first. -/
def readBody : Pending → List Char → List Char → Nat → Reading String
  | .hex _ start _ _, _, [], seen => .error ⟨min (start + 4) seen⟩
  | _, _, [], seen => .error ⟨seen⟩
  | .plain, done, c :: rest, seen =>
    if c = '"' then .ok (String.ofList done.reverse, ⟨rest, seen + 1⟩)
    else if c = '\\' then readBody .escape done rest (seen + 1)
    else if c.toNat < 0x20 then .error ⟨seen + 1⟩
    else readBody .plain (c :: done) rest (seen + c.utf8Size)
  | .escape, done, c :: rest, seen =>
    if c = 'u' then readBody (.hex none (seen + 1) 4 0) done rest (seen + 1)
    else
      match shortEscape c with
      | some d => readBody .plain (d :: done) rest (seen + 1)
      | none => .error ⟨seen + 1⟩
  | .hex high start left value, done, c :: rest, seen =>
    match hexDigit c with
    | none => .error ⟨min (start + 4) (seen + Cursor.bytes (c :: rest))⟩
    | some d =>
      let value := value * 16 + d
      if 1 < left then readBody (.hex high start (left - 1) value) done rest (seen + 1)
      else
        match hexEscape high value with
        | none => .error ⟨seen + 1⟩
        | some (.inl e) => readBody .plain (e :: done) rest (seen + 1)
        | some (.inr h) => readBody (.lowBackslash h) done rest (seen + 1)
  | .lowBackslash high, done, c :: rest, seen =>
    if c = '\\' then readBody (.lowLetter high) done rest (seen + 1) else .error ⟨seen + 1⟩
  | .lowLetter high, done, c :: rest, seen =>
    if c = 'u' then readBody (.hex (some high) (seen + 1) 4 0) done rest (seen + 1) else .error ⟨seen + 1⟩

/-! ## Values -/

def readKey (c : Cursor) : Reading String :=
  let c := c.next
  match c.rest with
  | '"' :: rest =>
    match readBody .plain [] rest (c.seen + 1) with
    | .error fault => .error fault
    | .ok (key, c) =>
      let c := c.next
      match c.rest with
      | ':' :: rest => .ok (key, ⟨rest, c.seen + 1⟩)
      | _ => .error c.unexpected
  | _ => .error c.unexpected

def nestingLimit : Nat := 127

def readEnd (c : Cursor) : Except Fault Unit :=
  let c := c.next
  if c.rest.isEmpty then .ok () else .error c.unexpected

section
variable (float : Rounding)

mutual

/-- **A value** at nesting `depth`; `fuel` bounds the calls and is never used up when it is twice the length of the
text. -/
def readValue (fuel depth : Nat) (c : Cursor) : Reading Json :=
  match fuel with
  | 0 => .error c.unexpected
  | fuel + 1 =>
    let c := c.next
    match c.rest with
    | [] => .error c.unexpected
    | d :: rest =>
      let behind := Cursor.mk rest (c.seen + 1)
      if d = 'n' then readWord .null ['u', 'l', 'l'] behind
      else if d = 't' then readWord (.bool true) ['r', 'u', 'e'] behind
      else if d = 'f' then readWord (.bool false) ['a', 'l', 's', 'e'] behind
      else if d = '-' then readNumber float true behind
      else if d.isDigit then readNumber float false c
      else if d = '"' then (readBody .plain [] rest (c.seen + 1)).map (fun r => (.string r.1, r.2))
      else if d = '[' then
        if nestingLimit ≤ depth then .error c.unexpected
        else
          let first := behind.next
          match first.rest with
          | ']' :: more => .ok (.array [], ⟨more, first.seen + 1⟩)
          | _ => readItems fuel (depth + 1) [] first
      else if d = '\x7b' then
        if nestingLimit ≤ depth then .error c.unexpected
        else
          let first := behind.next
          match first.rest with
          | '\x7d' :: more => .ok (.object [], ⟨more, first.seen + 1⟩)
          | _ => readMembers fuel (depth + 1) [] first
      else .error c.unexpected

/-- **The items of an array**, up to its closing bracket; `done` holds those read, last first. -/
def readItems (fuel depth : Nat) (done : List Json) (c : Cursor) : Reading Json :=
  match fuel with
  | 0 => .error c.unexpected
  | fuel + 1 =>
    match readValue fuel depth c with
    | .error fault => .error fault
    | .ok (item, c) =>
      let c := c.next
      match c.rest with
      | ',' :: rest => readItems fuel depth (item :: done) ⟨rest, c.seen + 1⟩
      | ']' :: rest => .ok (.array (item :: done).reverse, ⟨rest, c.seen + 1⟩)
      | _ => .error c.unexpected

/-- **The members of an object**, up to its closing brace; `done` holds those read, last first. -/
def readMembers (fuel depth : Nat) (done : List (String × Json)) (c : Cursor) : Reading Json :=
  match fuel with
  | 0 => .error c.unexpected
  | fuel + 1 =>
    match readKey c with
    | .error fault => .error fault
    | .ok (key, c) =>
      match readValue fuel depth c with
      | .error fault => .error fault
      | .ok (value, c) =>
        let c := c.next
        match c.rest with
        | ',' :: rest => readMembers fuel depth ((key, value) :: done) ⟨rest, c.seen + 1⟩
        | '\x7d' :: rest => .ok (.object ((key, value) :: done).reverse, ⟨rest, c.seen + 1⟩)
        | _ => .error c.unexpected

end

/-- **The value a text begins with**, and the place behind it. -/
def readFirst (text : String) : Reading Json := readValue float (2 * text.length + 2) 0 (Cursor.ofString text)

def read (text : String) : Except Fault Json := do
  let (value, c) ← readFirst float text
  readEnd c
  return value

end

end Json
end Valgen
