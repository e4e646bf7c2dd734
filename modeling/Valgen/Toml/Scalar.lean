import Valgen.Json.Reader
import Valgen.Text.Split
import Valgen.Toml.Value
/-!
# Toml.Scalar — the spelling of numbers, dates and strings

Numbers and dates are words whose spelling is checked; strings come in four forms, with and without escapes, on one
line or on several.
-/
namespace Valgen
namespace Toml

/-! ## Numbers -/

/-- **Digits in groups**, with single underscores between digits. -/
def digitGroups (isDigit : Char → Bool) (cs : List Char) : Bool :=
  (Text.splitAt '_' cs).all (fun group => !group.isEmpty && group.all isDigit)

def dropSign : List Char → List Char
  | '+' :: rest => rest
  | '-' :: rest => rest
  | cs => cs

/-- **A decimal whole number without a sign**: no zero in front of other digits. -/
def isPlainInteger (cs : List Char) : Bool :=
  digitGroups Char.isDigit cs && (cs.length == 1 || cs.head? != some '0')

def isHexDigit (c : Char) : Bool := (Json.hexDigit c).isSome

def isOctalDigit (c : Char) : Bool := '0' ≤ c && c ≤ '7'

def isBinaryDigit (c : Char) : Bool := c == '0' || c == '1'

def isInteger (cs : List Char) : Bool :=
  match cs with
  | '0' :: 'x' :: rest => digitGroups isHexDigit rest
  | '0' :: 'o' :: rest => digitGroups isOctalDigit rest
  | '0' :: 'b' :: rest => digitGroups isBinaryDigit rest
  | _ => isPlainInteger (dropSign cs)

/-- **The number of digits of a base**, with underscores between them or not. -/
def groupsValue (base : Nat) (cs : List Char) : Nat :=
  cs.foldl (fun n c => (Json.hexDigit c).elim n (fun d => n * base + d)) 0

def signed (cs : List Char) (value : Nat) : Int :=
  match cs with
  | '-' :: _ => -(value : Int)
  | _ => value

def integerValue (cs : List Char) : Int :=
  match cs with
  | '0' :: 'x' :: rest => groupsValue 16 rest
  | '0' :: 'o' :: rest => groupsValue 8 rest
  | '0' :: 'b' :: rest => groupsValue 2 rest
  | _ => signed cs (groupsValue 10 (dropSign cs))

/-- **The word up to its `e`, and what stands behind it.** -/
def splitExponent (cs : List Char) : List Char × Option (List Char) :=
  Text.splitFirst 'e' (cs.map (fun c => if c = 'E' then 'e' else c))

/-- **A word for infinity, or for what is no number.** -/
def isSpecialFloat (plain : List Char) : Bool := plain == "inf".toList || plain == "nan".toList

/-- **A float**: a whole number with a fraction, an exponent or both, or one of the special words. -/
def isFloat (cs : List Char) : Bool :=
  let plain := dropSign cs
  if isSpecialFloat plain then true
  else
    let (mantissa, exponent) := splitExponent plain
    let (whole, fraction) := Text.splitFirst '.' mantissa
    isPlainInteger whole && (fraction.isSome || exponent.isSome) &&
      fraction.all (digitGroups Char.isDigit) && exponent.all (fun e => digitGroups Char.isDigit (dropSign e))

/-- **Whether a float is in the range of 64-bit floats**: it does not round to infinity unless it is written so. -/
def floatInRange (cs : List Char) : Bool :=
  let plain := dropSign cs
  if isSpecialFloat plain then true
  else
    let (mantissa, exponent) := splitExponent plain
    let (whole, fraction) := Text.splitFirst '.' mantissa
    let places := (fraction.getD []).filter Char.isDigit
    let power := exponent.elim 0 (fun e => signed e (groupsValue 10 (dropSign e)))
    (Binary64.ofDecimal? false (groupsValue 10 (whole ++ places)) (power - places.length)).isSome

/-! ## Dates and times -/

def fixedDigits? (count : Nat) (cs : List Char) : Option Nat :=
  if cs.length = count ∧ cs.all Char.isDigit then
    some (cs.foldl (fun n c => n * 10 + (c.toNat - '0'.toNat)) 0)
  else none

def monthDays (year month : Nat) : Nat :=
  if month = 2 then
    if year % 4 = 0 ∧ (year % 100 ≠ 0 ∨ year % 400 = 0) then 29 else 28
  else if month = 4 ∨ month = 6 ∨ month = 9 ∨ month = 11 then 30 else 31

/-- **A day**: `1979-05-27`. -/
def isDay (cs : List Char) : Bool :=
  match (Text.splitAt '-' cs) with
  | [y, m, d] =>
    match fixedDigits? 4 y, fixedDigits? 2 m, fixedDigits? 2 d with
    | some year, some month, some day => 1 ≤ month && month ≤ 12 && 1 ≤ day && day ≤ monthDays year month
    | _, _, _ => false
  | _ => false

/-- **A time of day**: `07:32:00`, with a fraction of a second or not. -/
def isTime (cs : List Char) : Bool :=
  let (clock, fraction) := Text.splitFirst '.' cs
  match Text.splitAt ':' clock with
  | [h, m, s] =>
    match fixedDigits? 2 h, fixedDigits? 2 m, fixedDigits? 2 s with
    | some hour, some minute, some second =>
      hour ≤ 23 && minute ≤ 59 && second ≤ 60 && fraction.all (fun f => !f.isEmpty && f.all Char.isDigit)
    | _, _, _ => false
  | _ => false

/-- **An offset from universal time**: `+01:30`, without its sign. -/
def isOffset (cs : List Char) : Bool :=
  match Text.splitAt ':' cs with
  | [h, m] =>
    match fixedDigits? 2 h, fixedDigits? 2 m with
    | some hour, some minute => hour ≤ 23 && minute ≤ 59
    | _, _ => false
  | _ => false

def isZonedTime (cs : List Char) : Bool :=
  match cs.getLast? with
  | some 'Z' => isTime cs.dropLast
  | some 'z' => isTime cs.dropLast
  | _ =>
    match Text.splitFirst '+' cs with
    | (time, some offset) => isTime time && isOffset offset
    | (_, none) =>
      match Text.splitFirst '-' cs with
      | (time, some offset) => isTime time && isOffset offset
      | (time, none) => isTime time

def isDate (cs : List Char) : Bool :=
  isDay cs || isTime cs ||
    (isDay (cs.take 10) &&
      match cs.drop 10 with
      | c :: rest => (c == 'T' || c == 't' || c == ' ') && isZonedTime rest
      | [] => false)

def wordValue? (cs : List Char) : Option Value :=
  if cs = "true".toList then some (.boolean true)
  else if cs = "false".toList then some (.boolean false)
  else if isInteger cs then some (.integer (integerValue cs))
  else if isFloat cs then some (.float (floatInRange cs))
  else if isDate cs then some (.date (String.ofList cs))
  else none

/-! ## Strings -/

/-- **A character that may not stand in strings and comments.** -/
def isControl (c : Char) : Bool := (c.toNat < 0x20 && c != '\t') || c.toNat == 0x7f

/-- **The character of a code point**, if it is one. -/
def charOf? (n : Nat) : Option Char := if h : n.isValidChar then some (Char.ofNatAux n h) else none

def hexNumber? (cs : List Char) : Option Nat :=
  cs.foldlM (fun n c => (Json.hexDigit c).map (fun d => n * 16 + d)) 0

def escapeChar? (c : Char) : Option Char :=
  if c = '"' ∨ c = '\\' then some c
  else if c = 'b' then some '\x08'
  else if c = 't' then some '\t'
  else if c = 'n' then some '\n'
  else if c = 'f' then some '\x0c'
  else if c = 'r' then some '\r'
  else none

/-- **What the body of a string with escapes waits for.** -/
inductive StringState where
  | plain
  | escape
  /-- The `left` digits of a code point; `digits` holds those read. -/
  | hex (left : Nat) (digits : List Char)
  /-- The rest of the blanks that a backslash at the end of a line drops; whether the line has ended. -/
  | fold (ended : Bool)

/-- **The body of a string with escapes on one line**, behind its quote. -/
def basicBody : StringState → List Char → List Char → Option (String × List Char)
  | _, _, [] => none
  | .plain, done, c :: rest =>
    if c = '"' then some (String.ofList done.reverse, rest)
    else if c = '\\' then basicBody .escape done rest
    else if isControl c then none
    else basicBody .plain (c :: done) rest
  | .escape, done, c :: rest =>
    if c = 'u' then basicBody (.hex 4 []) done rest
    else if c = 'U' then basicBody (.hex 8 []) done rest
    else (escapeChar? c).bind (fun d => basicBody .plain (d :: done) rest)
  | .hex left digits, done, c :: rest =>
    if 1 < left then basicBody (.hex (left - 1) (digits ++ [c])) done rest
    else ((hexNumber? (digits ++ [c])).bind charOf?).bind (fun d => basicBody .plain (d :: done) rest)
  | .fold _, _, _ => none

/-- **The body of a string without escapes on one line**, behind its quote. -/
def literalBody (done : List Char) : List Char → Option (String × List Char)
  | [] => none
  | c :: rest =>
    if c = '\'' then some (String.ofList done.reverse, rest)
    else if isControl c then none
    else literalBody (c :: done) rest

def dropBreak : List Char → List Char
  | '\n' :: rest => rest
  | '\r' :: '\n' :: rest => rest
  | cs => cs

/-- **The quotes a text of several lines ends with**: three close it, and up to two before them belong to it. -/
def closing? (quote : Char) (cs : List Char) : Option (Nat × List Char) :=
  let count := min 5 (cs.takeWhile (fun c => c == quote)).length
  if count < 3 then none else some (count - 3, cs.drop count)

/-- **The body of a string without escapes on several lines.** -/
def longLiteralBody (done : List Char) : List Char → Option (String × List Char)
  | [] => none
  | c :: rest =>
    if c = '\'' then
      match closing? '\'' (c :: rest) with
      | some (extra, behind) => some (String.ofList (List.replicate extra '\'' ++ done).reverse, behind)
      | none => longLiteralBody (c :: done) rest
    else if c = '\r' then
      if rest.head? = some '\n' then longLiteralBody (c :: done) rest else none
    else if c ≠ '\n' ∧ isControl c then none
    else longLiteralBody (c :: done) rest

/-- **The body of a string with escapes on several lines.** -/
def longBasicBody : StringState → List Char → List Char → Option (String × List Char)
  | _, _, [] => none
  | .plain, done, c :: rest =>
    if c = '"' then
      match closing? '"' (c :: rest) with
      | some (extra, behind) => some (String.ofList (List.replicate extra '"' ++ done).reverse, behind)
      | none => longBasicBody .plain (c :: done) rest
    else if c = '\\' then longBasicBody .escape done rest
    else if c = '\r' then
      if rest.head? = some '\n' then longBasicBody .plain (c :: done) rest else none
    else if c ≠ '\n' ∧ isControl c then none
    else longBasicBody .plain (c :: done) rest
  | .escape, done, c :: rest =>
    if c = 'u' then longBasicBody (.hex 4 []) done rest
    else if c = 'U' then longBasicBody (.hex 8 []) done rest
    else if c = ' ' ∨ c = '\t' then longBasicBody (.fold false) done rest
    else if c = '\n' then longBasicBody (.fold true) done rest
    else if c = '\r' then
      if rest.head? = some '\n' then longBasicBody (.fold false) done rest else none
    else (escapeChar? c).bind (fun d => longBasicBody .plain (d :: done) rest)
  | .hex left digits, done, c :: rest =>
    if 1 < left then longBasicBody (.hex (left - 1) (digits ++ [c])) done rest
    else ((hexNumber? (digits ++ [c])).bind charOf?).bind (fun d => longBasicBody .plain (d :: done) rest)
  | .fold ended, done, c :: rest =>
    if c = ' ' ∨ c = '\t' then longBasicBody (.fold ended) done rest
    else if c = '\n' then longBasicBody (.fold true) done rest
    else if c = '\r' then
      if rest.head? = some '\n' then longBasicBody (.fold ended) done rest else none
    else if !ended then none
    else if c = '"' then
      match closing? '"' (c :: rest) with
      | some (extra, behind) => some (String.ofList (List.replicate extra '"' ++ done).reverse, behind)
      | none => longBasicBody .plain (c :: done) rest
    else if c = '\\' then longBasicBody .escape done rest
    else if isControl c then none
    else longBasicBody .plain (c :: done) rest

/-- **A string**, and what follows it. -/
def readString? : List Char → Option (String × List Char)
  | '"' :: '"' :: '"' :: rest => longBasicBody .plain [] (dropBreak rest)
  | '\'' :: '\'' :: '\'' :: rest => longLiteralBody [] (dropBreak rest)
  | '"' :: rest => basicBody .plain [] rest
  | '\'' :: rest => literalBody [] rest
  | _ => none

end Toml
end Valgen
