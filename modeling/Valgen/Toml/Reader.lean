import Valgen.Toml.Scalar
/-!
# Toml.Reader — TOML text to tables

The reader takes a document line by line: blank lines and comments, keys with their values, and headers.  Values in
brackets may span lines, tables in braces may not.  Arrays and tables nest up to a limit, and a key has as many parts at
most.  Only whether a text is TOML matters, not where it stops being so,
so reading gives an `Option`.
-/
namespace Valgen
namespace Toml

def skipBlanks : List Char → List Char
  | [] => []
  | c :: rest => if c = ' ' ∨ c = '\t' then skipBlanks rest else c :: rest

/-- **The text behind a comment**, which ends before the line break. -/
def skipComment? : List Char → Option (List Char)
  | [] => some []
  | '\n' :: rest => some ('\n' :: rest)
  | '\r' :: '\n' :: rest => some ('\r' :: '\n' :: rest)
  | c :: rest => if isControl c then none else skipComment? rest

/-- **The text behind the end of a line**: blanks, a comment, then a line break or the end of the text. -/
def endLine? (cs : List Char) : Option (List Char) := do
  let cs := skipBlanks cs
  let cs ← match cs with
    | '#' :: rest => skipComment? rest
    | _ => some cs
  match cs with
  | [] => some []
  | '\n' :: rest => some rest
  | '\r' :: '\n' :: rest => some rest
  | _ => none

/-- **The text behind blanks, comments and line breaks**, at most `steps` of them. -/
def skipLines? : Nat → List Char → Option (List Char)
  | 0, cs => some cs
  | steps + 1, cs =>
    match skipBlanks cs with
    | '\n' :: rest => skipLines? steps rest
    | '\r' :: '\n' :: rest => skipLines? steps rest
    | '#' :: rest => (skipComment? rest).bind (skipLines? steps)
    | cs => some cs

/-! ## Keys -/

def isBareKeyChar (c : Char) : Bool := c.isAlphanum || c == '_' || c == '-'

/-- **One part of a key**: bare, or a string on one line. -/
def readKeyPart? (cs : List Char) : Option (String × List Char) :=
  match cs with
  | '"' :: rest => basicBody .plain [] rest
  | '\'' :: rest => literalBody [] rest
  | _ =>
    let bare := cs.takeWhile isBareKeyChar
    if bare.isEmpty then none else some (String.ofList bare, cs.dropWhile isBareKeyChar)

/-- **How many arrays and tables in braces may be nested**, and how many parts a key may have. -/
def nestingLimit : Nat := 80

/-- **A key with dots**: its parts, of which there are at most `steps`. -/
def readKey? : Nat → List Char → Option (List String × List Char)
  | 0, _ => none
  | steps + 1, cs => do
    let (part, rest) ← readKeyPart? (skipBlanks cs)
    match skipBlanks rest with
    | '.' :: rest => do
      let (parts, rest) ← readKey? steps rest
      return (part :: parts, rest)
    | rest => return ([part], rest)

/-! ## Values -/

/-- **A character of a number, a date or a word.** -/
def isWordChar (c : Char) : Bool := c.isAlphanum || c == '_' || c == '+' || c == '-' || c == '.' || c == ':'

/-- **A word**: a day and a time may stand apart by a space. -/
def readWord? (cs : List Char) : Option (Value × List Char) :=
  let word := cs.takeWhile isWordChar
  let rest := cs.dropWhile isWordChar
  let time := (rest.drop 1).takeWhile isWordChar
  if isDay word && rest.head? == some ' ' && time.head?.any Char.isDigit then
    (wordValue? (word ++ ' ' :: time)).map (fun v => (v, (rest.drop 1).dropWhile isWordChar))
  else (wordValue? word).map (fun v => (v, rest))

mutual

/-- **A value** inside of `depth` others; `fuel` bounds the calls and is never used up when it is twice the length of
the text. -/
def readValue? (fuel depth : Nat) (cs : List Char) : Option (Value × List Char) :=
  match fuel with
  | 0 => none
  | fuel + 1 =>
    match cs with
    | '[' :: rest => if nestingLimit ≤ depth then none else readItems? fuel (depth + 1) [] rest
    | '\x7b' :: rest =>
      if nestingLimit ≤ depth then none
      else
        match skipBlanks rest with
        | '\x7d' :: behind => some (.table .inline [], behind)
        | _ => readEntries? fuel (depth + 1) [] rest
    | '"' :: _ => (readString? cs).map (fun r => (.string r.1, r.2))
    | '\'' :: _ => (readString? cs).map (fun r => (.string r.1, r.2))
    | _ => readWord? cs

/-- **The items of an array**, up to its bracket; a comma may stand behind the last. -/
def readItems? (fuel depth : Nat) (done : List Value) (cs : List Char) : Option (Value × List Char) :=
  match fuel with
  | 0 => none
  | fuel + 1 => do
    let cs ← skipLines? cs.length cs
    match cs with
    | ']' :: rest => some (.array done.reverse, rest)
    | _ =>
      let (item, rest) ← readValue? fuel depth cs
      let rest ← skipLines? rest.length rest
      match rest with
      | ',' :: rest => readItems? fuel depth (item :: done) rest
      | ']' :: rest => some (.array (item :: done).reverse, rest)
      | _ => none

/-- **The entries of a table in braces**, up to its brace. -/
def readEntries? (fuel depth : Nat) (done : Entries) (cs : List Char) : Option (Value × List Char) :=
  match fuel with
  | 0 => none
  | fuel + 1 => do
    let (kv, rest) ← readKeyValue? fuel depth cs
    let done ← Entries.put? kv.key kv.value kv.path done
    match skipBlanks rest with
    | ',' :: rest => readEntries? fuel depth done rest
    | '\x7d' :: rest => some (.table .inline done, rest)
    | _ => none

def readKeyValue? (fuel depth : Nat) (cs : List Char) : Option (KeyValue × List Char) :=
  match fuel with
  | 0 => none
  | fuel + 1 => do
    let (parts, rest) ← readKey? nestingLimit cs
    let key ← parts.getLast?
    match rest with
    | '=' :: rest =>
      let (value, rest) ← readValue? fuel depth (skipBlanks rest)
      return (⟨parts.dropLast, key, value⟩, rest)
    | _ => none

end

/-! ## Documents -/

/-- **A header**, behind its brackets. -/
def readHeader? (repeated : Bool) (cs : List Char) : Option (Header × List Char) := do
  let (parts, rest) ← readKey? nestingLimit cs
  let key ← parts.getLast?
  let rest ← match repeated, rest with
    | true, ']' :: ']' :: rest => some rest
    | false, ']' :: rest => some rest
    | _, _ => none
  return (⟨parts.dropLast, key, repeated⟩, rest)

/-- **The keys before the first header, and the sections**, both last first. -/
structure Draft where
  keyValues : List KeyValue := []
  sections : List Section := []

namespace Draft

/-- **One key more**, in the last section. -/
def addKeyValue (d : Draft) (kv : KeyValue) : Draft :=
  match d.sections with
  | [] => { d with keyValues := kv :: d.keyValues }
  | s :: rest => { d with sections := { s with keyValues := kv :: s.keyValues } :: rest }

def addHeader (d : Draft) (h : Header) : Draft := { d with sections := ⟨h, []⟩ :: d.sections }

def entries? (d : Draft) : Option Entries :=
  Entries.ofSections? d.keyValues.reverse
    (d.sections.reverse.map (fun s => { s with keyValues := s.keyValues.reverse }))

end Draft

/-- **The lines of a document**, of which there are at most `steps`. -/
def readLines? : Nat → Draft → List Char → Option Draft
  | 0, _, _ => none
  | steps + 1, d, cs =>
    match skipBlanks cs with
    | [] => some d
    | '[' :: '[' :: rest => do
      let (h, rest) ← readHeader? true rest
      let rest ← endLine? rest
      readLines? steps (d.addHeader h) rest
    | '[' :: rest => do
      let (h, rest) ← readHeader? false rest
      let rest ← endLine? rest
      readLines? steps (d.addHeader h) rest
    | '#' :: rest => (endLine? ('#' :: rest)).bind (readLines? steps d)
    | '\n' :: rest => readLines? steps d rest
    | '\r' :: '\n' :: rest => readLines? steps d rest
    | cs => do
      let (kv, rest) ← readKeyValue? (2 * cs.length + 2) 0 cs
      let rest ← endLine? rest
      readLines? steps (d.addKeyValue kv) rest

def dropMark : List Char → List Char
  | '\ufeff' :: rest => rest
  | cs => cs

def read? (text : String) : Option Entries :=
  let cs := dropMark text.toList
  (readLines? (cs.length + 1) {} cs).bind Draft.entries?

end Toml
end Valgen
