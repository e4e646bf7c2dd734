import Valgen.Json.Reader
import Valgen.Schema.Decode
/-!
# Schema.Source — source texts and places in them

Schemas and manifests are read from text, and what is wrong with a text is reported with the place in it.  Lines and
columns count from one and columns count bytes; `offsetOf?` turns them into a byte offset.
-/
namespace Valgen

/-- **A stretch of a text**, in bytes. -/
structure Span where
  offset : Nat
  length : Nat
deriving DecidableEq, Repr

/-- **What can go wrong when schemas and manifests are read.** -/
inductive LoadError where
  /-- A file cannot be read. -/
  | unreadable (path : String)
  /-- A text is not JSON, or not a schema. -/
  | malformed (span : Option Span)
  /-- A JSON value is not a schema. -/
  | wrongShape
  /-- A manifest is not TOML, or not of the right shape. -/
  | badManifest
  /-- A manifest breaks a rule. -/
  | rejected (reason : String) (span : Option Span)
deriving DecidableEq, Repr

namespace LoadError

def message : LoadError → String
  | .unreadable path => "failed to read '" ++ path ++ "'"
  | .malformed _ => "failed to parse schema document"
  | .wrongShape => "invalid schema value"
  | .badManifest => "failed to parse jz.toml"
  | .rejected reason _ => reason

def code : LoadError → String
  | .unreadable _ => "jz::io"
  | .malformed _ => "jz::schema::parse"
  | .wrongShape => "jz::schema::invalid"
  | .badManifest => "jz::manifest::parse"
  | .rejected _ _ => "jz::manifest::validation"

def help? : LoadError → Option String
  | .malformed _ => some "schemas must be JSON objects or booleans using standard keyword shapes"
  | _ => none

end LoadError

/-- **A text and the name of the file it comes from.** -/
structure Source where
  text : String
  filename : String
deriving DecidableEq, Repr

namespace Source

/-- **The sizes of the lines of a text in bytes**, line feeds included. -/
def lineSizes : List Char → List Nat
  | [] => []
  | c :: rest =>
    if c = '\n' then 1 :: lineSizes rest
    else
      match lineSizes rest with
      | [] => [c.utf8Size]
      | size :: more => (c.utf8Size + size) :: more

/-- **The byte offset of a line and a column**, if it is not behind the end of the text.  Line zero has none, and
column zero counts as the first.  The numbers are not bounded: where words of 64 bits are added, a column near `2 ^ 64`
would overflow, which here lies behind the end of every text. -/
def offsetOf? (text : String) (line column : Nat) : Option Nat :=
  if line = 0 then none
  else
    let offset := ((lineSizes text.toList).take (line - 1)).foldr (fun size total => size + total) 0 + (column - 1)
    if offset ≤ text.utf8ByteSize then some offset else none

/-- **The line and the column that `seen` bytes reach**, from a line that starts at `start`. -/
def placeFrom (seen line start at_ : Nat) : List Char → Nat × Nat
  | [] => (line, seen - start)
  | c :: rest =>
    if c = '\n' ∧ at_ < seen then placeFrom seen (line + 1) (at_ + 1) (at_ + 1) rest
    else placeFrom seen line start (at_ + c.utf8Size) rest

/-- **The line and the column that `seen` bytes reach**: the line feeds among them count lines, the bytes behind the
last of these are the column. -/
def placeOf (text : String) (seen : Nat) : Nat × Nat := placeFrom seen 1 0 0 text.toList

/-- **The span of a fault**: the place of the last byte looked at. -/
def faultSpan? (text : String) (fault : Json.Fault) : Option Span :=
  let (line, column) := placeOf text fault.seen
  (offsetOf? text line column).map (fun offset => ⟨offset, 0⟩)

/-- **The byte offset of the first occurrence of a text**, counted from `at_`. -/
def findFrom (needle : List Char) (at_ : Nat) : List Char → Option Nat
  | [] => if needle.isEmpty then some at_ else none
  | c :: rest => if needle.isPrefixOf (c :: rest) then some at_ else findFrom needle (at_ + c.utf8Size) rest

/-- **An error about the first occurrence of `needle`**, or about no place if there is none. -/
def reject (source : Source) (reason needle : String) : LoadError :=
  .rejected reason ((findFrom needle.toList 0 source.text.toList).map (fun at_ => ⟨at_, needle.utf8ByteSize⟩))

end Source

namespace Schema

/-- **The schema of a text**, with a rounding for its numbers.  The shape of the first value is judged before what
follows it. -/
def Node.parseWith (float : Json.Rounding) (text : String) : Except LoadError Node :=
  match Json.readFirst float text with
  | .error fault => .error (.malformed (Source.faultSpan? text fault))
  | .ok (value, c) =>
    match Node.ofJson? value with
    | none => .error (.malformed none)
    | some node =>
      match Json.readEnd c with
      | .error fault => .error (.malformed (Source.faultSpan? text fault))
      | .ok () => .ok node

def Node.parse (text : String) : Except LoadError Node := Node.parseWith Json.round text

/-- **The schema of a JSON value**, in which a repeated key counts once. -/
def Node.ofValue (value : Json) : Except LoadError Node :=
  match Node.ofJson? value.mergeRepeats with
  | some node => .ok node
  | none => .error .wrongShape

end Schema
end Valgen
