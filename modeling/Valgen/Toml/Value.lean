import Valgen.Assoc
/-!
# Toml.Value — the tables of a TOML document

A document is a list of sections, each a header and the keys below it.  `Value.ofSections?` puts them together as one
table and refuses a document that says something twice:

- a key is given once;
- a table has one header at most, and none if its keys were given with dots;
- a table in braces is closed: nothing is added to it later.

A table that only stands on the way to another one is implicit and may get its header later; it moves to the end of the
table it is in then.
-/
namespace Valgen
namespace Toml

/-- **How a table came about.** -/
inductive Origin where
  /-- By a header of its own. -/
  | header
  /-- On the way to the table of a header. -/
  | implicit
  /-- By a key with dots. -/
  | dotted
  /-- In braces. -/
  | inline
deriving DecidableEq, Repr

inductive Value where
  | string (text : String)
  | boolean (value : Bool)
  | integer (value : Int)
  /-- A float; whether it is in the range of 64-bit floats. -/
  | float (inRange : Bool)
  /-- A date or a time, as it is written. -/
  | date (text : String)
  | array (items : List Value)
  | table (origin : Origin) (entries : List (String × Value))
  /-- The tables of repeated headers in double brackets. -/
  | tables (elements : List (List (String × Value)))

/-- **The whole numbers from one to another**, both included. -/
structure Range where
  least : Int
  greatest : Int
deriving DecidableEq, Repr

def Range.has (r : Range) (value : Int) : Bool := decide (r.least ≤ value) && decide (value ≤ r.greatest)

mutual

/-- **Whether the numbers of a value can be held**: the whole ones are in a range, the floats in theirs. -/
def Value.fits (r : Range) : Value → Bool
  | .string _ => true
  | .boolean _ => true
  | .integer value => r.has value
  | .float inRange => inRange
  | .date _ => true
  | .array items => itemsFit r items
  | .table _ entries => entriesFit r entries
  | .tables elements => elementsFit r elements

def itemsFit (r : Range) : List Value → Bool
  | [] => true
  | value :: rest => value.fits r && itemsFit r rest

def entriesFit (r : Range) : List (String × Value) → Bool
  | [] => true
  | (_, value) :: rest => value.fits r && entriesFit r rest

def elementsFit (r : Range) : List (List (String × Value)) → Bool
  | [] => true
  | entries :: rest => entriesFit r entries && elementsFit r rest

end

/-- **The entries of a table**, in order. -/
abbrev Entries : Type := List (String × Value)

/-- **A key with its value**; the dots of the key make a path. -/
structure KeyValue where
  path : List String
  key : String
  value : Value

/-- **The header of a section**; a repeated one is in double brackets. -/
structure Header where
  path : List String
  key : String
  repeated : Bool

structure Section where
  header : Header
  keyValues : List KeyValue

/-- **The list with its last element changed**, if there is one and the change succeeds. -/
def mapLast? {α : Type} (f : α → Option α) : List α → Option (List α)
  | [] => none
  | [a] => (f a).map (fun b => [b])
  | a :: b :: rest => (mapLast? f (b :: rest)).map (fun l => a :: l)

namespace Entries

/-- **The entries with a key more**, below the tables of a path.  Tables on the way are made, or were made by keys with
dots; a table that was made by a header or in braces is not entered. -/
def put? (key : String) (value : Value) : List String → Entries → Option Entries
  | [], entries => if Assoc.contains entries key then none else some (entries ++ [(key, value)])
  | p :: path, entries =>
    match Assoc.get? entries p with
    | none => (put? key value path []).map (fun sub => entries ++ [(p, .table .dotted sub)])
    | some (.table origin sub) =>
      if origin = .dotted ∨ (origin = .implicit ∧ path ≠ []) then
        (put? key value path sub).map (fun sub => Assoc.insert p (.table origin sub) entries)
      else none
    | some (.tables elements) =>
      if path = [] then none
      else (mapLast? (put? key value path) elements).map (fun elements => Assoc.insert p (.tables elements) entries)
    | some _ => none

def putAll? (entries : Entries) (keyValues : List KeyValue) : Option Entries :=
  keyValues.foldlM (fun entries kv => put? kv.key kv.value kv.path entries) entries

/-- **The entries with a change to the table of a path**; the tables on the way are made if they are not there. -/
def modifyAt? (f : Entries → Option Entries) : List String → Entries → Option Entries
  | [], entries => f entries
  | p :: path, entries =>
    match Assoc.get? entries p with
    | none => (modifyAt? f path []).map (fun sub => entries ++ [(p, .table .implicit sub)])
    | some (.table origin sub) =>
      if origin = .inline then none
      else (modifyAt? f path sub).map (fun sub => Assoc.insert p (.table origin sub) entries)
    | some (.tables elements) =>
      (mapLast? (modifyAt? f path) elements).map (fun elements => Assoc.insert p (.tables elements) entries)
    | some _ => none

/-- **The entries with the table of a header.**  An implicit table gets its header and moves to the end. -/
def addTable? (key : String) (keyValues : List KeyValue) (entries : Entries) : Option Entries :=
  match Assoc.get? entries key with
  | none => (putAll? [] keyValues).map (fun sub => entries ++ [(key, .table .header sub)])
  | some (.table .implicit old) =>
    (putAll? old keyValues).map (fun sub => entries.filter (fun e => e.1 != key) ++ [(key, .table .header sub)])
  | some _ => none

/-- **The entries with one more table of a repeated header.** -/
def addElement? (key : String) (keyValues : List KeyValue) (entries : Entries) : Option Entries :=
  match Assoc.get? entries key with
  | none => (putAll? [] keyValues).map (fun sub => entries ++ [(key, .tables [sub])])
  | some (.tables elements) =>
    (putAll? [] keyValues).map (fun sub => Assoc.insert key (.tables (elements ++ [sub])) entries)
  | some _ => none

def addSection? (entries : Entries) (s : Section) : Option Entries :=
  let add := if s.header.repeated then addElement? s.header.key s.keyValues else addTable? s.header.key s.keyValues
  modifyAt? add s.header.path entries

/-- **The table of a document**: the keys before the first header, then the sections. -/
def ofSections? (keyValues : List KeyValue) (sections : List Section) : Option Entries := do
  let entries ← putAll? [] keyValues
  sections.foldlM addSection? entries

end Entries
end Toml
end Valgen
