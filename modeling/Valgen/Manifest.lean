import Valgen.Options
import Valgen.Project.Registry
import Valgen.Toml.Reader
/-!
# Manifest — the documents of a project and its options

A manifest is a TOML text.  The table `project` holds the options, the table `documents` has one table for each
document, named by its id.  Keys without meaning are skipped, but the numbers in what they hold have to be in range.  A
document has no `#` in its id, and its root does not have the name of one of the definitions it exports.
-/
namespace Valgen
namespace Manifest

open Toml (Value Entries)

/-- **A document of a manifest**: its id, the file of its schema and what the user wants of it. -/
structure Entry where
  id : String
  path : String
  wishes : Project.Meta
deriving DecidableEq, Repr

/-- **The whole numbers of 128 bits**, with a sign or without. -/
def wideRange : Toml.Range := ⟨-0x80000000000000000000000000000000, 0xffffffffffffffffffffffffffffffff⟩

/-- **The whole numbers of 64 bits**, with a sign or without. -/
def wordRange : Toml.Range := ⟨-0x8000000000000000, 0xffffffffffffffff⟩

/-- **The value of a setting.**  A variant may also be the one key of a table that holds nothing; what no setting takes
is the empty array. -/
def settingOf : Value → Json
  | .string text => .string text
  | .boolean value => .bool value
  | .table _ [(key, .table _ [])] => .object [(key, .null)]
  | .table _ [(key, .array [])] => .object [(key, .null)]
  | _ => .array []

/-- **The options of a value**: a table of settings, an array with the settings in the order of the fields, or a date,
which is taken for a table without settings. -/
def options? : Value → Option Options
  | .table _ entries =>
    if Toml.entriesFit wideRange entries then Options.setAll? {} (entries.map (fun e => (e.1, settingOf e.2))) else none
  | .array items => Options.setAll? {} (Options.fieldNames.zip (items.map settingOf))
  | .tables elements =>
    Options.setAll? {} (Options.fieldNames.zip (elements.map (fun e => settingOf (.table .header e))))
  | .date _ => some {}
  | _ => none

def text? : Value → Option String
  | .string text => some text
  | _ => none

def texts? : Value → Option (List String)
  | .array items => items.mapM text?
  | _ => none

/-- **What a key holds**: nothing if the key is absent, and a value of the wrong kind is refused. -/
def optional? {α : Type} (read : Value → Option α) (entries : Entries) (key : String) : Option (Option α) :=
  match Assoc.get? entries key with
  | none => some none
  | some value => (read value).map some

def entry? (id : String) : Value → Option Entry
  | .table _ entries => do
    if !Toml.entriesFit wordRange entries then none
    let path ← (Assoc.get? entries "path").bind text?
    let defaultExport ← optional? text? entries "default_export"
    let exports ← optional? texts? entries "exports"
    let module ← optional? text? entries "module"
    return ⟨id, path, { defaultExport := defaultExport, exports := exports.getD [], module := module }⟩
  | _ => none

/-- **The documents of the table `documents`**, in order. -/
def entries? : Value → Option (List Entry)
  | .table _ entries => entries.mapM (fun e => entry? e.1 e.2)
  | _ => none

/-- **The reason for which a document is refused**, and the text it is about. -/
def fault? (e : Entry) : Option (String × String) :=
  if e.id.toList.contains '#' then some ("document id '" ++ e.id ++ "' must not contain '#'", e.id)
  else
    match e.wishes.defaultExport with
    | none => none
    | some name =>
      if e.wishes.exports.contains name then
        some ("document '" ++ e.id ++ "' exports '" ++ name ++ "' both as default and as a definition", name)
      else none

end Manifest

/-- **A manifest**: the options of a project and its documents. -/
structure Manifest where
  options : Options := {}
  documents : List Manifest.Entry := []
deriving DecidableEq, Repr

namespace Manifest

def ofEntries? (entries : Toml.Entries) : Option Manifest := do
  if !Toml.entriesFit wideRange (entries.filter (fun e => e.1 != "project" && e.1 != "documents")) then none
  let options ← optional? options? entries "project"
  let documents ← optional? entries? entries "documents"
  return { options := options.getD {}, documents := documents.getD [] }

/-- **The manifest of a text.**  The first document that breaks a rule is reported. -/
def parse (source : Source) : Except LoadError Manifest :=
  match (Toml.read? source.text).bind ofEntries? with
  | none => .error .badManifest
  | some manifest =>
    match manifest.documents.findSome? fault? with
    | some (reason, needle) => .error (source.reject reason needle)
    | none => .ok manifest

end Manifest
end Valgen
