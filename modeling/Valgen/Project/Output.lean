import Valgen.Project.Graph
import Valgen.Project.Registry
import Valgen.Validator.Basic
/-!
# Project.Output — what the compilation of a project gives

For each document the constants of its module and the documents it imports, then the edges and the cycles between the
documents.
-/
namespace Valgen
namespace Project

structure DocumentImport where
  id : String
  /-- The name under which it is imported. -/
  importName : String
  module : String
deriving DecidableEq, Repr

/-- **The imports with one more**: they ascend by name, and the first import of a name stays. -/
def addImport (i : DocumentImport) : List DocumentImport → List DocumentImport
  | [] => [i]
  | j :: rest =>
    if i.importName < j.importName then i :: j :: rest
    else if i.importName = j.importName then j :: rest
    else j :: addImport i rest

structure ExportOutput where
  name? : Option String
  binding : String
  expression : String
  isDefault : Bool
deriving DecidableEq, Repr

structure DocumentOutput where
  id : String
  importName : String
  module : String
  imports : List DocumentImport := []
  exports : List ExportOutput := []
deriving DecidableEq, Repr

namespace DocumentOutput

/-- **The export of a name**, or without a name. -/
def export? (d : DocumentOutput) (name : Option String) : Option ExportOutput :=
  d.exports.find? (fun e => e.name? == name)

def default? (d : DocumentOutput) : Option ExportOutput := d.exports.find? (fun e => e.isDefault)

end DocumentOutput

structure Output where
  documents : List DocumentOutput
  edges : List Edge
  cycles : List (List String)
deriving DecidableEq, Repr

def Output.deferredCount (o : Output) : Nat := (o.edges.filter (fun e => e.deferred)).length

/-- **Where the compilation of an export stands.** -/
inductive Progress where
  | compiling
  | compiled (v : Validator)

/-- **The exports whose compilation has begun.** -/
abbrev Cache : Type := List ((String × Export) × Progress)

namespace Cache

def progress? (c : Cache) (document : String) (e : Export) : Option Progress :=
  (c.find? (fun entry => entry.1 == (document, e))).map Prod.snd

def get? (c : Cache) (document : String) (e : Export) : Option Validator :=
  match c.progress? document e with
  | some (.compiled v) => some v
  | _ => none

def isCompiling (c : Cache) (document : String) (e : Export) : Bool :=
  match c.progress? document e with
  | some .compiling => true
  | _ => false

def put (c : Cache) (document : String) (e : Export) (progress : Progress) : Cache :=
  c.filter (fun entry => entry.1 != (document, e)) ++ [((document, e), progress)]

def begin (c : Cache) (document : String) (e : Export) : Cache := c.put document e .compiling

def finish (c : Cache) (document : String) (e : Export) (v : Validator) : Cache := c.put document e (.compiled v)

def invalidate (c : Cache) (document : String) : Cache := c.filter (fun entry => entry.1.1 != document)

end Cache
end Project
end Valgen
