import Valgen.Error
import Valgen.Name
import Valgen.Text.Visible
/-!
# Project.Registry — the documents of a project

A document has an id, a schema, the wishes of the user about it, an alias under which other modules import it, and a
state.  Its exports are the root and its definitions (or those the user lists), each bound to an identifier; no two
exports of a document share one, and no two documents an alias.
-/
namespace Valgen
namespace Project

open Schema (Node)

/-- **What the user wants of a document.** -/
structure Meta where
  /-- The name of the root; derived from the id when absent. -/
  defaultExport : Option String := none
  /-- The definitions that are exported; all of them when there are none. -/
  exports : List String := []
  /-- What other documents import it from. -/
  module : Option String := none
deriving DecidableEq, Repr

/-- **What becomes of a document in a compilation.** -/
inductive Phase where
  | registered
  | compiling
  | compiled
deriving DecidableEq, Repr

/-- **An export**: the root, or a definition. -/
inductive Export where
  | root
  | named (name : String)
deriving DecidableEq, Repr

namespace Export

def name? : Export → Option String
  | .root => none
  | .named name => some name

def label : Export → String
  | .root => "Default"
  | .named name => "Named(" ++ Text.visible name ++ ")"

end Export

structure Document where
  id : String
  node : Node
  wishes : Meta
  /-- The name under which other modules import it. -/
  importName : String
  phase : Phase := .registered

namespace Document

/-- **What other documents import it from.** -/
def module (d : Document) : String := d.wishes.module.getD ("./" ++ d.id)

/-- **The name of the constant of the root.** -/
def rootBinding (d : Document) : String := Name.safeIdentifier (d.wishes.defaultExport.getD (Name.camelCase d.id))

def exportNames (d : Document) : List String :=
  if d.wishes.exports.isEmpty then (d.node.keywords?.map (fun k => k.definitionNames)).getD [] else d.wishes.exports

/-- **The exports**, the root first. -/
def exports (d : Document) : List Export := .root :: d.exportNames.map .named

def hasExport (d : Document) (name : String) : Bool := d.exportNames.contains name

def binding (d : Document) : Export → String
  | .root => d.rootBinding
  | .named name => Name.safeIdentifier name

def target? (d : Document) : Export → Option Node
  | .root => some d.node
  | .named name => d.node.keywords?.bind (fun k => k.definition? name)

/-- **The first export whose constant has a name that one before it has**, with that one and the name. -/
def clash? (d : Document) (before : List Export) : List Export → Option (Export × Export × String)
  | [] => none
  | e :: rest =>
    match before.find? (fun other => d.binding other == d.binding e) with
    | some other => some (other, e, d.binding e)
    | none => clash? d (before ++ [e]) rest

/-- **Refuses a document in which two exports share a name.** -/
def checkBindings (d : Document) : Except Error Unit :=
  match d.clash? [] d.exports with
  | none => .ok ()
  | some (other, e, name) =>
    .error (.conflict ("exports " ++ other.label ++ " and " ++ e.label ++ " of document '" ++ d.id ++ "' both bind `" ++
      name ++ "`") (some "set `default_export` or rename the definition"))

end Document

/-- **The documents of a project**, in the order in which they were registered. -/
abbrev Registry : Type := List Document

namespace Registry

def get? (r : Registry) (id : String) : Option Document := r.find? (fun d => d.id == id)

def contains (r : Registry) (id : String) : Bool := r.any (fun d => d.id == id)

def aliasTaken (r : Registry) (name : String) : Bool := r.any (fun d => d.importName == name)

/-- **The aliases to try for an id**: its name, then the name with numbers from two on.  There is one more than there
are documents, so one of them is free. -/
def aliasCandidates (r : Registry) (id : String) : List String :=
  let name := Name.safeIdentifier (Name.camelCase id)
  name :: (List.range r.length).map (fun n => name ++ "_" ++ toString (n + 2))

def freshAlias (r : Registry) (id : String) : String :=
  ((r.aliasCandidates id).find? (fun name => !r.aliasTaken name)).getD (Name.safeIdentifier (Name.camelCase id))

/-- **The documents with a change to the one of an id.** -/
def modify (r : Registry) (id : String) (f : Document → Document) : Registry :=
  List.map (fun d => if d.id == id then f d else d) r

/-- **One document more.**  What is left of the documents comes with the outcome, here and below, also when it is an
error. -/
def register (r : Registry) (id : String) (node : Node) (wishes : Meta) : Except Error Unit × Registry :=
  if r.contains id then (.error (.duplicateDocument id), r)
  else
    let d : Document := { id := id, node := node, wishes := wishes, importName := r.freshAlias id }
    match d.checkBindings with
    | .error e => (.error e, r)
    | .ok () => (.ok (), r ++ [d])

/-- **Another schema and other wishes for a document**, which keeps its place and its alias. -/
def update (r : Registry) (id : String) (node : Node) (wishes : Meta) : Except Error Unit × Registry :=
  match r.get? id with
  | none => (.error (.unknownDocument id), r)
  | some d =>
    let updated : Document := { d with node := node, wishes := wishes, phase := .registered }
    match updated.checkBindings with
    | .error e => (.error e, r)
    | .ok () => (.ok (), r.modify id (fun _ => updated))

/-- **One document less**, which is the outcome.  The documents are gone through before anything is refused. -/
def remove (r : Registry) (id : String) : Except Error Document × Registry :=
  ((r.get? id).elim (.error (.unknownDocument id)) .ok, List.filter (fun d => d.id != id) r)

def setPhase (r : Registry) (id : String) (phase : Phase) : Registry := r.modify id (fun d => { d with phase := phase })

def resetPhases (r : Registry) : Registry := List.map (fun d => { d with phase := .registered }) r

end Registry
end Project
end Valgen
