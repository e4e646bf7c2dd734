import Valgen.Compile.Document
import Valgen.Project.Output
/-!
# Project.Compile — the compilation of a project

The documents are compiled in the order of the registry, but a reference to a document that waits compiles that one
first; a reference to a document that is under way is deferred.  In the same way the exports of a document are compiled
where they are first referred to.

Every export begins at most once, hence the nesting of exports inside each other is bounded by their number
(`exportCount`), which is what `resolve` counts down.
-/
namespace Valgen
namespace Project

open Compile (CompileM Context Resolution Session Setup)
open Schema (Reference)

/-- **What the compilation of a project remembers.** -/
structure Work where
  registry : Registry
  cache : Cache := []
  graph : Graph := {}
  /-- The documents whose compilation has begun, in that order. -/
  outputs : List DocumentOutput := []

namespace Work

/-- **The work with a change to the output of a document.** -/
def modifyOutput (w : Work) (id : String) (f : DocumentOutput → DocumentOutput) : Work :=
  { w with outputs := w.outputs.map (fun o => if o.id == id then f o else o) }

def setPhase (w : Work) (id : String) (phase : Phase) : Work := { w with registry := w.registry.setPhase id phase }

end Work

abbrev ProjectM : Type → Type := CompileM Work

def getWork : ProjectM Work := do return (← get).world

def modifyWork (f : Work → Work) : ProjectM Unit := modify (fun s => { s with world := f s.world })

/-- **What a `$ref` compiles to.** -/
abbrev Resolver : Type := String → Context → ProjectM Resolution

def definitionKeyword (d : Document) (name : String) : String :=
  match d.node.keywords?.bind (fun k => k.defs) with
  | some defs => if Assoc.contains defs name then "$defs" else "definitions"
  | none => "definitions"

def exportContext (setup : Setup) (d : Document) (e : Export) : Context :=
  let root := Context.root setup.options (some d.id)
  match e with
  | .root => root
  | .named name => root.descend (definitionKeyword d name) (.key name)

def exportSession (setup : Setup) (resolve : Resolver) (d : Document) : Session Work where
  setup := setup
  root := d.node
  rootName := some d.rootBinding
  resolve := resolve

/-- **An export that was not compiled yet.** -/
def compileFresh (setup : Setup) (resolve : Resolver) (d : Document) (e : Export) : ProjectM Unit := do
  let ctx := exportContext setup d e
  match d.target? e with
  | none => throw (.unresolvable (d.id ++ "#/$defs/" ++ e.name?.getD "") ctx.path)
  | some target =>
    modifyWork (fun w => { w with cache := w.cache.begin d.id e })
    let session := exportSession setup resolve d
    let v ← match e with
      | .root => session.compileRoot ctx
      | .named _ => session.compile [] target ctx
    modifyWork (fun w => { w with cache := w.cache.finish d.id e v })
    let compiled : ExportOutput := {
      name? := e.name?
      binding := d.binding e
      expression := setup.render v
      isDefault := e == .root }
    modifyWork (fun w => w.modifyOutput d.id (fun o => { o with exports := o.exports ++ [compiled] }))

/-- **An export**, compiled unless it is already. -/
def compileExport (setup : Setup) (resolve : Resolver) (d : Document) (e : Export) : ProjectM Unit := do
  let w ← getWork
  match w.cache.get? d.id e with
  | some _ => return ()
  | none => compileFresh setup resolve d e

def compileExports (setup : Setup) (resolve : Resolver) (d : Document) : List Export → ProjectM Unit
  | [] => return ()
  | e :: rest => do
    compileExport setup resolve d e
    compileExports setup resolve d rest

def compileDocument (setup : Setup) (resolve : Resolver) (d : Document) : ProjectM Unit := do
  modifyWork (fun w => w.setPhase d.id .compiling)
  modifyWork (fun w =>
    { w with outputs := w.outputs ++ [{ id := d.id, importName := d.importName, module := d.module }] })
  compileExports setup resolve d d.exports
  modifyWork (fun w => w.setPhase d.id .compiled)

/-- **The export a pointer into a document names**: the root, or a definition that is exported. -/
def exportOf? (d : Document) (fragment : String) : Option Export :=
  if fragment = "" ∨ fragment = "/" then some .root
  else
    match Reference.definitionName? fragment with
    | some name => if d.hasExport name then some (.named name) else none
    | none => none

/-- **A reference to an export of the document itself**: by name if it is compiled, by name later if it is under way,
else it is compiled now. -/
def resolveOwn (setup : Setup) (inner : Resolver) (d : Document) (e : Export) : ProjectM Resolution := do
  let w ← getWork
  let name := d.binding e
  if (w.cache.get? d.id e).isSome then return .validator (Validator.reference name)
  else if w.cache.isCompiling d.id e then return .validator (Validator.lazy name)
  else
    compileExport setup inner d e
    return .validator (Validator.reference name)

/-- **A reference to an export of another document**, which is imported, compiled if it waits, and recorded as an
edge. -/
def resolveOther (setup : Setup) (inner : Resolver) (source : String) (d : Document) (e : Export) :
    ProjectM Resolution := do
  let imported : DocumentImport := { id := d.id, importName := d.importName, module := d.module }
  modifyWork (fun w => w.modifyOutput source (fun o => { o with imports := addImport imported o.imports }))
  let deferred := d.phase == .compiling
  if d.phase == .registered then compileDocument setup inner d
  let edge : Edge := { source := source, target := d.id, export? := e.name?, deferred := deferred }
  modifyWork (fun w => { w with graph := w.graph.addEdge edge })
  let name := d.importName ++ "." ++ d.binding e
  return .validator (if deferred then Validator.lazy name else Validator.reference name)

/-- **A reference**, where `inner` resolves those of the exports that are compiled on the way. -/
def resolveWith (setup : Setup) (inner : Resolver) (reference : String) (ctx : Context) : ProjectM Resolution := do
  let w ← getWork
  let source := ctx.document.getD ""
  let r := Reference.parse reference
  let target := if r.document.isEmpty then source else r.document
  match w.registry.get? target with
  | none => throw (.unresolvable reference ctx.path)
  | some d =>
    match exportOf? d r.fragment with
    | none => if d.id = source then return .inline r.fragment else throw (.unresolvable reference ctx.path)
    | some e => if d.id = source then resolveOwn setup inner d e else resolveOther setup inner source d e

/-- **A reference**, where at most so many exports may be nested inside each other. -/
def resolve (setup : Setup) : Nat → Resolver
  | 0 => fun _ _ => throw .budgetSpent
  | left + 1 => resolveWith setup (resolve setup left)

def exportCount (r : Registry) : Nat := r.foldr (fun d count => d.exports.length + count) 0

def compileWaiting (setup : Setup) (resolver : Resolver) : List String → ProjectM Unit
  | [] => return ()
  | id :: rest => do
    let w ← getWork
    match w.registry.get? id with
    | some d => if d.phase == .registered then compileDocument setup resolver d
    | none => pure ()
    compileWaiting setup resolver rest

/-- **What a compilation starts from**: no document compiled, and each a node of the graph. -/
def Work.start (r : Registry) : Work where
  registry := r.resetPhases
  graph := r.foldl (fun g d => g.addNode d.id) {}

/-- **The output of finished work**: the documents in the order of the graph. -/
def Work.output (w : Work) : Output where
  documents := w.graph.order.filterMap (fun id => w.outputs.find? (fun o => o.id == id))
  edges := w.graph.edges
  cycles := w.graph.cycles

def compileAll (setup : Setup) (r : Registry) : ProjectM Output := do
  compileWaiting setup (resolve setup (exportCount r + 1)) (r.map (fun d => d.id))
  return (← getWork).output

end Project

/-- **A project**: how it is compiled, its documents, and what its last compilation left. -/
structure Project where
  setup : Compile.Setup := {}
  registry : Project.Registry := []
  cache : Project.Cache := []
  graph : Project.Graph := {}
  patterns : PatternCache := PatternCache.empty

namespace Project

open Schema (Node)

def register (p : Project) (id : String) (node : Node) (wishes : Meta) : Except Error Unit × Project :=
  let (outcome, registry) := p.registry.register id node wishes
  (outcome, { p with registry := registry })

def update (p : Project) (id : String) (node : Node) (wishes : Meta) : Except Error Unit × Project :=
  match p.registry.update id node wishes with
  | (.error e, registry) => (.error e, { p with registry := registry })
  | (.ok (), registry) => (.ok (), { p with registry := registry, cache := p.cache.invalidate id })

def remove (p : Project) (id : String) : Except Error Unit × Project :=
  match p.registry.remove id with
  | (.error e, registry) => (.error e, { p with registry := registry })
  | (.ok _, registry) => (.ok (), { p with registry := registry, cache := p.cache.invalidate id })

def clear (p : Project) : Project := { setup := p.setup }

/-- **The compilation of a project.**  It starts afresh; what it did stays in the project also when it fails. -/
def compile (p : Project) : Except Error Output × Project :=
  let (outcome, state) :=
    (compileAll p.setup p.registry).run.run { patterns := PatternCache.empty, world := Work.start p.registry }
  let w := state.world
  (outcome, { p with registry := w.registry, cache := w.cache, graph := w.graph, patterns := state.patterns })

end Project
end Valgen
