import Valgen.Assoc
/-!
# Project.Graph — which document refers to which

An edge leads from a document to one it refers to; a deferred edge does not need its target to be there first.
`Graph.order` counts for each document those that it waits for and places one that waits for none, the least id first
where there is a choice, until there is none left; `Graph.cycles` are the groups of documents that reach each other.
-/
namespace Valgen
namespace Project

structure Edge where
  source : String
  target : String
  /-- The definition that is referred to, if it is one. -/
  export? : Option String
  deferred : Bool
deriving DecidableEq, Repr

/-- **A set as an ascending list, with one element more.** -/
def insertAscending {α : Type} [LT α] [DecidableLT α] [DecidableEq α] (s : α) : List α → List α
  | [] => [s]
  | t :: rest => if s < t then s :: t :: rest else if s = t then t :: rest else t :: insertAscending s rest

def ascending {α : Type} [LT α] [DecidableLT α] [DecidableEq α] (l : List α) : List α := l.foldr insertAscending []

/-- **Documents and the references between them**; the documents ascend. -/
structure Graph where
  nodes : List String := []
  edges : List Edge := []
deriving DecidableEq, Repr

namespace Graph

def addNode (g : Graph) (id : String) : Graph := { g with nodes := insertAscending id g.nodes }

/-- **One edge more**, with its ends; an edge that is there already changes nothing. -/
def addEdge (g : Graph) (edge : Edge) : Graph where
  nodes := insertAscending edge.target (insertAscending edge.source g.nodes)
  edges := if g.edges.contains edge then g.edges else g.edges ++ [edge]

/-- **Whether an edge asks its target to come first.** -/
def isDirect (e : Edge) : Bool := !e.deferred && e.source != e.target

/-- **Which document waits for which**, each pair once, however many edges there are between the two. -/
def waits (g : Graph) : List (String × String) :=
  ((g.edges.filter isDirect).map (fun e => (e.source, e.target))).eraseDups

/-- **The documents that wait for a document.** -/
def dependents (g : Graph) (id : String) : List String :=
  ascending ((g.waits.filter (fun w => w.2 == id)).map Prod.fst)

end Graph

/-- **Documents on their way into an order.** -/
structure Placing where
  /-- For how many documents each one still waits. -/
  pending : Assoc Nat
  /-- The documents that wait for none and are not placed yet, ascending. -/
  ready : List String
  placed : List String
deriving DecidableEq, Repr

namespace Placing

/-- **What documents wait for** before any is placed. -/
def ofGraph (g : Graph) : Placing :=
  let pending := g.nodes.map (fun id => (id, g.waits.countP (fun w => w.1 == id)))
  { pending := pending, ready := (pending.filter (fun e => e.2 == 0)).map Prod.fst, placed := [] }

/-- **The next document, placed**, if one is ready. -/
def takeNext? (p : Placing) : Option (String × Placing) :=
  match p.ready with
  | [] => none
  | id :: rest => some (id, { p with ready := rest, placed := p.placed ++ [id] })

/-- **A document waits for one less**, and is ready if that was the last. -/
def release (p : Placing) (id : String) : Placing :=
  match p.pending.get? id with
  | none => p
  | some count =>
    { p with
      pending := p.pending.insert id (count - 1)
      ready := if count - 1 = 0 then insertAscending id p.ready else p.ready }

end Placing

namespace Graph

/-- **One document more is placed**, and those are released that wait for it. -/
def advance (g : Graph) (p : Placing) : Option Placing :=
  p.takeNext?.map (fun next => (g.dependents next.1).foldl Placing.release next.2)

/-- **Places documents as long as one is ready**, but `steps` documents at most. -/
def placeAll (g : Graph) : Nat → Placing → Placing
  | 0, p => p
  | steps + 1, p =>
    match g.advance p with
    | none => p
    | some next => placeAll g steps next

/-- **The documents in an order in which direct references point back**; those that are never ready follow at
the end. -/
def order (g : Graph) : List String :=
  let placed := (g.placeAll g.nodes.length (Placing.ofGraph g)).placed
  placed ++ g.nodes.filter (fun id => !placed.contains id)

def targets (g : Graph) (ids : List String) : List String :=
  (g.edges.filter (fun e => ids.contains e.source)).map Edge.target

/-- **The documents reached from some documents by at most `steps` edges.** -/
def reach (g : Graph) : Nat → List String → List String
  | 0, ids => ids
  | steps + 1, ids => reach g steps (g.nodes.filter (fun n => ids.contains n || (g.targets ids).contains n))

/-- **The documents reached from a document by at least one edge.** -/
def reachable (g : Graph) (id : String) : List String := g.reach g.nodes.length (g.targets [id])

/-- **The documents that a document reaches and that reach it.** -/
def group (g : Graph) (id : String) : List String :=
  let forth := g.reachable id
  g.nodes.filter (fun n => forth.contains n && (g.reachable n).contains id)

/-- **A document with those that it reaches and that reach it.** -/
def component (g : Graph) (id : String) : List String :=
  let others := g.group id
  g.nodes.filter (fun n => n == id || others.contains n)

/-- **The strongly connected components**, each under the first of its documents. -/
def components (g : Graph) : List (List String) :=
  (g.nodes.map (fun id => (id, g.component id))).filterMap (fun e => if e.2.head? = some e.1 then some e.2 else none)

def refersToItself (g : Graph) (id : String) : Bool := g.edges.any (fun e => e.source == id && e.target == id)

/-- **The groups among components**: those of several documents, and those of one that refers to itself; ascending, each
ascending.  No document is in two components or twice in one (`AreComponents.nodup`), so that making an ascending set of
them drops nothing and only sorts. -/
def groupsAmong (g : Graph) (components : List (List String)) : List (List String) :=
  ascending ((components.filter (fun c => 1 < c.length || c.any g.refersToItself)).map ascending)

def cycles (g : Graph) : List (List String) := g.groupsAmong g.components

end Graph
end Project
end Valgen
