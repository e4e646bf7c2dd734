import Valgen.Assoc
import Valgen.Files
/-!
# Files.Tree — files in memory

A place is the list of the names that lead to it from the folder where the program runs, the last one first.  Names
`..` at the end of the list lead out of that folder, and the name `/` is the root.  A tree has the places of its folders
and the places of its files with their texts.
-/
namespace Valgen
namespace Files

/-- **The names that lead to a file or a folder**, the last one first. -/
abbrev Place : Type := List String

namespace Place

def parent : Place → Place
  | [] => [".."]
  | "/" :: place => "/" :: place
  | ".." :: place => ".." :: ".." :: place
  | _ :: place => place

/-- **Whether a place is outside of the folder where the program runs, on the way to the root**: such a folder is always
there. -/
def isAbove (place : Place) : Bool := place == ["/"] || place.all (fun name => name == "..")

/-- **Whether a place is in the folder where the program runs.** -/
def isBelow (place : Place) : Bool := !place.contains ".." && !place.contains "/"

def path (place : Place) : String := "/".intercalate place.reverse

end Place

structure Tree where
  files : List (Place × String) := []
  folders : List Place := []
deriving DecidableEq, Repr

namespace Tree

def isFolder (t : Tree) (place : Place) : Bool := place.isAbove || t.folders.contains place

def textAt? (t : Tree) (place : Place) : Option String := t.files.lookup place

/-- **Whether a text can be the name of a file**: it has at most 255 bytes. -/
def isName (name : String) : Bool := name.utf8ByteSize ≤ 255

/-- **Whether a text can be a path at all**: it has at most 4095 bytes, and none of them is zero. -/
def isPath (path : String) : Bool := path.utf8ByteSize ≤ 4095 && !path.toList.contains '\x00'

/-- **One step of a path.**  It starts in a folder. -/
def step? (t : Tree) (place : Place) (piece : String) : Option Place :=
  if !t.isFolder place then none
  else if isIdle piece then some place
  else if piece = ".." then some place.parent
  else if isName piece then some (piece :: place)
  else none

def start (path : String) : Place := if isAbsolute path then ["/"] else []

/-- **The place a path leads to.**  There need not be anything, but the folders on the way are there. -/
def resolve? (t : Tree) (path : String) : Option Place :=
  if path.isEmpty || !isPath path then none else (pieces path).foldlM (step? t) (start path)

def read? (t : Tree) (path : String) : Option String := (t.resolve? path).bind t.textAt?

def put (t : Tree) (place : Place) (text : String) : Tree :=
  { t with files := (place, text) :: t.files.filter (fun file => file.1 != place) }

theorem textAt?_put_self (t : Tree) (place : Place) (text : String) : (t.put place text).textAt? place = some text := by
  simp [put, textAt?]

theorem lookup_filter_of_ne {place other : Place} (h : other ≠ place) : ∀ files : List (Place × String),
    (files.filter (fun file => file.1 != place)).lookup other = files.lookup other
  | [] => rfl
  | (first, text) :: files => by
    by_cases hf : first = place
    · subst hf
      have ho : (other == first) = false := by simp [h]
      simp [List.lookup_cons, ho, lookup_filter_of_ne h files]
    · simp only [List.filter_cons, bne_iff_ne, ne_eq, hf, not_false_eq_true, if_true, List.lookup_cons]
      split
      · rfl
      · exact lookup_filter_of_ne h files

theorem textAt?_put_of_ne (t : Tree) {place other : Place} (text : String) (h : other ≠ place) :
    (t.put place text).textAt? other = t.textAt? other := by
  have ho : (other == place) = false := by simp [h]
  simp only [put, textAt?, List.lookup_cons, ho]
  exact lookup_filter_of_ne h t.files

/-- **Follows the pieces of a path and makes the folders that are missing.**  What was made before a fault stays. -/
def makeFolders (t : Tree) (place : Place) : List String → Bool × Tree
  | [] => (true, t)
  | piece :: rest =>
    match t.step? place piece with
    | none => (false, t)
    | some next =>
      if t.isFolder next then makeFolders t next rest
      else if (t.textAt? next).isSome then (false, t)
      else makeFolders { t with folders := next :: t.folders } next rest

def makeFolder (t : Tree) (path : String) : Bool × Tree :=
  if path.isEmpty then (true, t)
  else if isPath path then t.makeFolders (start path) (pieces path)
  else (false, t)

/-- **Gives the file a path leads to its text.**  Its folder is there, and it is no folder itself. -/
def write (t : Tree) (path text : String) : Bool × Tree :=
  match t.resolve? path with
  | none => (false, t)
  | some place => if t.isFolder place then (false, t) else (true, t.put place text)

end Tree

def inTree : Files (StateM Tree) where
  read? path := fun t => (t.read? path, t)
  makeFolder path := fun t => t.makeFolder path
  write path text := fun t => t.write path text

namespace Tree

def ofFiles (files : List (String × String)) : Tree :=
  files.foldl (fun t file => ((inTree.save "" ⟨file.1, file.2⟩).run t).2) {}

/-- **The files below the folder where the program runs**, in the order of their paths. -/
def listing (t : Tree) : List (String × String) :=
  ((t.files.filter (fun file => file.1.isBelow)).map (fun file => (Place.path file.1, file.2))).mergeSort
    (fun a b => decide (a.1 ≤ b.1))

end Tree
end Files
end Valgen
