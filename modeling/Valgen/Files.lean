import Valgen.Code.Emit
import Valgen.Text.Split
/-!
# Files — reading and writing by path

`Files m` is what the program may do with files, so that the same program runs on a disk and on a tree in memory
(`Files.Tree`).  A file whose text is already the wanted one is not written again.
-/
namespace Valgen

/-- **What may be done with files.** -/
structure Files (m : Type → Type) where
  /-- The text of a file, if there is one that can be read. -/
  read? : String → m (Option String)
  /-- Makes a folder and the folders it is in.  The result says whether the folder is there. -/
  makeFolder : String → m Bool
  /-- Gives a file its text.  The result says whether it has it. -/
  write : String → String → m Bool

namespace Files

def pieces (path : String) : List String := (Text.splitAt '/' path.toList).map String.ofList

def isAbsolute (path : String) : Bool := path.startsWith "/"

/-- **A path as seen from a folder.**  The empty text is the folder where the program runs. -/
def join (base path : String) : String :=
  if isAbsolute path || base.isEmpty then path
  else if base.endsWith "/" then base ++ path
  else base ++ "/" ++ path

/-- **Whether a piece of a path stays in the folder.** -/
def isIdle (piece : String) : Bool := piece.isEmpty || piece == "."

def folderOf (path : String) : String :=
  let outer := ((pieces path).reverse.dropWhile isIdle).drop 1
  let folder := "/".intercalate (outer.dropWhile isIdle).reverse
  if isAbsolute path && folder.isEmpty then "/" else folder

/-- **What became of a file that was to be written.** -/
inductive Saved where
  | written
  /-- It had the wanted text before. -/
  | unchanged
deriving DecidableEq, Repr

structure WriteError where
  path : String
deriving DecidableEq, Repr

def WriteError.message (e : WriteError) : String := "failed to write " ++ e.path

variable {m : Type → Type} [Monad m]

def save (files : Files m) (base : String) (file : Code.OutputFile) : m (Except WriteError Saved) := do
  let path := join base file.path
  if (← files.read? path) = some file.text then return .ok .unchanged
  else if ← files.makeFolder (folderOf path) then
    if ← files.write path file.text then return .ok .written else return .error ⟨file.path⟩
  else return .error ⟨file.path⟩

/-- **Writes files below a folder**, up to the first that cannot be written. -/
def saveAll (files : Files m) (base : String) :
    List Code.OutputFile → m (Except WriteError (List (String × Saved)))
  | [] => return .ok []
  | file :: rest => do
    match ← save files base file with
    | .error e => return .error e
    | .ok saved =>
      match ← saveAll files base rest with
      | .error e => return .error e
      | .ok more => return .ok ((file.path, saved) :: more)

end Files
end Valgen
