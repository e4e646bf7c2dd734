import Valgen.Command.Arguments
import Valgen.Files
import Valgen.Manifest
/-!
# Command.Run — the commands

A run reads and writes files by `Files` and ends with an exit code and what it prints.  The code is 2 for wrong
arguments, 1 for a schema, a manifest or a file that is not as it should be, and then nothing is printed to the standard
output.
-/
namespace Valgen
namespace Command

structure Outcome where
  exit : Nat := 0
  stdout : String := ""
  stderr : String := ""
deriving DecidableEq, Repr

namespace Outcome

def failure (message : String) : Outcome := { exit := 1, stderr := "error: " ++ message ++ "\n" }

end Outcome

def linesText (lines : List String) : String := String.join (lines.map (fun line => line ++ "\n"))

def usage : String :=
  linesText
    ["Usage: jz compile <SCHEMA> [--dialect <DIALECT>] [--wrap <WRAP>] [--name <NAME>] [--type-alias <ALIAS>]",
     "                           [--no-import] [--no-defaults] [--jsdocs] [-o <OUTPUT>]",
     "       jz build [-c <CONFIG>] [-o <OUTPUT>] [--dry-run]",
     "       jz check [-c <CONFIG>]"]

def versionText : String := "jz 0.3.0\n"

variable {m : Type → Type} [Monad m]

def readSchema (files : Files m) (path : String) : m (Except Error Schema.Node) := do
  match ← files.read? path with
  | none => return .error (.load (.unreadable path))
  | some text =>
    match Schema.Node.parse text with
    | .error e => return .error (.load e)
    | .ok node => return .ok node

def readManifest (files : Files m) (path : String) : m (Except Error Manifest) := do
  match ← files.read? path with
  | none => return .error (.load (.unreadable path))
  | some text =>
    match Manifest.parse ⟨text, path⟩ with
    | .error e => return .error (.load e)
    | .ok manifest => return .ok manifest

/-- **Registers documents of a manifest**, whose files are looked for from a folder. -/
def registerAll (files : Files m) (base : String) (project : Project) :
    List Manifest.Entry → m (Except Error Project)
  | [] => return .ok project
  | e :: rest => do
    match ← readSchema files (Files.join base e.path) with
    | .error fault => return .error fault
    | .ok node =>
      match project.register e.id node e.wishes with
      | (.error fault, _) => return .error fault
      | (.ok (), project) => registerAll files base project rest

def loadProject (files : Files m) (base : String) (manifest : Manifest) : m (Except Error Project) :=
  registerAll files base { setup := { options := manifest.options } } manifest.documents

/-- **The options of a project, and what comes of compiling it.** -/
def compileProject (files : Files m) (config base : String) : m (Except Error (Options × Project.Output)) := do
  match ← readManifest files config with
  | .error e => return .error e
  | .ok manifest =>
    match ← loadProject files base manifest with
    | .error e => return .error e
    | .ok project =>
      match project.compile.1 with
      | .error e => return .error e
      | .ok output => return .ok (manifest.options, output)

def runCompile (files : Files m) (schema : String) (options : Options) (output : Option String) : m Outcome := do
  match ← readSchema files schema with
  | .error e => return .failure e.message
  | .ok node =>
    match Code.generate { options := options } node with
    | .error e => return .failure e.message
    | .ok text =>
      match output with
      | none => return { stdout := text }
      | some path =>
        match ← files.save "." ⟨path, text⟩ with
        | .error e => return .failure e.message
        | .ok .written => return { stderr := "wrote " ++ path ++ "\n" }
        | .ok .unchanged => return { stderr := path ++ " is up to date\n" }

/-- **A note for every group of documents that refer to each other.** -/
def cycleNotes (output : Project.Output) : String :=
  linesText (output.cycles.map (fun cycle =>
    "note: reference cycle between " ++ ", ".intercalate cycle ++ " uses z.lazy"))

/-- **The files of a project as they would be written.** -/
def preview (files : List Code.OutputFile) : String :=
  linesText (files.flatMap (fun file => ["── " ++ file.path ++ " ──", file.text]) ++
    ["── Summary ──", toString files.length ++ " files would be generated"])

def savedLine (base : String) (saved : String × Files.Saved) : String :=
  let status := match saved.2 with
    | .written => "wrote    "
    | .unchanged => "unchanged"
  "  " ++ status ++ " " ++ Files.join base saved.1

def savedReport (base : String) (saved : List (String × Files.Saved)) : String :=
  let written := (saved.filter (fun s => s.2 == .written)).length
  linesText (saved.map (savedLine base) ++
    [toString saved.length ++ " modules, " ++ toString written ++ " written, " ++
      toString (saved.length - written) ++ " unchanged"])

def runBuild (files : Files m) (config base : String) (dryRun : Bool) : m Outcome := do
  match ← compileProject files config (Files.folderOf config) with
  | .error e => return .failure e.message
  | .ok (options, output) =>
    let modules := Code.projectFiles options output
    if dryRun then return { stdout := preview modules, stderr := cycleNotes output }
    else
      match ← files.saveAll base modules with
      | .error e => return .failure e.message
      | .ok saved => return { stdout := savedReport base saved, stderr := cycleNotes output }

def report (output : Project.Output) : String :=
  let exports := output.documents.foldr (fun d count => d.exports.length + count) 0
  let cycles :=
    if output.cycles.isEmpty then ["no reference cycles"]
    else
      ("Cycles (" ++ toString output.cycles.length ++ "), broken by " ++ toString output.deferredCount ++
        " lazy references:") :: output.cycles.map (fun cycle => "  " ++ " <-> ".intercalate cycle)
  linesText ((toString output.documents.length ++ " documents, " ++ toString exports ++ " exports, " ++
    toString output.edges.length ++ " references") :: cycles)

def runCheck (files : Files m) (config : String) : m Outcome := do
  match ← compileProject files config (Files.folderOf config) with
  | .error e => return .failure e.message
  | .ok (_, output) => return { stdout := report output }

def run (files : Files m) (arguments : List String) : m Outcome :=
  match Request.parse arguments with
  | .error .misuse => return { exit := 2, stderr := usage }
  | .error .help => return { stdout := usage }
  | .ok .version => return { stdout := versionText }
  | .ok (.compile schema options output) => runCompile files schema options output
  | .ok (.build config output dryRun) => runBuild files config output dryRun
  | .ok (.check config) => runCheck files config

end Command
end Valgen
