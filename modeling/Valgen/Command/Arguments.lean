import Valgen.Options
import Valgen.Text.Split
/-!
# Command.Arguments — what the user asks for on the command line

The first argument is the command.  The options of a command start with two hyphens, some have a short form with one;
the value of an option follows it, also behind an equals sign or, in the short form, directly.  An option is given once.
The other arguments are operands, and so is everything behind `--`.
-/
namespace Valgen
namespace Command

/-- **Why the arguments are no request.** -/
inductive Stop where
  /-- The arguments are wrong. -/
  | misuse
  /-- The user asks how the program is used. -/
  | help
deriving DecidableEq, Repr

structure Flag where
  name : String
  short : Option Char := none
  /-- Which values it takes; a switch takes none. -/
  accepts : Option (String → Bool) := none

/-- **What a command takes**: its options, and how many operands. -/
structure Form where
  flags : List Flag
  operands : Nat := 0

/-- **What is given**: the options with their values, where a switch has the empty value, and the operands. -/
structure Given where
  options : List (String × String) := []
  operands : List String := []
deriving DecidableEq, Repr

namespace Given

def value? (g : Given) (name : String) : Option String := g.options.lookup name

def has (g : Given) (name : String) : Bool := (g.value? name).isSome

/-- **One option more.**  It must be new, and the value one that it takes. -/
def addOption (g : Given) (flag : Flag) (value : String) : Except Stop Given :=
  if g.has flag.name then .error .misuse
  else if flag.accepts.all (fun accepts => accepts value) then
    .ok { g with options := g.options ++ [(flag.name, value)] }
  else .error .misuse

/-- **One operand more.**  It is not empty, and there are no more than the command takes. -/
def addOperand (g : Given) (form : Form) (operand : String) : Except Stop Given :=
  if operand.isEmpty || form.operands ≤ g.operands.length then .error .misuse
  else .ok { g with operands := g.operands ++ [operand] }

end Given

inductive Argument where
  /-- All that follows is operands. -/
  | divider
  /-- An option by its name, and the value behind an equals sign. -/
  | long (name : String) (value : Option String)
  /-- An option by its letter, and what is written behind the letter. -/
  | short (letter : Char) (behind : List Char)
  | operand (text : String)
deriving DecidableEq, Repr

/-- **How an argument is to be read.**  A single hyphen is an operand. -/
def Argument.ofText (text : String) : Argument :=
  match text.toList with
  | ['-', '-'] => .divider
  | '-' :: '-' :: rest =>
    let (name, value) := Valgen.Text.splitFirst '=' rest
    .long (String.ofList name) (value.map String.ofList)
  | '-' :: letter :: behind => .short letter behind
  | _ => .operand text

/-- **An option of the command with the value that is written together with it.** -/
def Form.option (form : Form) : Argument → Except Stop (Flag × Option String)
  | .long name value =>
    match form.flags.find? (fun f => f.name == name) with
    | some flag => if flag.accepts.isNone && value.isSome then .error .misuse else .ok (flag, value)
    | none => if name = "help" ∧ value = none then .error .help else .error .misuse
  | .short letter behind =>
    match form.flags.find? (fun f => f.short == some letter) with
    | some flag =>
      let value := match behind with
        | [] => none
        | '=' :: rest => some (String.ofList rest)
        | _ => some (String.ofList behind)
      if flag.accepts.isNone && value.isSome then .error .misuse else .ok (flag, value)
    | none => if letter = 'h' then .error .help else .error .misuse
  | _ => .error .misuse

/-- **Reads arguments**, after those that are given already.  The next argument is the value of an option that needs
one, unless it looks like an option itself. -/
def Form.read (form : Form) (g : Given) : List String → Except Stop Given
  | [] => .ok g
  | argument :: rest =>
    match Argument.ofText argument with
    | .divider => rest.foldlM (fun g operand => g.addOperand form operand) g
    | .operand text => do form.read (← g.addOperand form text) rest
    | written => do
      let (flag, value) ← form.option written
      match value, flag.accepts with
      | some value, _ => form.read (← g.addOption flag value) rest
      | none, none => form.read (← g.addOption flag "") rest
      | none, some _ =>
        match rest with
        | [] => .error .misuse
        | next :: rest =>
          match Argument.ofText next with
          | .operand value => form.read (← g.addOption flag value) rest
          | _ => .error .misuse

inductive Request where
  | version
  /-- Writes the module of one schema. -/
  | compile (schema : String) (options : Options) (output : Option String)
  /-- Writes the modules of a project. -/
  | build (config output : String) (dryRun : Bool)
  /-- Compiles a project and writes nothing. -/
  | check (config : String)
deriving DecidableEq, Repr

/-- **The manifest of a project, if the user names none.** -/
def defaultConfig : String := "jz.toml"

def isPath (value : String) : Bool := !value.isEmpty

def configFlag : Flag := { name := "config", short := some 'c', accepts := some isPath }

def outputFlag : Flag := { name := "output", short := some 'o', accepts := some isPath }

def isOk {ε α : Type} : Except ε α → Bool
  | .ok _ => true
  | .error _ => false

def compileForm : Form where
  flags :=
    [{ name := "dialect", accepts := some (fun s => isOk (Dialect.parse s)) },
     { name := "wrap", accepts := some (fun s => isOk (Wrap.parse s)) },
     { name := "name", accepts := some (fun _ => true) },
     { name := "type-alias", accepts := some (fun _ => true) },
     { name := "no-import" }, { name := "no-defaults" }, { name := "jsdocs" }, outputFlag]
  operands := 1

def buildForm : Form where
  flags := [configFlag, outputFlag, { name := "dry-run" }]

def checkForm : Form where
  flags := [configFlag]

def Given.compileOptions (g : Given) : Options :=
  let dialect := match (g.value? "dialect").map Dialect.parse with
    | some (.ok dialect) => dialect
    | _ => .v4
  let wrap := match (g.value? "wrap").map Wrap.parse with
    | some (.ok wrap) => wrap
    | _ => .esm
  { dialect := dialect, wrap := wrap, name := g.value? "name", typeAlias := g.value? "type-alias"
    withImport := !g.has "no-import", applyDefaults := !g.has "no-defaults", jsdocs := g.has "jsdocs" }

def Request.parse : List String → Except Stop Request
  | "compile" :: rest => do
    let g ← compileForm.read {} rest
    match g.operands with
    | [] => .error .misuse
    | schema :: _ => return .compile schema g.compileOptions (g.value? "output")
  | "build" :: rest => do
    let g ← buildForm.read {} rest
    return .build ((g.value? "config").getD defaultConfig) ((g.value? "output").getD ".") (g.has "dry-run")
  | "check" :: rest => do
    let g ← checkForm.read {} rest
    return .check ((g.value? "config").getD defaultConfig)
  | "help" :: _ => .error .help
  | argument :: _ =>
    match Argument.ofText argument with
    | .long "version" none => .ok .version
    | .short 'V' _ => .ok .version
    | .long "help" none => .error .help
    | .short 'h' _ => .error .help
    | _ => .error .misuse
  | [] => .error .misuse

end Command
end Valgen
