import Valgen.Text.Lines
/-!
# Code.Module — the text of a JavaScript module

A module has imports, statements and exports, written in this order with an empty line between the sections and between
the statements.  Two forms are written: with `import` and `export`, or with `require` and `module.exports`.
-/
namespace Valgen
namespace Code

inductive Form where
  | esm
  | commonJs
deriving DecidableEq, Repr

/-! ## Lines -/

def line (s : String) : String := s ++ "\n"

def blank : String := "\n"

/-- **The lines of a text**, each ended by a line feed. -/
def lines (s : String) : String := String.join ((Text.linesOf s).map line)

def braces (names : List String) : String := "\x7b " ++ ", ".intercalate names ++ " \x7d"

/-! ## Imports -/

/-- **An import**: of the whole module under an alias, of some names, or for its effects. -/
structure Import where
  /-- The module that is imported. -/
  specifier : String
  wholeAs : Option String := none
  names : List String := []
  form : Form := .esm
deriving DecidableEq, Repr

namespace Import

/-- **The import as a statement.**  An alias counts more than names. -/
def statement (i : Import) : String :=
  let quoted := "\"" ++ i.specifier ++ "\""
  match i.form with
  | .esm =>
    match i.wholeAs with
    | some name => "import * as " ++ name ++ " from " ++ quoted ++ ";"
    | none =>
      if i.names.isEmpty then "import " ++ quoted ++ ";"
      else "import " ++ braces i.names ++ " from " ++ quoted ++ ";"
  | .commonJs =>
    let required := "require(" ++ quoted ++ ");"
    match i.wholeAs with
    | some name => "const " ++ name ++ " = " ++ required
    | none => if i.names.isEmpty then required else "const " ++ braces i.names ++ " = " ++ required

def text (i : Import) : String := line i.statement

end Import

/-! ## Statements -/

inductive Statement where
  | constant (name value : String) (exported : Bool)
  /-- A type derived from a validator. -/
  | typeAlias (name validator : String)
  /-- Text as it stands. -/
  | raw (code : String)
deriving DecidableEq, Repr

def Statement.text : Statement → String
  | .constant name value exported =>
    lines ((if exported then "export " else "") ++ "const " ++ name ++ " = " ++ value ++ ";")
  | .typeAlias name validator => line ("export type " ++ name ++ " = z.infer<typeof " ++ validator ++ ">;")
  | .raw code => lines code

/-! ## Exports -/

/-- **What a module exports**: a value by itself, and names. -/
structure Exports where
  value : Option String := none
  names : List String := []
  form : Form := .esm
deriving DecidableEq, Repr

namespace Exports

def statements (e : Exports) : List String :=
  let listed (before behind : String) : List String :=
    if e.names.isEmpty then [] else [before ++ braces e.names ++ behind]
  match e.form with
  | .esm => listed "export " ";" ++ (e.value.map (fun v => "export default " ++ v ++ ";")).toList
  | .commonJs =>
    (e.value.map (fun v => "module.exports = " ++ v ++ ";")).toList ++ listed "Object.assign(module.exports, " ");"

def text (e : Exports) : String := String.join (e.statements.map lines)

end Exports

/-! ## Modules -/

structure Module where
  imports : List Import := []
  body : List Statement := []
  exports : List Exports := []
deriving DecidableEq, Repr

namespace Module

def isEmpty (m : Module) : Bool := m.imports.isEmpty && m.body.isEmpty && m.exports.isEmpty

def blankIf (wanted : Bool) : String := if wanted then blank else ""

def text (m : Module) : String :=
  String.join (m.imports.map Import.text) ++
  blankIf (!m.imports.isEmpty && (!m.body.isEmpty || !m.exports.isEmpty)) ++
  blank.intercalate (m.body.map (fun s => lines s.text)) ++
  blankIf (!m.body.isEmpty && !m.exports.isEmpty) ++
  String.join (m.exports.map Exports.text)

end Module
end Code
end Valgen
