import Valgen.Code.Module
import Valgen.Compile.Document
import Valgen.Project.Compile
/-!
# Code.Emit — validators as modules

A validator that stands alone is wrapped as the options say.  A document of a project becomes a module that imports the
documents it refers to and has a constant for each of its exports.
-/
namespace Valgen
namespace Code

def formOf : Wrap → Form
  | .cjs => .commonJs
  | _ => .esm

def hostImport (dialect : Dialect) (form : Form) : Import :=
  match dialect with
  | .v3 => { specifier := dialect.module, names := ["z"], form := form }
  | .v4 => { specifier := dialect.module, wholeAs := some "z", form := form }

/-- **The import of the validator library, if it is wanted.** -/
def hostImports (options : Options) : List Import :=
  if options.withImport then [hostImport options.dialect (formOf options.wrap)] else []

/-- **The module of an expression under a name**, if it has one. -/
def moduleOf (options : Options) (name : Option String) (expression : String) : Module :=
  let imports := hostImports options
  match options.wrap, name with
  | .cjs, none => { imports := imports, exports := [{ value := some expression, form := .commonJs }] }
  | .cjs, some name =>
    { imports := imports
      body := [.constant name expression false]
      exports := [{ names := [name], form := .commonJs }] }
  | .esm, none => { imports := imports, exports := [{ value := some expression }] }
  | .esm, some name =>
    let typeAlias := options.typeAlias.map (fun a => Statement.typeAlias (Name.safeIdentifier a) name)
    { imports := imports, body := .constant name expression true :: typeAlias.toList }
  | _, none => { imports := imports, body := [.raw expression] }
  | _, some name => { imports := imports, body := [.constant name expression false] }

def emit (options : Options) (expression : String) : Except Error String := do
  Compile.checkOptions options
  return (moduleOf options (options.name.map Name.safeIdentifier) expression).text

/-- **The text of the module of a schema that stands alone.** -/
def generate (setup : Compile.Setup) (root : Schema.Node) : Except Error String := do
  let expression ← Compile.compileText setup root
  emit setup.options expression

def projectModule (options : Options) (d : Project.DocumentOutput) : Module :=
  let form := formOf options.wrap
  let imports := d.imports.map (fun i => { specifier := i.module, wholeAs := some i.importName, form := form : Import })
  let exports : List Exports := match form with
    | .esm => (d.default?.map (fun e => { value := some e.binding : Exports })).toList
    | .commonJs => [{ names := d.exports.map (fun e => e.binding), form := .commonJs }]
  { imports := hostImports options ++ imports
    body := d.exports.map (fun e => .constant e.binding e.expression (form == .esm))
    exports := exports }

/-- **A file to be written**: its path below the output directory, and its text. -/
structure OutputFile where
  path : String
  text : String
deriving DecidableEq, Repr

def projectFile (options : Options) (d : Project.DocumentOutput) : OutputFile where
  path := d.id ++ "." ++ options.wrap.extension
  text := (projectModule options d).text

def projectFiles (options : Options) (o : Project.Output) : List OutputFile := o.documents.map (projectFile options)

end Code
end Valgen
