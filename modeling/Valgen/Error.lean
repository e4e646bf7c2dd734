import Valgen.Path
import Valgen.Schema.Source
/-!
# Error — why a schema or a project is not compiled

Each cause is a constructor; `Error.message` has the wording, `Error.code` the code under which the cause is documented
and `Error.help?` advice for the user.
-/
namespace Valgen

inductive Error where
  /-- A schema or a manifest could not be read. -/
  | load (cause : LoadError)
  /-- Options or names that cannot go together. -/
  | conflict (reason : String) (help : Option String)
  | duplicateDocument (id : String)
  | unknownDocument (id : String)
  | unresolvable (reference : String) (path : Path)
  | malformed (keyword reason : String) (path : Path)
  | invalidCompiler (typeName reason : String)
  /-- The nesting budget of a compilation was used up; the budget is chosen so that it never is. -/
  | budgetSpent
deriving DecidableEq, Repr

namespace Error

def message : Error → String
  | .load cause => cause.message
  | .conflict reason _ => "conflicting options: " ++ reason
  | .duplicateDocument id => "document '" ++ id ++ "' is already registered"
  | .unknownDocument id => "document '" ++ id ++ "' is not registered"
  | .unresolvable reference path => "cannot resolve reference '" ++ reference ++ "' at " ++ path.text
  | .malformed keyword reason path => "malformed `" ++ keyword ++ "` at " ++ path.text ++ ": " ++ reason
  | .invalidCompiler typeName reason => "cannot register compiler for '" ++ typeName ++ "': " ++ reason
  | .budgetSpent => "schemas are nested too deeply"

/-- **The code under which a cause is documented.** -/
def code : Error → String
  | .load cause => cause.code
  | .conflict _ _ => "jz::config_conflict"
  | .duplicateDocument _ => "jz::duplicate_document"
  | .unknownDocument _ => "jz::unknown_document"
  | .unresolvable _ _ => "jz::unresolvable_reference"
  | .malformed _ _ _ => "jz::malformed_composition"
  | .invalidCompiler _ _ => "jz::invalid_compiler"
  | .budgetSpent => "jz::budget"

def help? : Error → Option String
  | .load cause => cause.help?
  | .conflict _ help => help
  | .duplicateDocument _ => some "use `update` to replace an existing document"
  | .unresolvable _ _ =>
    some "references take the form `<document>#<pointer>`; named exports live under `/$defs/<name>`"
  | _ => none

end Error

end Valgen
