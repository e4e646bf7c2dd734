import Valgen.Schema.Pointer
/-!
# Schema.Reference — `<document>#<pointer>`

The text of a `$ref`: the id of a document, empty for the document itself, and a pointer into it.
-/
namespace Valgen
namespace Schema

/-- **A reference**: which document, and which place in it. -/
structure Reference where
  document : String
  fragment : String
deriving DecidableEq, Repr

namespace Reference

/-- **The reference a text stands for**: the first `#` ends the id of the document. -/
def parse (text : String) : Reference :=
  let (document, fragment) := Text.splitFirst '#' text.toList
  ⟨String.ofList document, String.ofList (fragment.getD [])⟩

/-- **The key of a pointer**: the pointers with one key name one place, however they write the root. -/
def keyOf (fragment : String) : String :=
  let cs := Pointer.dropHash fragment.toList
  if cs = ['/'] then "" else String.ofList cs

/-- **The definition a pointer names**, when it is of the form `/$defs/<name>` or `/definitions/<name>`. -/
def definitionName? (fragment : String) : Option String :=
  let cs := fragment.toList
  let name := match Text.dropStart "/$defs/".toList cs with
    | some rest => some rest
    | none => Text.dropStart "/definitions/".toList cs
  match name with
  | some rest => if rest.isEmpty || rest.contains '/' then none else some (String.ofList (Pointer.unescape rest))
  | none => none

end Reference
end Schema
end Valgen
