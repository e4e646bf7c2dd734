import Valgen.Json.Printer
import Valgen.Schema.Node
import Valgen.Validator.Basic
/-!
# Compile.Literal — `enum` and `const`

A primitive value becomes a literal; an array or an object is compared by its text.
-/
namespace Valgen
namespace Compile

open Schema (Facts)

def literalOf (facts : Facts) (value : Json) : Validator :=
  match value with
  | .array _ | .object _ =>
    let message := match facts.messageFor "const" with
      | some text => some text
      | none => facts.messageFor "enum"
    Validator.any.refine ("(value) => JSON.stringify(value) === JSON.stringify(" ++ value.compact ++ ")") message
  | _ => Validator.ofBase (.literal value)

/-- **The validator of a list of values**: nothing for none, an enumeration if all are texts, else a union. -/
def enumeration (facts : Facts) : Validator :=
  match facts.enum.getD [] with
  | [] => Validator.never
  | [value] => literalOf facts value
  | values =>
    match values.mapM Json.string? with
    | some texts => Validator.ofBase (.enum texts)
    | none => Validator.ofBase (.union (values.map (literalOf facts)))

def constant (facts : Facts) : Validator :=
  match facts.const with
  | some value => literalOf facts value
  | none => Validator.any

end Compile
end Valgen
