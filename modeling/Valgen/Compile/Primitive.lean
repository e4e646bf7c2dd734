import Valgen.Compile.Literal
import Valgen.Compile.Select
/-!
# Compile.Primitive — strings, numbers, truth values and null

An `enum` or a `const` beside the type decides alone.
-/
namespace Valgen
namespace Compile

open Schema (Facts ExclusiveBound)

/-- **A condition with the message of a keyword**, if the condition is there. -/
def constraint? (facts : Facts) (keyword : String) (check : Option Check) : List Constraint :=
  (check.map (fun c => ⟨c, facts.messageFor keyword⟩)).toList

/-- **The format of a string**: that of `format` if it is known, else that of a base64 encoding. -/
def formatOf? (facts : Facts) : Option StringFormat :=
  match facts.format.bind StringFormat.ofKeyword? with
  | some format => some format
  | none => if facts.contentEncoding = some "base64" then some .base64 else none

def stringOf (facts : Facts) : Validator :=
  let format := formatOf? facts
  Validator.ofBase (.string format (format.bind (fun _ => facts.messageFor "format"))
    (constraint? facts "pattern" (facts.pattern.map .regex) ++
     constraint? facts "minLength" (facts.minLength.map .min) ++
     constraint? facts "maxLength" (facts.maxLength.map .max)))

/-- **The conditions of a bound and its exclusive companion.**  A flag makes the bound itself exclusive; an exclusive
bound of its own is a condition more. -/
def bounds (facts : Facts) (keyword exclusiveKeyword : String) (inclusive strict : Number → Check)
    (bound : Option Number) (exclusive : Option ExclusiveBound) : List Constraint :=
  let own := match exclusive with
    | some (.flag true) => constraint? facts exclusiveKeyword (bound.map strict)
    | _ => constraint? facts keyword (bound.map inclusive)
  let extra := match exclusive with
    | some (.value number) => constraint? facts exclusiveKeyword (some (strict number))
    | _ => []
  own ++ extra

/-- **A number**; multiples of one are whole numbers. -/
def numberOf (facts : Facts) (integer : Bool) : Validator :=
  let unit := facts.multipleOf.any Number.isOne
  let whole := integer || unit
  let step := if unit then [] else constraint? facts "multipleOf" (facts.multipleOf.map .multipleOf)
  Validator.ofBase (.number whole (if whole then facts.messageFor "type" else none)
    (step ++
     bounds facts "minimum" "exclusiveMinimum" .gte .gt facts.minimum facts.exclusiveMinimum ++
     bounds facts "maximum" "exclusiveMaximum" .lte .lt facts.maximum facts.exclusiveMaximum))

def primitive (kind : Kind) (facts : Facts) : Validator :=
  if facts.enum.isSome then enumeration facts
  else if facts.const.isSome then constant facts
  else
    match kind with
    | .string => stringOf facts
    | .number => numberOf facts false
    | .integer => numberOf facts true
    | .boolean => Validator.ofBase .boolean
    | .null => Validator.ofBase .null
    | _ => Validator.any

end Compile
end Valgen
