import Valgen.Compile.Recipe
import Valgen.Schema.Node
/-!
# Compile.Select — which keyword decides

A schema may carry keywords of several kinds; `select` says which of them decides what it is compiled as.  The type
comes first, then a shape that needs no type, then literals, compositions, several types, and last a reference.
-/
namespace Valgen
namespace Compile

open Schema (Keywords Node)

inductive Kind where
  | custom (typeName : String) (recipe : Recipe)
  | object
  | array
  | string
  | number
  | integer
  | boolean
  | null
  | enum
  | const
  | allOf
  | anyOf
  | oneOf
  | not
  | conditional
  | multiType
  | reference
  | any

namespace Kind

def name : Kind → String
  | .custom _ _ => "custom"
  | .object => "object"
  | .array => "array"
  | .string => "string"
  | .number => "number"
  | .integer => "integer"
  | .boolean => "boolean"
  | .null => "null"
  | .enum => "enum"
  | .const => "const"
  | .allOf => "allOf"
  | .anyOf => "anyOf"
  | .oneOf => "oneOf"
  | .not => "not"
  | .conditional => "if"
  | .multiType => "multi-type"
  | .reference => "$ref"
  | .any => "any"

def label : Kind → String
  | .custom typeName _ => "Custom(" ++ typeName ++ ")"
  | kind => kind.name

end Kind

/-- **The kind of a single built-in type** that is neither an object nor an array. -/
def primitiveKind? (typeName : String) : Option Kind :=
  if typeName = "string" then some .string
  else if typeName = "number" then some .number
  else if typeName = "integer" then some .integer
  else if typeName = "boolean" then some .boolean
  else if typeName = "null" then some .null
  else none

def selectUntyped (k : Keywords Node) : Kind :=
  if k.enum.isSome then .enum
  else if k.const.isSome then .const
  else if k.allOf.isSome then .allOf
  else if k.anyOf.isSome then .anyOf
  else if k.oneOf.isSome then .oneOf
  else if k.not.isSome then .not
  else if k.ifSchema.isSome || k.thenSchema.isSome || k.elseSchema.isSome then .conditional
  else if 1 < k.types.length then .multiType
  else if k.ref.isSome then .reference
  else .any

/-- **Whether a schema is compiled as an object**: by its type, or without one by its keywords. -/
def isObjectLike (k : Keywords Node) : Bool :=
  k.singleType? == some "object" || (k.type.isNone && (k.properties.isSome || k.additionalProperties.isSome))

/-- **Whether a schema is compiled as an array**: by its type, or without one by its keywords. -/
def isArrayLike (k : Keywords Node) : Bool :=
  k.singleType? == some "array" || (k.type.isNone && (k.items.isSome || k.prefixItems.isSome))

/-- **The recipe for a schema's type**, with the type. -/
def customKind? (book : RecipeBook) (k : Keywords Node) : Option Kind :=
  k.singleType?.bind (fun typeName => (Assoc.get? book typeName).map (Kind.custom typeName))

def select (book : RecipeBook) (k : Keywords Node) : Kind :=
  match customKind? book k with
  | some kind => kind
  | none =>
    if isObjectLike k then .object
    else if isArrayLike k then .array
    else (k.singleType?.bind primitiveKind?).getD (selectUntyped k)

end Compile
end Valgen
