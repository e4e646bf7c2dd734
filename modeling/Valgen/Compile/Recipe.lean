import Valgen.Assoc
import Valgen.Error
import Valgen.Schema.Node
import Valgen.Text.Blank
import Valgen.Validator.Render
/-!
# Compile.Recipe — compilers for types of the user's own

A recipe says what a node with a type of the user's own becomes.  It is any function that sees the schema without its
subschemas, asks for some of these and for references to be compiled, and makes its validator of the answers.  What it
asks for depends on the schema and on its place, not on the answers.  Thus it passes on the errors that it is answered
with, and leads out of its document by the references that it lists only.

`RecipeBook` holds the recipes by the name of their type; the names of the built-in types, blank names and names that
are taken are refused.
-/
namespace Valgen
namespace Compile

open Schema (Keywords Step)

/-- **What a recipe asks for.** -/
inductive Request (references : List String) where
  /-- The subschema behind a step, or the empty schema if there is none, at a place below that of the schema; after the
  rules or before them. -/
  | schema (step : Step) (below : List Segment) (ruled : Bool)
  /-- What a reference stands for. -/
  | reference (target : String) (listed : target ∈ references)

/-- **What a node of a user's type becomes.** -/
structure Recipe where
  /-- The references that may be asked for. -/
  references : List String := []
  /-- What is asked for, in order, or why the schema is refused. -/
  requests : Keywords Unit → Path → Except { e : Error // e ≠ .budgetSpent } (List (Request references))
  /-- The validator that is made of the answers. -/
  make : Keywords Unit → Path → Style → List Validator → Validator

namespace Recipe

def text (expression : String) : Recipe where
  requests _ _ := .ok []
  make _ _ _ _ := Validator.custom expression

/-- **What is made of the item of a node**: the schema under `items`, or the empty schema. -/
def ofItem (ruled : Bool) (make : Style → Validator → Validator) : Recipe where
  requests _ _ := .ok [.schema .items [.key "items"] ruled]
  make _ _ style answers := make style (answers.headD Validator.any)

def itemArray : Recipe := ofItem true (fun _ v => Validator.ofBase (.array v []))

def rawItemArray : Recipe := ofItem false (fun _ v => Validator.ofBase (.array v []))

def call (function : String) : Recipe :=
  ofItem true (fun style v => Validator.custom (function ++ "(" ++ v.render style ++ ")"))

def reference (target : String) : Recipe where
  references := [target]
  requests _ _ := .ok [.reference target List.mem_cons_self]
  make _ _ _ answers := answers.headD Validator.any

end Recipe

abbrev RecipeBook : Type := Assoc Recipe

def builtinTypes : List String := ["object", "array", "string", "number", "integer", "boolean", "null"]

namespace RecipeBook

/-- **Why a type name is refused**, if it is. -/
def refusal? (book : RecipeBook) (typeName : String) : Option String :=
  if Text.isBlank typeName then some "discriminator must not be empty"
  else if builtinTypes.contains typeName then some "discriminator names a built-in type"
  else if Assoc.contains book typeName then some "discriminator is already bound"
  else none

def register (book : RecipeBook) (typeName : String) (recipe : Recipe) : Except Error RecipeBook :=
  match refusal? book typeName with
  | some reason => .error (.invalidCompiler typeName reason)
  | none => .ok (Assoc.insert typeName recipe book)

def references (book : RecipeBook) : List String := book.flatMap (fun e => e.2.references)

end RecipeBook
end Compile
end Valgen
