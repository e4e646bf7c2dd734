import Valgen.Json.Basic
/-!
# Options — what the generated text looks like

The version of the validator library the text is written for, how the text is wrapped as a module, and the choices that
go with them.
-/
namespace Valgen

/-- **The version of the library the text is written for.** -/
inductive Dialect where
  | v3
  | v4
deriving DecidableEq, Repr

namespace Dialect

def name : Dialect → String
  | .v3 => "v3"
  | .v4 => "v4"

def module : Dialect → String
  | .v3 => "zod"
  | .v4 => "zod/v4"

def all : List Dialect := [.v3, .v4]

def ofName? (s : String) : Option Dialect := all.find? (fun d => d.name == s)

/-- **The version a user asks for**, by its name or its number. -/
def parse (s : String) : Except String Dialect :=
  if s = "v3" ∨ s = "3" then .ok .v3
  else if s = "v4" ∨ s = "4" then .ok .v4
  else .error ("unknown dialect '" ++ s ++ "', expected 'v3' or 'v4'")

end Dialect

/-- **How an expression becomes module text.** -/
inductive Wrap where
  /-- The bare expression, or a constant when there is a name. -/
  | none
  /-- A module that assigns `module.exports`. -/
  | cjs
  /-- A module with `export` statements. -/
  | esm
  /-- A constant, which needs a name. -/
  | const
deriving DecidableEq, Repr

namespace Wrap

def name : Wrap → String
  | .none => "none"
  | .cjs => "cjs"
  | .esm => "esm"
  | .const => "const"

def all : List Wrap := [.none, .cjs, .esm, .const]

def ofName? (s : String) : Option Wrap := all.find? (fun w => w.name == s)

def parse (s : String) : Except String Wrap :=
  match ofName? s with
  | some wrap => .ok wrap
  | .none => .error ("unknown wrap mode '" ++ s ++ "', expected one of: none, cjs, esm, const")

def extension : Wrap → String
  | .cjs => "js"
  | _ => "ts"

end Wrap

structure Options where
  dialect : Dialect := .v4
  wrap : Wrap := .esm
  /-- The name of the constant. -/
  name : Option String := none
  /-- Whether the module imports the library. -/
  withImport : Bool := true
  /-- The name of a type derived from the validator. -/
  typeAlias : Option String := none
  /-- Whether `default` keywords are applied. -/
  applyDefaults : Bool := true
  /-- Whether descriptions become comments in object shapes. -/
  jsdocs : Bool := false
deriving DecidableEq, Repr

namespace Options

/-- **The fields of the options, in order**, as settings name them. -/
def fieldNames : List String :=
  ["dialect", "wrap", "name", "with_import", "type_alias", "apply_defaults", "jsdocs"]

/-- **The name of a variant**: a text, or an object whose one key holds null. -/
def variant? : Json → Option String
  | .string s => some s
  | .object [(key, .null)] => some key
  | _ => none

def nullable? : Json → Option (Option String)
  | .null => some none
  | .string s => some (some s)
  | _ => none

/-- **The options with one setting taken over**; a setting without meaning changes nothing. -/
def set? (o : Options) (field : String) (value : Json) : Option Options :=
  if field = "dialect" then
    ((variant? value).bind Dialect.ofName?).map (fun d => { o with dialect := d })
  else if field = "wrap" then
    ((variant? value).bind Wrap.ofName?).map (fun w => { o with wrap := w })
  else if field = "name" then (nullable? value).map (fun n => { o with name := n })
  else if field = "with_import" then value.bool?.map (fun b => { o with withImport := b })
  else if field = "type_alias" then (nullable? value).map (fun n => { o with typeAlias := n })
  else if field = "apply_defaults" then value.bool?.map (fun b => { o with applyDefaults := b })
  else if field = "jsdocs" then value.bool?.map (fun b => { o with jsdocs := b })
  else some o

def setAll? (o : Options) (settings : List (String × Json)) : Option Options :=
  settings.foldlM (fun o s => set? o s.1 s.2) o

/-- **The options of a JSON value**: an object of settings, or an array with the settings in the order of the fields. -/
def ofJson? : Json → Option Options
  | .object members => setAll? {} members
  | .array items => if fieldNames.length < items.length then none else setAll? {} (fieldNames.zip items)
  | _ => none

end Options
end Valgen
