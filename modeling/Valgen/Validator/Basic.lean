import Valgen.Json.Basic
/-!
# Validator — validators as trees

A validator is a base and the modifiers applied to it.  The base says which values are meant, the modifiers add
markers (`optional`, `nullable`, a default, …) and refinements.  The modifiers stand in the order in which they were
applied; each marker is there at most once (`Validator.optional`, `Validator.describe`, …).
-/
namespace Valgen

inductive StringFormat where
  | email
  | uuid
  | url
  | dateTime
  | date
  | time
  | ipv4
  | ipv6
  | duration
  | base64
deriving DecidableEq, Repr

/-- **The format of a `format` keyword**, if it is a known one. -/
def StringFormat.ofKeyword? (keyword : String) : Option StringFormat :=
  Assoc.get?
    [("email", .email), ("uuid", .uuid), ("uri", .url), ("url", .url), ("date-time", .dateTime), ("date", .date),
     ("time", .time), ("ipv4", .ipv4), ("ipv6", .ipv6), ("duration", .duration)]
    keyword

/-- **A condition on a string, a number or an array.** -/
inductive Check where
  /-- At least so many characters or items. -/
  | min (count : Nat)
  /-- At most so many characters or items. -/
  | max (count : Nat)
  | regex (source : String)
  | multipleOf (factor : Number)
  | gte (bound : Number)
  | gt (bound : Number)
  | lte (bound : Number)
  | lt (bound : Number)
deriving DecidableEq, Repr

/-- **A condition with the message for a value that fails it.** -/
structure Constraint where
  check : Check
  message : Option String := none
deriving DecidableEq, Repr

mutual

structure Validator where
  base : Base
  modifiers : List Modifier

/-- **The values a validator starts from.** -/
inductive Base where
  | any
  | unknown
  | never
  | boolean
  | null
  | string (format : Option StringFormat) (formatMessage : Option String) (checks : List Constraint)
  | number (integer : Bool) (integerMessage : Option String) (checks : List Constraint)
  | literal (value : Json)
  /-- One of several texts. -/
  | enum (values : List String)
  | object (properties : List Property) (unlisted : Unlisted)
  | array (items : Validator) (checks : List Constraint)
  | tuple (items : List Validator) (rest : Option Validator)
  /-- An object with arbitrary keys. -/
  | record (values : Validator)
  | union (members : List Validator)
  /-- A union of which exactly one member accepts. -/
  | xor (members : List Validator)
  | intersection (left right : Validator)
  /-- A validator named elsewhere; a deferred one is looked up when a value is checked. -/
  | reference (expression : String) (deferred : Bool)
  /-- Text that is taken over as it stands. -/
  | custom (text : String)

structure Property where
  key : String
  value : Validator
  description : Option String

/-- **What becomes of keys an object shape does not list.** -/
inductive Unlisted where
  | strip
  | strict
  | passthrough
  | catchall (values : Validator)

inductive Modifier where
  | optional
  | nullable
  | default (value : Json)
  | describe (text : String)
  | brand (name : String)
  | readonly
  | refine (predicate : String) (message : Option String)
  | superRefine (body : String)
  | pipe (target : Validator)

end

/-- **The kinds of modifiers**: the refinements together, and each marker. -/
inductive Slot where
  | refinement
  | optional
  | nullable
  | default
  | describe
  | brand
  | readonly
deriving DecidableEq, Repr

def Modifier.slot : Modifier → Slot
  | .optional => .optional
  | .nullable => .nullable
  | .default _ => .default
  | .describe _ => .describe
  | .brand _ => .brand
  | .readonly => .readonly
  | .refine _ _ => .refinement
  | .superRefine _ => .refinement
  | .pipe _ => .refinement

namespace Validator

def ofBase (base : Base) : Validator := ⟨base, []⟩

def any : Validator := ofBase .any

instance : Inhabited Validator := ⟨any⟩

def never : Validator := ofBase .never

/-- **A named validator that is there already.** -/
def reference (expression : String) : Validator := ofBase (.reference expression false)

/-- **A named validator that is looked up when a value is checked.** -/
def lazy (expression : String) : Validator := ofBase (.reference expression true)

/-- **Text taken over as it stands.** -/
def custom (text : String) : Validator := ofBase (.custom text)

def hasSlot (v : Validator) (slot : Slot) : Bool := v.modifiers.any (fun m => m.slot == slot)

def withoutSlot (v : Validator) (slot : Slot) : Validator :=
  { v with modifiers := v.modifiers.filter (fun m => m.slot != slot) }

def push (v : Validator) (m : Modifier) : Validator := { v with modifiers := v.modifiers ++ [m] }

/-- **The validator with a marker**, in its place if it is there already. -/
def mark (v : Validator) (m : Modifier) : Validator := if v.hasSlot m.slot then v else v.push m

/-- **The validator with a modifier in place of those of its kind**, at the end. -/
def replace (v : Validator) (m : Modifier) : Validator := (v.withoutSlot m.slot).push m

def optional (v : Validator) : Validator := v.mark .optional

def required (v : Validator) : Validator := v.withoutSlot .optional

def nullable (v : Validator) : Validator := v.mark .nullable

def readonly (v : Validator) : Validator := v.mark .readonly

def withDefault (v : Validator) (value : Json) : Validator := v.replace (.default value)

def describe (v : Validator) (text : String) : Validator := v.replace (.describe text)

def brand (v : Validator) (name : String) : Validator := v.replace (.brand name)

def refine (v : Validator) (predicate : String) (message : Option String) : Validator :=
  v.push (.refine predicate message)

def superRefine (v : Validator) (body : String) : Validator := v.push (.superRefine body)

def pipe (v target : Validator) : Validator := v.push (.pipe target)

def isOptional (v : Validator) : Bool := v.hasSlot .optional

def hasDefault (v : Validator) : Bool := v.hasSlot .default

/-- **Whether it is the bare validator of no value.** -/
def isNever (v : Validator) : Bool :=
  match v.base, v.modifiers with
  | .never, [] => true
  | _, _ => false

end Validator
end Valgen
