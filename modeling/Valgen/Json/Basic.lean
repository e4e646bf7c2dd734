import Valgen.Assoc
import Valgen.Number.Shortest
/-!
# Json — JSON values

Numbers keep apart the whole numbers that fit 64 bits and the floats, so that `1` and `1.0` are two values.  The members
of an object keep their order.  A value read from text may hold a key twice; `Json.mergeRepeats` is the value in which
each key keeps its first place and its last value.
-/
namespace Valgen

/-- **A JSON number**: a whole number of 64 bits (signed or not), or a float. -/
inductive Number where
  | whole (value : Int)
  | float (value : Binary64)
deriving DecidableEq, Repr

namespace Number

def text : Number → String
  | .whole value => toString value
  | .float value => value.text

/-- **Whether a number is one**, as a whole number or as a float. -/
def isOne : Number → Bool
  | .whole value => value == 1
  | .float value => value == Binary64.one

end Number

inductive Json where
  | null
  | bool (value : Bool)
  | number (value : Number)
  | string (value : String)
  | array (items : List Json)
  | object (members : List (String × Json))
deriving Repr

instance : Inhabited Json := ⟨.null⟩

namespace Json

mutual

/-- **The value with repeated keys merged**, at every depth. -/
def mergeRepeats : Json → Json
  | .null => .null
  | .bool value => .bool value
  | .number value => .number value
  | .string value => .string value
  | .array items => .array (mergeItems items)
  | .object members => .object (Assoc.ofEntries (mergeMembers members))

def mergeItems : List Json → List Json
  | [] => []
  | item :: rest => mergeRepeats item :: mergeItems rest

def mergeMembers : List (String × Json) → List (String × Json)
  | [] => []
  | (key, value) :: rest => (key, mergeRepeats value) :: mergeMembers rest

end

def get? (value : Json) (key : String) : Option Json :=
  match value with
  | .object members => Assoc.get? members key
  | _ => none

def string? : Json → Option String
  | .string value => some value
  | _ => none

def bool? : Json → Option Bool
  | .bool value => some value
  | _ => none

def number? : Json → Option Number
  | .number value => some value
  | _ => none

def array? : Json → Option (List Json)
  | .array items => some items
  | _ => none

/-- **A natural number**: only a whole number is one, `1.0` is not. -/
def nat? : Json → Option Nat
  | .number (.whole (.ofNat n)) => some n
  | _ => none

def strings? (value : Json) : Option (List String) := value.array?.bind (fun items => items.mapM string?)

end Json
end Valgen
