import Valgen.Schema.Node
import Valgen.Text.Split
/-!
# Schema.Pointer — subschemas by pointer

A pointer such as `/properties/user/items` names a subschema by the keywords and keys on the way to it.  Inside a token
`~1` stands for `/` and `~0` for `~`.  A pointer may start with `#`; the empty pointer and `/` name the schema itself.
-/
namespace Valgen
namespace Schema

namespace Pointer

/-- **Every `~1` as `/`.** -/
def unescapeSlash : List Char → List Char
  | [] => []
  | '~' :: '1' :: rest => '/' :: unescapeSlash rest
  | c :: rest => c :: unescapeSlash rest

/-- **Every `~0` as `~`.** -/
def unescapeTilde : List Char → List Char
  | [] => []
  | '~' :: '0' :: rest => '~' :: unescapeTilde rest
  | c :: rest => c :: unescapeTilde rest

def unescape (cs : List Char) : List Char := unescapeTilde (unescapeSlash cs)

def dropHash : List Char → List Char
  | '#' :: rest => rest
  | cs => cs

/-- **The tokens of a pointer**: none for the schema itself; a pointer that does not start with `/` has no tokens. -/
def tokens? (cs : List Char) : Option (List (List Char)) :=
  match dropHash cs with
  | [] => some []
  | ['/'] => some []
  | '/' :: rest => some ((Text.splitAt '/' rest).map unescape)
  | _ => none

end Pointer

def Keywords.one? {ν : Type} (k : Keywords ν) (keyword : String) : Option ν :=
  if keyword = "not" then k.not
  else if keyword = "if" then k.ifSchema
  else if keyword = "then" then k.thenSchema
  else if keyword = "else" then k.elseSchema
  else if keyword = "additionalProperties" then k.additionalProperties
  else none

def Keywords.map? {ν : Type} (k : Keywords ν) (keyword : String) : Option (Assoc ν) :=
  if keyword = "properties" then k.properties
  else if keyword = "$defs" then k.defs
  else if keyword = "definitions" then k.definitions
  else none

def Keywords.list? {ν : Type} (k : Keywords ν) (keyword : String) : Option (List ν) :=
  if keyword = "prefixItems" then k.prefixItems
  else if keyword = "allOf" then k.allOf
  else if keyword = "anyOf" then k.anyOf
  else if keyword = "oneOf" then k.oneOf
  else if keyword = "items" then
    match k.items with
    | some (.tuple nodes) => some nodes
    | _ => none
  else none

def Keywords.itemsSchema? {ν : Type} (k : Keywords ν) : Option ν :=
  match k.items with
  | some (.single node) => some node
  | _ => none

namespace Node

/-- **The subschema that tokens lead to.**  A keyword with one subschema is followed at once, one with several takes
the next token as the key or the index. -/
def follow : List (List Char) → Node → Option Node
  | [], node => some node
  | _ :: _, .bool _ => none
  | token :: rest, .object k =>
    let keyword := String.ofList token
    let direct := if keyword = "items" then k.itemsSchema? else k.one? keyword
    match direct with
    | some child => follow rest child
    | none =>
      match rest with
      | [] => none
      | place :: rest =>
        match k.map? keyword with
        | some l => (Assoc.get? l (String.ofList place)).bind (follow rest)
        | none => ((k.list? keyword).bind (fun l => (Text.decimal? place).bind (fun i => l[i]?))).bind (follow rest)

def pointer? (node : Node) (pointer : String) : Option Node :=
  (Pointer.tokens? pointer.toList).bind (fun tokens => follow tokens node)

end Node
end Schema
end Valgen
