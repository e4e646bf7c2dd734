/-!
# Path — where a schema node stands in its document

A path is the list of keys and indices that lead from the root of a document to a node.  It is shown in errors and read
by the rules that pick nodes by place.
-/
namespace Valgen

inductive Segment where
  | key (name : String)
  | index (position : Nat)
deriving DecidableEq, Repr

namespace Segment

/-- **The text a pattern compares**: the key, or the index in decimal. -/
def text : Segment → String
  | .key name => name
  | .index position => toString position

def shown : Segment → String
  | .key name => "." ++ name
  | .index position => "[" ++ toString position ++ "]"

end Segment

abbrev Path : Type := List Segment

/-- **The path as errors show it**: `$.properties.user.allOf[1]`. -/
def Path.text (path : Path) : String := path.foldl (fun acc s => acc ++ s.shown) "$"

end Valgen
