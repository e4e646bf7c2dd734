/-!
# Lines — a text as its lines, and a block of text moved to the right

`lines` cuts a text at its line feeds, `indent` is the margin of a nesting depth, and `reindent` moves every line of a
block but the first to a deeper margin.  All three work on lists of characters or on plain strings and know nothing of
the language the text is written in.
-/
namespace Valgen
namespace Text

/-- **The lines of a text.**  A line ends at a line feed, which is dropped together with one carriage return right
before it; a text that ends in a line feed has no empty last line; a carriage return elsewhere stays. -/
def lines : List Char → List (List Char)
  | [] => []
  | '\r' :: '\n' :: rest => [] :: lines rest
  | '\n' :: rest => [] :: lines rest
  | c :: rest =>
    match lines rest with
    | [] => [[c]]
    | line :: more => (c :: line) :: more

def linesOf (s : String) : List String := (lines s.toList).map String.ofList

/-- **The margin of a nesting depth**: two spaces a level. -/
def indent (depth : Nat) : String := String.ofList (List.replicate (2 * depth) ' ')

/-- **A line behind a margin**; an empty line stays empty. -/
def marginLine (margin line : String) : String := if line.isEmpty then "" else margin ++ line

/-- **A block of text at a deeper margin.**  The first line stays where it is, since it continues the line it is placed
on; the others get the margin of `depth`.  A text of one line, or depth zero, is returned as it stands. -/
def reindent (text : String) (depth : Nat) : String :=
  if depth = 0 ∨ '\n' ∉ text.toList then text
  else
    match linesOf text with
    | [] => ""
    | first :: rest => "\n".intercalate (first :: rest.map (marginLine (indent depth)))

end Text
end Valgen
