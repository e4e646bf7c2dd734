/-!
# Split — a text cut at a character

`splitAt sep` cuts at every `sep`; there is always one piece more than there are separators, so the empty text gives
one empty piece.
-/
namespace Valgen
namespace Text

def splitAt (sep : Char) : List Char → List (List Char)
  | [] => [[]]
  | c :: rest =>
    if c = sep then [] :: splitAt sep rest
    else
      match splitAt sep rest with
      | [] => [[c]]
      | piece :: more => (c :: piece) :: more

/-- **The text up to the first separator, and the text behind it** if there is one. -/
def splitFirst (sep : Char) : List Char → List Char × Option (List Char)
  | [] => ([], none)
  | c :: rest =>
    if c = sep then ([], some rest)
    else
      let (before, behind) := splitFirst sep rest
      (c :: before, behind)

/-- **The text without a given beginning**, if it has it. -/
def dropStart : List Char → List Char → Option (List Char)
  | [], cs => some cs
  | _ :: _, [] => none
  | s :: start, c :: cs => if s = c then dropStart start cs else none

/-- **A decimal number**, with an optional plus sign. -/
def decimal? (cs : List Char) : Option Nat :=
  let digits := match cs with
    | '+' :: rest => rest
    | _ => cs
  if digits.isEmpty || !digits.all Char.isDigit then none else some (Nat.ofDigitChars 10 digits 0)

end Text
end Valgen
