import Valgen.Text.Hidden
/-!
# Visible — a text in quotes with nothing hidden

Messages show texts of the user in double quotes.  Quotes, backslashes and the common control characters are escaped by
a letter, other characters that would not show are written by their code point.
-/
namespace Valgen
namespace Text

def visibleChar (c : Char) : List Char :=
  if c = '"' then ['\\', '"']
  else if c = '\\' then ['\\', '\\']
  else if c = '\n' then ['\\', 'n']
  else if c = '\r' then ['\\', 'r']
  else if c = '\t' then ['\\', 't']
  else if c.toNat = 0 then ['\\', '0']
  else if isHidden c then "\\u\x7b".toList ++ Nat.toDigits 16 c.toNat ++ ['\x7d']
  else [c]

def visible (s : String) : String := String.ofList ('"' :: (s.toList.flatMap visibleChar ++ ['"']))

end Text
end Valgen
