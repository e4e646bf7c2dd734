/-!
# Quoted — string literals in double quotes

`quote` writes a string as one double-quoted JavaScript literal.  The quote, the backslash, the control characters and
the two line separators U+2028 and U+2029 are written as escapes; every other character stands for itself.
-/
namespace Valgen
namespace Text

/-- **The lower-case hexadecimal digits of a number**, with zeros in front up to four places. -/
def hex4 (n : Nat) : List Char :=
  let digits := Nat.toDigits 16 n
  List.replicate (4 - digits.length) '0' ++ digits

/-- **One character of a literal**: itself, or its escape. -/
def escapeChar (c : Char) : List Char :=
  if c = '"' then ['\\', '"']
  else if c = '\\' then ['\\', '\\']
  else if c = '\n' then ['\\', 'n']
  else if c = '\r' then ['\\', 'r']
  else if c = '\t' then ['\\', 't']
  else if c.toNat < 0x20 ∨ c.toNat = 0x2028 ∨ c.toNat = 0x2029 then '\\' :: 'u' :: hex4 c.toNat
  else [c]

def escape (cs : List Char) : List Char := cs.flatMap escapeChar

def quote (s : String) : String := String.ofList ('"' :: (escape s.toList ++ ['"']))

end Text
end Valgen
