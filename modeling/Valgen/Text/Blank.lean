/-!
# Blank — white space in the sense of Unicode

The characters with the property `White_Space`, and the texts made of them.
-/
namespace Valgen
namespace Text

/-- **The code points with the property `White_Space`.** -/
def isBlankPoint (n : Nat) : Bool :=
  (0x09 ≤ n && n ≤ 0x0d) || n == 0x20 || n == 0x85 || n == 0xa0 || n == 0x1680 ||
  (0x2000 ≤ n && n ≤ 0x200a) || n == 0x2028 || n == 0x2029 || n == 0x202f || n == 0x205f || n == 0x3000

/-- **A text of white space only**, the empty text included. -/
def isBlank (s : String) : Bool := s.toList.all (fun c => isBlankPoint c.toNat)

end Text
end Valgen
