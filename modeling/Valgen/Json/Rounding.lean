import Valgen.Number.Binary64
/-!
# Json.Rounding — the float of a numeral

Where a numeral is not a whole number of 64 bits a float stands for it.  Which one is a matter of its own: reading a
text takes a `Rounding` as a parameter.

`round` is the quick one.  It gathers digits into a whole number for as long as that fits 64 bits; digits that no longer
fit are counted before the point and left out behind it.  The whole number becomes a float, which is multiplied or
divided by a power of ten.  Both steps round, so that the outcome need not be the float nearest to the numeral.
-/
namespace Valgen
namespace Json

/-- **How the float of a numeral is found**, from its sign, the digits before and behind the point, and its exponent.
There is none for a number that is too large. -/
abbrev Rounding : Type := Bool → List Char → List Char → Int → Option Binary64

def wordLimit : Nat := 0xffffffffffffffff

def withDigit (value : Nat) (c : Char) : Nat := value * 10 + (c.toNat - '0'.toNat)

/-- **The digits before the point**: their number, and how many were left out of it. -/
def gatherWhole (value : Nat) : List Char → Nat × Nat
  | [] => (value, 0)
  | c :: rest =>
    if withDigit value c ≤ wordLimit then gatherWhole (withDigit value c) rest else (value, rest.length + 1)

/-- **The digits behind the point**: their number, and how many went into it. -/
def gatherPlaces (value count : Nat) : List Char → Nat × Nat
  | [] => (value, count)
  | c :: rest =>
    if withDigit value c ≤ wordLimit then gatherPlaces (withDigit value c) (count + 1) rest else (value, count)

/-- **The greatest power of ten that is a float.** -/
def powerLimit : Nat := 308

def powerOfTen? (power : Nat) : Option Binary64 := Binary64.ofDecimal? false 1 power

/-- **A float divided by the greatest power of ten**, several times, unless it is zero before. -/
def divideRepeatedly : Nat → Binary64 → Option Binary64
  | 0, f => some f
  | times + 1, f =>
    if f.mantissa = 0 then some f
    else do divideRepeatedly times (← f.div? (← powerOfTen? powerLimit))

def scale? (f : Binary64) (power : Int) : Option Binary64 :=
  if 0 ≤ power then
    if power ≤ powerLimit then do f.mul? (← powerOfTen? power.toNat)
    else if f.mantissa = 0 then some f
    else none
  else
    -- What is left of the power after the repeated divisions lies between one and the limit.
    let times := ((-power).toNat - 1) / powerLimit
    do (← divideRepeatedly times f).div? (← powerOfTen? ((-power).toNat - times * powerLimit))

/-- **The float of a numeral**, by one multiplication or division of floats. -/
def round : Rounding := fun negative whole places exponent => do
  let (value, left) := gatherWhole 0 whole
  let (value, count) := gatherPlaces value 0 places
  let f ← scale? (← Binary64.ofRatio? false value 1) (left - count + exponent)
  return { f with negative := negative }

-- The nearest float to the first numeral is another one, and the second is below the greatest float.
example : round false "1".toList [] (-23) ≠ Binary64.ofDecimal? false 1 (-23) := by decide +kernel
example : round false "1".toList "7976931348623158".toList 308 = none := by decide +kernel

end Json
end Valgen
