/-!
# Binary64 — finite binary floating-point numbers, exactly

A finite 64-bit float is a sign, a mantissa below 2^53 and a power of two.  Keeping the three parts, and not a machine
float, makes every question about such a number a question about natural numbers: `ofDecimal?` reads a decimal to the
nearest float by exact division.
-/
namespace Valgen

/-- **A finite float**: `mantissa * 2 ^ exponent`, with a sign.  The mantissa is below 2^53, and at least 2^52 unless
the exponent is the least one, -1074; a zero has a sign too. -/
structure Binary64 where
  negative : Bool
  mantissa : Nat
  exponent : Int
deriving DecidableEq, Repr

namespace Binary64

/-- **The bits of a mantissa.** -/
def precision : Nat := 53

def minExponent : Int := -1074

def maxExponent : Int := 971

/-- **The quotient to the nearest whole number**; a half goes to the even neighbour. -/
def roundDiv (num den : Nat) : Nat :=
  let q := num / den
  let twice := 2 * (num % den)
  if twice < den then q
  else if den < twice then q + 1
  else if q % 2 = 0 then q else q + 1

/-- **The quotient `num / den` in units of `2 ^ e`**, as a numerator and a denominator. -/
def scaled (num den : Nat) (e : Int) : Nat × Nat := (num * Nat.pow 2 (-e).toNat, den * Nat.pow 2 e.toNat)

/-- **The exponent at which a positive quotient has exactly `precision` bits**, or the least exponent if that is
greater. -/
def exponentOf (num den : Nat) : Int :=
  let e : Int := (Nat.log2 num : Int) - Nat.log2 den - 52
  let s := scaled num den e
  max minExponent (if s.1 / s.2 < Nat.pow 2 52 then e - 1 else e)

/-- **The float nearest to a positive quotient**, if it is finite. -/
def ofQuotient? (negative : Bool) (num den : Nat) : Option Binary64 :=
  let e := exponentOf num den
  let s := scaled num den e
  let m := roundDiv s.1 s.2
  let (m, e) := if m = Nat.pow 2 precision then (Nat.pow 2 52, e + 1) else (m, e)
  if maxExponent < e then none else some ⟨negative, m, e⟩

def zero (negative : Bool) : Binary64 := ⟨negative, 0, minExponent⟩

/-- **The float nearest to a quotient**, if it is finite. -/
def ofRatio? (negative : Bool) (num den : Nat) : Option Binary64 :=
  if num = 0 then some (zero negative) else ofQuotient? negative num den

def mul? (a b : Binary64) : Option Binary64 :=
  let e := a.exponent + b.exponent
  ofRatio? (a.negative != b.negative) (a.mantissa * b.mantissa * Nat.pow 2 e.toNat) (Nat.pow 2 (-e).toNat)

/-- **The quotient of two floats**, the second of which is not zero. -/
def div? (a b : Binary64) : Option Binary64 :=
  let e := a.exponent - b.exponent
  ofRatio? (a.negative != b.negative) (a.mantissa * Nat.pow 2 e.toNat) (b.mantissa * Nat.pow 2 (-e).toNat)

def digitCount (n : Nat) : Nat := (Nat.toDigits 10 n).length

/-- **The float nearest to the decimal `digits * 10 ^ power`**, if it is finite.  Decimals far above the greatest float
or far below the least one are settled by their size alone. -/
def ofDecimal? (negative : Bool) (digits : Nat) (power : Int) : Option Binary64 :=
  if digits = 0 then some (zero negative)
  else if 310 < power + digitCount digits then none
  else if power + digitCount digits < -340 then some (zero negative)
  else ofQuotient? negative (digits * Nat.pow 10 power.toNat) (Nat.pow 10 (-power).toNat)

def one : Binary64 := ⟨false, Nat.pow 2 52, -52⟩

example : ofDecimal? false 1 0 = some one := by decide +kernel
example : ofDecimal? false 5 (-324) = some ⟨false, 1, -1074⟩ := by decide +kernel
example : ofDecimal? true 18 307 = none := by decide +kernel
example : ofDecimal? false 17976931348623157 292 = some ⟨false, Nat.pow 2 53 - 1, 971⟩ := by decide +kernel

end Binary64
end Valgen
