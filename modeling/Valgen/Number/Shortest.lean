import Valgen.Number.Binary64
/-!
# Shortest — the fewest decimal digits that read back as a float

The decimals that round to a float form an interval around it.  `Binary64.shortest` takes the coarsest decimal grid
that has a point in that interval, and of two points the nearer one; all comparisons are exact.  `Binary64.text` lays
the digits out: in positions for magnitudes from 10^-5 up to below 10^16, with a power of ten otherwise.
-/
namespace Valgen

/-- **A decimal**: `digits * 10 ^ power`. -/
structure Decimal where
  digits : Nat
  power : Int
deriving DecidableEq, Repr

namespace Decimal

/-- **Compares `digits * 10 ^ power` with `n * 2 ^ e`.** -/
def compareBinary (d : Decimal) (n : Nat) (e : Int) : Ordering :=
  compare (d.digits * Nat.pow 10 d.power.toNat * Nat.pow 2 (-e).toNat)
    (n * Nat.pow 2 e.toNat * Nat.pow 10 (-d.power).toNat)

/-- **The decimal without zeros at its end**; `steps` bounds how many are dropped. -/
def strip : Nat → Decimal → Decimal
  | 0, d => d
  | steps + 1, d => if d.digits ≠ 0 ∧ d.digits % 10 = 0 then strip steps ⟨d.digits / 10, d.power + 1⟩ else d

end Decimal

namespace Binary64

/-- **Whether the value below is half as far away as the value above.** -/
def narrowBelow (x : Binary64) : Bool := x.mantissa == Nat.pow 2 52 && minExponent < x.exponent

/-- **Whether a decimal rounds to the magnitude of a float**, to nearest with halves to the even mantissa. -/
def readsBack (x : Binary64) (d : Decimal) : Bool :=
  let low := if x.narrowBelow then 4 * x.mantissa - 1 else 4 * x.mantissa - 2
  let high := 4 * x.mantissa + 2
  let closed := x.mantissa % 2 == 0
  let below := d.compareBinary low (x.exponent - 2)
  let above := d.compareBinary high (x.exponent - 2)
  (below == .gt || (closed && below == .eq)) && (above == .lt || (closed && above == .eq))

def quotient (x : Binary64) : Nat × Nat := (x.mantissa * Nat.pow 2 x.exponent.toNat, Nat.pow 2 (-x.exponent).toNat)

/-- **The magnitude in units of `10 ^ power`**, as a quotient. -/
def inUnits (x : Binary64) (power : Int) : Nat × Nat :=
  (x.quotient.1 * Nat.pow 10 (-power).toNat, x.quotient.2 * Nat.pow 10 power.toNat)

/-- **The least power of ten above a magnitude that is not zero.**  The estimate from the binary logarithm is at most
two below it. -/
def scale (x : Binary64) : Int :=
  let bits : Int := x.exponent + Nat.log2 x.mantissa
  let start : Int := (bits * 30103).fdiv 100000
  let above (k : Int) : Bool := (Decimal.mk 1 k).compareBinary x.mantissa x.exponent == .gt
  if above start then start else if above (start + 1) then start + 1 else start + 2

/-- **The point of the grid `10 ^ power` that reads back**, the nearer of two, on a tie the even one. -/
def onGrid (x : Binary64) (power : Int) : Option Decimal :=
  let (num, den) := x.inUnits power
  let lower := num / den
  let lowerHit := x.readsBack ⟨lower, power⟩
  let upperHit := x.readsBack ⟨lower + 1, power⟩
  if lowerHit && upperHit then some ⟨roundDiv num den, power⟩
  else if lowerHit then some ⟨lower, power⟩
  else if upperHit then some ⟨lower + 1, power⟩
  else none

def exact (x : Binary64) : Decimal :=
  if 0 ≤ x.exponent then ⟨x.quotient.1, 0⟩ else ⟨x.mantissa * Nat.pow 5 (-x.exponent).toNat, x.exponent⟩

/-- **The decimal of fewest digits that reads back**, without zeros at its end. -/
def shortest (x : Binary64) : Decimal :=
  let k := x.scale
  let found := (List.range 17).findSome? (fun (n : Nat) => x.onGrid (k - 1 - n))
  (found.getD x.exact).strip 400

/-- **The layout of a decimal whose digits are `ds`**, the first of them standing for `10 ^ lead`. -/
def layout (ds : List Char) (lead : Int) : List Char :=
  if lead < -5 ∨ 16 ≤ lead then
    let fraction := match ds.tail with
      | [] => []
      | more => '.' :: more
    let sign := if lead < 0 then '-' else '+'
    ds.take 1 ++ fraction ++ 'e' :: sign :: Nat.toDigits 10 lead.natAbs
  else if lead < 0 then
    '0' :: '.' :: (List.replicate (lead.natAbs - 1) '0' ++ ds)
  else
    let whole := lead.toNat + 1
    if ds.length ≤ whole then ds ++ List.replicate (whole - ds.length) '0' ++ ['.', '0']
    else ds.take whole ++ '.' :: ds.drop whole

def text (x : Binary64) : String :=
  let magnitude :=
    if x.mantissa = 0 then ['0', '.', '0']
    else
      let d := x.shortest
      let ds := Nat.toDigits 10 d.digits
      layout ds (d.power + ds.length - 1)
  String.ofList (if x.negative then '-' :: magnitude else magnitude)

end Binary64
end Valgen
