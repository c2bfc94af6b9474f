import Telemetry.Decimal.Nearest
/-!
# Decimals in double arithmetic

A way from a decimal to a double that takes a handful of operations and no long integers: digits
that do not fit a word of 64 bits are left out, the coefficient is rounded to a double, and a
power of ten scales it. Each operation rounds to nearest with ties to even, so the result lies
close to the decimal without always being the double nearest to it.

## Design notes

Powers of ten are finite up to the exponent `308`. A greater exponent overflows every magnitude
from one upwards, and an exponent below `-308` is taken in portions, with a rounding after each of
them. After a few portions nothing but zero is left, whatever the exponent.
-/

namespace Telemetry.Decimal

/-- The decimal without so many of its last digits that its coefficient fits a word of 64 bits. -/
def fitWord (d : Decimal) : Decimal :=
  if d.coefficient < 2 ^ 64 then d
  else fitWord ⟨d.coefficient / 10, d.exponent + 1⟩
termination_by d.coefficient
decreasing_by omega

end Telemetry.Decimal

namespace Telemetry.Binary64

/-! ### Arithmetic on magnitudes -/

/-- The positive infinity. -/
def infinity : Binary64 := ofIndex false infinityIndex

/-- The magnitude nearest to `num / den`, or infinity where that is too large. -/
def ofQuotient (num den : Nat) : Binary64 :=
  if num = 0 then ofIndex false 0
  else ofIndex false (min (nearestIndex num den) infinityIndex)

/-- The product of two magnitudes, rounded once. -/
def times (x y : Binary64) : Binary64 :=
  ofQuotient (x.numerator * y.numerator) (x.denominator * y.denominator)

/-- The quotient of two magnitudes, rounded once. -/
def dividedBy (x y : Binary64) : Binary64 :=
  ofQuotient (x.numerator * y.denominator) (x.denominator * y.numerator)

/-- The double nearest to a power of ten. -/
def tenPower (k : Nat) : Binary64 := ofQuotient (10 ^ k) 1

/-! ### Scaling -/

/-- A magnitude divided by `10 ^ 308` several times. A zero is left alone. -/
def overPortions : Nat → Binary64 → Binary64
  | 0, x => x
  | n + 1, x => if x.IsZero then x else overPortions n (x.dividedBy (tenPower 308))

/-- A magnitude times `10 ^ e`. A negative exponent divides, in portions of `308` and by what is
  left in the end. -/
def scaleByTen (x : Binary64) (e : Int) : Binary64 :=
  if x.IsZero then x
  else if 308 < e then infinity
  else if 0 ≤ e then x.times (tenPower e.toNat)
  else
    -- The last portion is never empty.
    let k := e.natAbs - 1
    (overPortions (k / 308) x).dividedBy (tenPower (k % 308 + 1))

/-- The double of a signed decimal, or `none` when it overflows. -/
def scaled? (negative : Bool) (d : Decimal) : Option Binary64 :=
  let x := scaleByTen (ofQuotient d.coefficient 1) d.exponent
  if x.IsFinite then some { x with negative } else none

end Telemetry.Binary64
