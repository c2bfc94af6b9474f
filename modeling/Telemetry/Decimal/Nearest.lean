import Telemetry.Binary64
import Telemetry.Decimal.Rounding
/-!
# The double nearest to a decimal

The finite double nearest to the exact value of a decimal, and of two equally near ones the one
with the even significand. A value that rounds beyond the greatest finite double has none.

## Design notes

The exact value of a decimal with a huge exponent is never formed. A number whose first digit has
an exponent of `310` or more overflows, and one whose first digit has an exponent below `-330` is
less than half of the least positive double.
-/

namespace Telemetry.Binary64

/-- The exponent of the leading bit of `num / den`, both being positive. -/
def leadingBit (num den : Nat) : Int :=
  if den ≤ num then (num / den).log2
  else -(((den - 1) / num).log2 + 1)

/-- The place of the magnitude nearest to `num / den`, both being positive: the quotient is
  counted in units of the last place and rounded once, and a count that carries moves on to the
  next exponent by addition. -/
def nearestIndex (num den : Nat) : Nat :=
  -- The exponent of the last bit that is kept. All subnormal magnitudes share the least one.
  let q := max (leadingBit num den - 52) (-1074)
  (q + 1074).toNat * 2 ^ 52 + Decimal.roundQuotient (num * 2 ^ (-q).toNat) (den * 2 ^ q.toNat)

/-- The double nearest to a decimal of the given sign, or `none` when it overflows. -/
def nearest? (negative : Bool) (d : Decimal) : Option Binary64 :=
  if d.coefficient = 0 then some (ofIndex negative 0)
  else
    -- The exponent of the first digit.
    let e := Decimal.digitCount d.coefficient - 1 + d.exponent
    if e < -330 then some (ofIndex negative 0)
    else if 310 ≤ e then none
    else
      let k := nearestIndex (d.coefficient * 10 ^ d.exponent.toNat) (10 ^ (-d.exponent).toNat)
      if k < infinityIndex then some (ofIndex negative k) else none

end Telemetry.Binary64
