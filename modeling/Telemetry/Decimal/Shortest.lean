import Telemetry.Decimal.Nearest
/-!
# The shortest decimal of a double

The decimal with the fewest digits to which a given double is the nearest one, and of several
equally short ones the one closest to it; of two equally close ones the one with the even last
digit.

## Design notes

A candidate reads back when the double is the nearest one to it, and this is asked of
`Binary64.nearest?` itself, so what is selected reads back by construction. On each grid only the
two points around the value have to be tried: whenever any point of the grid reads back, one of
these two does. Seventeen digits always suffice; the exact value stands behind the search as its
last resort.
-/

namespace Telemetry.Decimal

/-- The same number without zeros at the end of its coefficient. -/
def reduce (d : Decimal) : Decimal :=
  if d.coefficient ≠ 0 ∧ d.coefficient % 10 = 0 then
    reduce ⟨d.coefficient / 10, d.exponent + 1⟩
  else d
termination_by d.coefficient
decreasing_by omega

end Telemetry.Decimal

namespace Telemetry.Binary64

/-- The two points around the magnitude on the grid of step `10 ^ e`, the closer one first. -/
def neighbours (x : Binary64) (e : Int) : List Decimal :=
  -- The magnitude lies between `below` and the next point, or on `below` itself.
  let below := x.numerator * 10 ^ (-e).toNat / (x.denominator * 10 ^ e.toNat)
  let closer := Decimal.roundScaled x.numerator x.denominator (-e)
  [⟨closer, e⟩, ⟨if closer = below then below + 1 else below, e⟩]

/-- The exact value of a finite double. Every power of a half is a decimal. -/
def exactDecimal (x : Binary64) : Decimal :=
  if x.scale < 0 then ⟨x.significand * 5 ^ (-x.scale).toNat, x.scale⟩
  else ⟨x.significand * 2 ^ x.scale.toNat, 0⟩

/-- A decimal reads back when the double is the nearest one to it under its own sign. -/
abbrev ReadsBack (x : Binary64) (d : Decimal) : Prop := nearest? x.negative d = some x

/-- The first decimal that reads back on the grids of one digit, two digits and so on. -/
def search (x : Binary64) : Option Decimal :=
  let e := Decimal.leadingExponent x.numerator x.denominator
  (List.range 17).findSome? fun (n : Nat) => (x.neighbours (e - n)).find? fun d => x.ReadsBack d

/-- The decimal with the fewest digits that reads back. The exact value is the last resort of the
  search. -/
def shortest (x : Binary64) : Decimal :=
  (x.search.getD x.exactDecimal).reduce

end Telemetry.Binary64
