import Telemetry.Binary64
import Telemetry.Decimal.Digits
import Telemetry.Decimal.Rounding
/-!
# Doubles with six decimal places

The text of a double: its exact value rounded to six places, ties to even. The sign is that of
the pattern, so a negative zero and a negative number that rounds to zero keep their minus.
-/

namespace Telemetry.Binary64

/-- The word for an infinity or a NaN, behind its sign. -/
def nonFiniteText (x : Binary64) : List Char :=
  Decimal.sign x.negative ++ if x.IsNaN then ['n', 'a', 'n'] else ['i', 'n', 'f']

/-- The millionths of the magnitude, rounded to nearest with ties to even. -/
def millionths (x : Binary64) : Nat :=
  Decimal.roundScaled x.numerator x.denominator 6

/-- The double in positional form with six digits after the point. -/
def fixedText (x : Binary64) : List Char :=
  if x.IsFinite then Decimal.sign x.negative ++ Decimal.positional 6 x.millionths
  else x.nonFiniteText

end Telemetry.Binary64
