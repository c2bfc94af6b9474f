import Telemetry.Decimal.Fixed
/-!
# Doubles with six significant digits

The rendering of a double that is hashed. It is put together from two standard notations. The
scientific one with five places tells the exponent after rounding to six significant digits. For
exponents from `-4` to `5` the text is the positional notation with as many places as make six
significant digits, and for all others it is the scientific notation with a signed exponent of at
least two digits. In both forms no zero ends the fraction.

## Design notes

Both notations round the exact value, ties to even, and each of them rounds on its own. The
exponent is read back from the text of the first one, so it knows of a carry into the next decade
before the number of places of the second one is chosen.
-/

namespace Telemetry.Binary64

/-! ### Standard notations -/

/-- A magnitude of six significant digits, `coefficient * 10 ^ (exponent - 5)`. -/
structure SixDigits where
  coefficient : Nat
  exponent : Int
deriving DecidableEq, Repr

/-- The magnitude of a finite double, rounded to six significant digits. A coefficient that rounds
  up to seven digits moves into the next decade. -/
def sixDigits (x : Binary64) : SixDigits :=
  if x.IsZero then ⟨0, 0⟩
  else
    let e := Decimal.leadingExponent x.numerator x.denominator
    let d := Decimal.roundScaled x.numerator x.denominator (5 - e)
    if d = 10 ^ 6 then ⟨10 ^ 5, e + 1⟩ else ⟨d, e⟩

/-- A finite double in scientific notation: a digit, five more behind a point, and an exponent. -/
def scientificText (x : Binary64) : List Char :=
  Decimal.sign x.negative ++
    (Decimal.positional 5 x.sixDigits.coefficient ++ 'e' :: Decimal.integer x.sixDigits.exponent)

/-- A finite double in positional notation, with the given number of places. -/
def positionalText (places : Nat) (x : Binary64) : List Char :=
  Decimal.sign x.negative ++
    Decimal.positional places (Decimal.roundScaled x.numerator x.denominator places)

/-! ### The rendering -/

/-- The mantissa and the exponent of a text in scientific notation, if the exponent can be read and
  fits 32 bits. -/
def splitExponent? (text : List Char) : Option (List Char × Int) :=
  match text.dropWhile (· ≠ 'e') with
  | [] => none
  | _ :: exponent => do
    let e ← Decimal.integer? exponent
    if -2 ^ 31 ≤ e ∧ e < 2 ^ 31 then return (text.takeWhile (· ≠ 'e'), e) else none

/-- The digits of an exponent, two at least. -/
def exponentDigits (e : Int) : List Char :=
  (Nat.toDigits 10 e.natAbs).leftpad 2 '0'

/-- The rendering of a double with six significant digits, chunk by chunk. A text without a legible
  exponent would be handed over as it is. -/
def generalChunks (x : Binary64) : List (List Char) :=
  if ¬ x.IsFinite then [x.nonFiniteText]
  else
    match splitExponent? x.scientificText with
    | none => [x.scientificText]
    | some (mantissa, e) =>
      if e < -4 ∨ 6 ≤ e then
        [Decimal.trimFraction mantissa, ['e', if e < 0 then '-' else '+'], exponentDigits e]
      else [Decimal.trimFraction (x.positionalText (5 - e).toNat)]

/-- The whole rendering with six significant digits. -/
def generalText (x : Binary64) : List Char :=
  x.generalChunks.flatten

end Telemetry.Binary64
