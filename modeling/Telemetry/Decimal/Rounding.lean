import Telemetry.Power
/-!
# Rounding a quotient to decimal digits

Every decimal rendering of an exact quotient of naturals starts here: find the exponent of its
leading digit, scale by a power of ten, and round once.
-/

namespace Telemetry

/-- A magnitude `coefficient * 10 ^ exponent`. -/
structure Decimal where
  coefficient : Nat
  exponent : Int
deriving DecidableEq, Repr

namespace Decimal

/-- The integer nearest to `num / den`, and of two equally near ones the even one. -/
def roundQuotient (num den : Nat) : Nat :=
  let q := num / den
  let r := num % den
  if 2 * r < den then q
  else if den < 2 * r then q + 1
  else q + q % 2

/-- The integer nearest to `num / den * 10 ^ e`, ties to even. -/
def roundScaled (num den : Nat) (e : Int) : Nat :=
  roundQuotient (num * 10 ^ e.toNat) (den * 10 ^ (-e).toNat)

/-- How many decimal digits `n` has. The number zero has one. -/
def digitCount (n : Nat) : Nat := (Nat.toDigits 10 n).length

/-- The exponent of the leading decimal digit of `num / den`, both being positive. -/
def leadingExponent (num den : Nat) : Int :=
  if den ≤ num then digitCount (num / den) - 1
  else -digitCount ((den - 1) / num)

end Decimal

end Telemetry
