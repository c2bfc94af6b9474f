import Telemetry.Power
/-!
# Double-precision numbers

A `Binary64` is one of the `2 ^ 64` patterns of the 64-bit binary interchange format, held by its
three fields. Two of them are equal as terms exactly when they agree bit for bit; numerical
comparison is `Binary64.same`.

## Design notes

Magnitudes are ordered as their indices: exponent and fraction read as one number. A rounding
that carries out of the fraction therefore lands on the right pattern by plain addition, and a
magnitude is too large exactly when its index reaches `Binary64.infinityIndex`.
-/

namespace Telemetry

/-- A 64-bit binary floating-point pattern: sign, biased exponent and trailing fraction. -/
structure Binary64 where
  negative : Bool
  /-- The biased exponent. Its greatest value marks the infinities and the NaNs. -/
  exponent : Fin (2 ^ 11)
  fraction : Fin (2 ^ 52)
deriving DecidableEq, Repr

namespace Binary64

/-! ### Words and places -/

/-- The place of the magnitude among all magnitudes in ascending order, zero being at `0`. -/
def index (x : Binary64) : Nat :=
  x.exponent * 2 ^ 52 + x.fraction

/-- The pattern with the given sign whose magnitude stands at place `k` below `2 ^ 63`. -/
def ofIndex (negative : Bool) (k : Nat) : Binary64 where
  negative := negative
  exponent := Fin.ofNat _ (k / 2 ^ 52)
  fraction := Fin.ofNat _ k

/-- The index of the infinities. Finite magnitudes stand before it, NaNs behind it. -/
def infinityIndex : Nat := 2047 * 2 ^ 52

/-- The pattern of a 64-bit word, whose uppermost bit is the sign. -/
def ofBits (word : UInt64) : Binary64 :=
  ofIndex (decide (2 ^ 63 ≤ word.toNat)) word.toNat

/-- The 64-bit word of a pattern. -/
def toBits (x : Binary64) : UInt64 :=
  UInt64.ofNat ((if x.negative then 2 ^ 63 else 0) + x.index)

/-! ### Classes of patterns -/

/-- Neither an infinity nor a NaN. -/
abbrev IsFinite (x : Binary64) : Prop := x.exponent.val ≠ 2047

/-- A pattern is a NaN when it stands for no number and for no infinity. -/
abbrev IsNaN (x : Binary64) : Prop := x.exponent.val = 2047 ∧ x.fraction.val ≠ 0

/-- One of the two zeros. -/
abbrev IsZero (x : Binary64) : Prop := x.index = 0

/-- Numerical equality: the two zeros agree, and a NaN differs from everything, itself included. -/
def same (x y : Binary64) : Bool :=
  decide (¬ x.IsNaN ∧ ¬ y.IsNaN ∧ (x = y ∨ x.IsZero ∧ y.IsZero))

/-! ### The exact magnitude -/

/-- The integral significand, with the implicit leading bit of a normal number. -/
def significand (x : Binary64) : Nat :=
  if x.exponent.val = 0 then x.fraction else 2 ^ 52 + x.fraction

/-- The binary exponent of a significand. Subnormal numbers share that of the least normal ones. -/
def scale (x : Binary64) : Int :=
  max x.exponent.val 1 - 1075

/-- The numerator of a finite magnitude as a quotient of naturals. -/
def numerator (x : Binary64) : Nat :=
  x.significand * 2 ^ x.scale.toNat

/-- The denominator of that quotient, a power of two. -/
def denominator (x : Binary64) : Nat :=
  2 ^ (-x.scale).toNat

end Binary64

end Telemetry
