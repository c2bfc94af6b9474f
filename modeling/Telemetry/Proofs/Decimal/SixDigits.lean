import Telemetry.Decimal.General
import Telemetry.Proofs.Binary64.Shortest
/-!
# Rounding to six significant digits

A positive number rounds to a multiple of the unit of its sixth digit, counted from the leading
one. The multiple has six digits, or it is the least number with seven and moves into the next
decade. There the unit is ten times as large, and rounding to it gives the same number.
-/

namespace Telemetry

/-! ### The rounded number -/

namespace Decimal

variable {v r s : ℚ} {d e : ℤ} {n : ℕ}

/-- The number `r` is `v` rounded to six significant digits, ties to even. -/
def RoundsToSix (v r : ℚ) : Prop :=
  v = 0 ∧ r = 0 ∨
    ∃ (e : ℤ) (n : ℕ), 10 ^ e ≤ v ∧ v < 10 ^ (e + 1) ∧ RoundsTo (v * 10 ^ (5 - e)) n ∧
      r = n * 10 ^ (e - 5)

/-- Decades are ordered as the numbers in them. -/
theorem exponent_le_of_bounds (hd : 10 ^ d ≤ v) (he : v < 10 ^ (e + 1)) : d ≤ e := by
  have hlt := (zpow_lt_zpow_iff_right₀ (by norm_num : (1 : ℚ) < 10)).1 (hd.trans_lt he)
  omega

/-- A number has one rounding to six digits. -/
theorem RoundsToSix.unique (hr : RoundsToSix v r) (hs : RoundsToSix v s) : r = s := by
  have hzero {e : ℤ} (h : (10 : ℚ) ^ e ≤ 0) : False := absurd h (not_le.2 (by positivity))
  rcases hr with ⟨rfl, rfl⟩ | ⟨d, n, hlow, hhigh, hround, rfl⟩
  · rcases hs with ⟨-, rfl⟩ | ⟨e, m, hlow, -⟩
    · rfl
    · exact (hzero hlow).elim
  · rcases hs with ⟨rfl, -⟩ | ⟨e, m, hlow', hhigh', hround', rfl⟩
    · exact (hzero hlow).elim
    · obtain rfl := le_antisymm (exponent_le_of_bounds hlow hhigh')
        (exponent_le_of_bounds hlow' hhigh)
      rw [hround.unique hround']

/-- In the unit of its sixth digit a number has six digits before the point. -/
theorem scaled_bounds (hlow : 10 ^ e ≤ v) (hhigh : v < 10 ^ (e + 1)) :
    10 ^ 5 ≤ v * 10 ^ (5 - e) ∧ v * 10 ^ (5 - e) < 10 ^ 6 := by
  have hpos : (0 : ℚ) < 10 ^ (5 - e) := by positivity
  have hscaled (k : ℤ) : (10 : ℚ) ^ (e + k) * 10 ^ (5 - e) = 10 ^ (5 + k) := by
    rw [← zpow_add₀ (by norm_num)]
    ring_nf
  constructor
  · calc
      (10 : ℚ) ^ 5
      _ = 10 ^ e * 10 ^ (5 - e) := by
        have hunit := hscaled 0
        rw [add_zero, add_zero] at hunit
        exact_mod_cast hunit.symm
      _ ≤ v * 10 ^ (5 - e) := mul_le_mul_of_nonneg_right hlow hpos.le
  · calc
      v * 10 ^ (5 - e)
      _ < 10 ^ (e + 1) * 10 ^ (5 - e) := mul_lt_mul_of_pos_right hhigh hpos
      _ = 10 ^ 6 := by
        rw [hscaled 1]
        norm_num

/-- A number that is rounded to its sixth digit has six digits, or it is the least with seven. -/
theorem RoundsTo.sixth_digit_bounds (h : RoundsTo (v * 10 ^ (5 - e)) n) (hlow : 10 ^ e ≤ v)
    (hhigh : v < 10 ^ (e + 1)) : 10 ^ 5 ≤ n ∧ n ≤ 10 ^ 6 := by
  obtain ⟨hleast, hgreatest⟩ := scaled_bounds hlow hhigh
  constructor
  · exact (RoundsTo.natCast (10 ^ 5)).mono h (by exact_mod_cast hleast)
  · exact h.mono (RoundsTo.natCast (10 ^ 6)) (by exact_mod_cast hgreatest.le)

/-- A number that rounds up to a seventh digit rounds to the same number with a unit ten times as
  large. -/
theorem RoundsTo.div_ten (h : RoundsTo v (10 ^ 6)) (hv : v < 10 ^ 6) :
    RoundsTo (v / 10) (10 ^ 5) := by
  have hlow := h.sub_half_le
  push_cast at hlow
  have hclose : |v / 10 - ((10 ^ 5 : ℕ) : ℚ)| < 1 / 2 := by
    rw [abs_lt]
    push_cast
    constructor <;> linarith
  exact ⟨hclose.le, fun htie => absurd htie hclose.ne⟩

end Decimal

/-! ### Coefficients and exponents -/

namespace Binary64

open Decimal (RoundsTo RoundsToSix)

namespace SixDigits

variable {m n : SixDigits} {v : ℚ}

/-- The number for which a coefficient and an exponent stand. -/
def value (m : SixDigits) : ℚ := m.coefficient * 10 ^ (m.exponent - 5)

/-- The coefficient has six digits. -/
def Normal (m : SixDigits) : Prop := 10 ^ 5 ≤ m.coefficient ∧ m.coefficient < 10 ^ 6

/-- A coefficient of six digits puts the number in the decade of its exponent. -/
theorem Normal.value_bounds (h : m.Normal) :
    (10 : ℚ) ^ m.exponent ≤ m.value ∧ m.value < 10 ^ (m.exponent + 1) := by
  have hpos : (0 : ℚ) < 10 ^ (m.exponent - 5) := by positivity
  have hlow : (10 : ℚ) ^ 5 ≤ m.coefficient := by exact_mod_cast h.1
  have hhigh : (m.coefficient : ℚ) < 10 ^ 6 := by exact_mod_cast h.2
  have hsplit (k : ℕ) : (10 : ℚ) ^ (m.exponent - 5 + k) = 10 ^ k * 10 ^ (m.exponent - 5) := by
    rw [zpow_add₀ (by norm_num), zpow_natCast, mul_comm]
  constructor
  · rw [show m.exponent = m.exponent - 5 + (5 : ℕ) by push_cast; ring, hsplit, value]
    simpa using mul_le_mul_of_nonneg_right hlow hpos.le
  · rw [show m.exponent + 1 = m.exponent - 5 + (6 : ℕ) by push_cast; ring, hsplit, value]
    exact mul_lt_mul_of_pos_right hhigh hpos

/-- Numbers of six digits have one coefficient and one exponent. -/
theorem Normal.value_injective (hm : m.Normal) (hn : n.Normal) (h : m.value = n.value) :
    m = n := by
  obtain ⟨hlow, hhigh⟩ := hm.value_bounds
  obtain ⟨hlow', hhigh'⟩ := hn.value_bounds
  have hexponent : m.exponent = n.exponent :=
    le_antisymm (Decimal.exponent_le_of_bounds (h ▸ hlow) hhigh')
      (Decimal.exponent_le_of_bounds (h ▸ hlow') hhigh)
  rw [value, value, hexponent] at h
  have hcoefficient : (m.coefficient : ℚ) = n.coefficient :=
    mul_right_cancel₀ (by positivity : (10 : ℚ) ^ (n.exponent - 5) ≠ 0) h
  cases m
  cases n
  simp_all

/-- A coefficient of six digits and an exponent stand for a number rounded to six digits. -/
structure Rounds (m : SixDigits) (v : ℚ) : Prop where
  normal : m.Normal
  rounds : RoundsToSix v m.value

/-- A number rounds to one coefficient with one exponent. -/
theorem Rounds.unique (hm : m.Rounds v) (hn : n.Rounds v) : m = n :=
  hm.normal.value_injective hn.normal (hm.rounds.unique hn.rounds)

end SixDigits

/-! ### Doubles -/

variable {x : Binary64}

/-- Zero has the coefficient zero. -/
theorem sixDigits_of_isZero (hx : x.IsZero) : x.sixDigits = ⟨0, 0⟩ := if_pos hx

/-- What is known about the rounding of a double: its leading exponent, the integer to which the
  sixth digit rounds, and how they make up the coefficient and the exponent. -/
theorem exists_sixDigits (hx : ¬ x.IsZero) :
    ∃ (e : ℤ) (d : ℕ), -324 ≤ e ∧ 10 ^ e ≤ x.magnitude ∧ x.magnitude < 10 ^ (e + 1) ∧
      RoundsTo (x.magnitude * 10 ^ (5 - e)) d ∧ 10 ^ 5 ≤ d ∧
      (d < 10 ^ 6 ∧ x.sixDigits = ⟨d, e⟩ ∨ d = 10 ^ 6 ∧ x.sixDigits = ⟨10 ^ 5, e + 1⟩) := by
  obtain ⟨hlow, hhigh⟩ := Decimal.leadingExponent_bounds (numerator_pos hx) x.denominator_pos
  have hleast := neg_324_le_leadingExponent hx
  -- The definition is unfolded once, and then its parts are known by their properties only.
  have hdigits : x.sixDigits =
      if Decimal.roundScaled x.numerator x.denominator
          (5 - Decimal.leadingExponent x.numerator x.denominator) = 10 ^ 6
      then ⟨10 ^ 5, Decimal.leadingExponent x.numerator x.denominator + 1⟩
      else ⟨Decimal.roundScaled x.numerator x.denominator
        (5 - Decimal.leadingExponent x.numerator x.denominator),
        Decimal.leadingExponent x.numerator x.denominator⟩ := if_neg hx
  generalize Decimal.leadingExponent x.numerator x.denominator = e at *
  have hround := Decimal.roundsTo_roundScaled x.numerator x.denominator_pos (5 - e)
  generalize Decimal.roundScaled x.numerator x.denominator (5 - e) = d at *
  rw [← magnitude] at hlow hhigh hround
  obtain ⟨hge, hle⟩ := hround.sixth_digit_bounds hlow hhigh
  refine ⟨e, d, hleast, hlow, hhigh, hround, hge, ?_⟩
  rcases hle.lt_or_eq with hlt | heq
  · exact Or.inl ⟨hlt, by rw [hdigits, if_neg hlt.ne]⟩
  · exact Or.inr ⟨heq, by rw [hdigits, if_pos heq]⟩

/-- The coefficient and the exponent of a double are those to which its magnitude rounds. -/
theorem rounds_sixDigits (hx : ¬ x.IsZero) : x.sixDigits.Rounds x.magnitude := by
  obtain ⟨e, d, -, hlow, hhigh, hround, hge, ⟨hlt, hdigits⟩ | ⟨rfl, hdigits⟩⟩ := exists_sixDigits hx
  · rw [hdigits]
    exact ⟨⟨hge, hlt⟩, Or.inr ⟨e, d, hlow, hhigh, hround, rfl⟩⟩
  · rw [hdigits]
    refine ⟨⟨le_rfl, by norm_num⟩, Or.inr ⟨e, 10 ^ 6, hlow, hhigh, hround, ?_⟩⟩
    rw [SixDigits.value, show e + 1 - 5 = e - 5 + 1 by ring, zpow_add_one₀ (by norm_num)]
    push_cast
    ring

/-- Only zeros round to zero. -/
theorem sixDigits_value_eq_zero_iff : x.sixDigits.value = 0 ↔ x.IsZero := by
  constructor
  · intro hvalue
    by_contra hx
    have hpos := (zpow_pos (by norm_num) _).trans_le (rounds_sixDigits hx).normal.value_bounds.1
    exact hpos.ne' hvalue
  · intro hx
    rw [sixDigits_of_isZero hx, SixDigits.value, Nat.cast_zero, zero_mul]

/-- The magnitude of a double, zero or not, rounds to what its coefficient and its exponent stand
  for. -/
theorem roundsToSix_sixDigits (x : Binary64) : RoundsToSix x.magnitude x.sixDigits.value := by
  by_cases hx : x.IsZero
  · exact Or.inl ⟨magnitude_eq_zero_iff.2 hx, sixDigits_value_eq_zero_iff.2 hx⟩
  · exact (rounds_sixDigits hx).rounds

/-- Doubles that round to one number have the same coefficient and exponent. -/
theorem sixDigits_eq_of_value_eq {y : Binary64} (h : x.sixDigits.value = y.sixDigits.value) :
    x.sixDigits = y.sixDigits := by
  by_cases hx : x.IsZero
  · have hy : y.IsZero := by rwa [← sixDigits_value_eq_zero_iff, ← h, sixDigits_value_eq_zero_iff]
    rw [sixDigits_of_isZero hx, sixDigits_of_isZero hy]
  · have hy : ¬ y.IsZero := by rwa [← sixDigits_value_eq_zero_iff, ← h, sixDigits_value_eq_zero_iff]
    exact (rounds_sixDigits hx).normal.value_injective (rounds_sixDigits hy).normal h

/-- The digits of a second rounding, to the decimal places that the exponent asks for, are those of
  the first one, also if the first one has carried into the next decade. -/
theorem roundScaled_sixDigits (x : Binary64) :
    Decimal.roundScaled x.numerator x.denominator (5 - x.sixDigits.exponent) =
      x.sixDigits.coefficient := by
  have hagain :=
    Decimal.roundsTo_roundScaled x.numerator x.denominator_pos (5 - x.sixDigits.exponent)
  rw [← magnitude] at hagain
  refine hagain.unique ?_
  by_cases hx : x.IsZero
  · rw [sixDigits_of_isZero hx, magnitude_eq_zero_iff.2 hx, zero_mul]
    exact_mod_cast RoundsTo.natCast 0
  · obtain ⟨e, d, -, hlow, hhigh, hround, -, hcases⟩ := exists_sixDigits hx
    rcases hcases with ⟨-, hdigits⟩ | ⟨rfl, hdigits⟩
    · rw [hdigits]
      exact hround
    · -- A carry makes the unit ten times as large, and the rounded number is a multiple of it.
      have hlt := (Decimal.scaled_bounds hlow hhigh).2
      rw [hdigits]
      have hunit : x.magnitude * (10 : ℚ) ^ (5 - (e + 1)) = x.magnitude * 10 ^ (5 - e) / 10 := by
        rw [show 5 - (e + 1) = 5 - e - 1 by ring, zpow_sub_one₀ (by norm_num), ← mul_assoc,
          div_eq_mul_inv]
      rw [hunit]
      exact hround.div_ten hlt

/-- The exponents of the finite doubles, with room for a carry. -/
theorem exponent_sixDigits_bounds (hx : x.IsFinite) :
    -324 ≤ x.sixDigits.exponent ∧ x.sixDigits.exponent ≤ 309 := by
  by_cases hzero : x.IsZero
  · rw [sixDigits_of_isZero hzero]
    norm_num
  · obtain ⟨e, d, hleast, hlow, -, -, -, hdigits⟩ := exists_sixDigits hzero
    -- Finite doubles stay below the power of ten behind the greatest one.
    have hlt : x.magnitude < 10 ^ ((308 : ℤ) + 1) := by
      have hplace := magnitudeAt_strictMono (x.isFinite_iff_index_lt.1 hx)
      rw [magnitudeAt_infinityIndex, ← magnitude_eq_magnitudeAt] at hplace
      have hpow : (2 : ℚ) ^ 1024 ≤ 10 ^ 309 := Decimal.two_pow_le_ten_pow (by decide +kernel)
      rw [← zpow_natCast 10] at hpow
      exact hplace.trans_le hpow
    have hgreatest := Decimal.exponent_le_of_bounds hlow hlt
    rcases hdigits with ⟨-, h⟩ | ⟨-, h⟩
    · rw [h]
      constructor <;> dsimp only <;> omega
    · rw [h]
      constructor <;> dsimp only <;> omega

end Binary64

end Telemetry
