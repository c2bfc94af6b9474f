import Mathlib.Algebra.Order.Field.Power
import Telemetry.Decimal.Scaled
import Telemetry.Decimal.Shortest
import Telemetry.Proofs.Decimal.Rounding
/-!
# The value of a decimal

A decimal stands for a rational number, and leaving out trailing zeros keeps that number.
-/

namespace Telemetry.Decimal

/-- The number for which a decimal stands. -/
def value (d : Decimal) : ℚ := d.coefficient * 10 ^ d.exponent

variable {d : Decimal}

theorem value_nonneg (d : Decimal) : 0 ≤ d.value := by
  rw [value]
  positivity

theorem value_eq_zero (h : d.coefficient = 0) : d.value = 0 := by
  rw [value, h, Nat.cast_zero, zero_mul]

/-- A comparison of powers holds among rationals if it holds among naturals. -/
theorem two_pow_le_ten_pow {m n : ℕ} (h : 2 ^ m ≤ 10 ^ n) : (2 : ℚ) ^ m ≤ 10 ^ n := by
  exact_mod_cast h

/-- The number of its digits puts a decimal between two powers of ten next to each other. -/
theorem value_bounds (h : d.coefficient ≠ 0) :
    (10 : ℚ) ^ (digitCount d.coefficient - 1 + d.exponent) ≤ d.value ∧
      d.value < 10 ^ (digitCount d.coefficient + d.exponent) := by
  have hten : (10 : ℚ) ≠ 0 := by norm_num
  have hpos : (0 : ℚ) < 10 ^ d.exponent := by positivity
  have hcount := digitCount_pos d.coefficient
  have hlow : (10 : ℚ) ^ (digitCount d.coefficient - 1) ≤ d.coefficient := by
    exact_mod_cast pow_digitCount_sub_one_le (Nat.pos_of_ne_zero h)
  have hhigh : (d.coefficient : ℚ) < 10 ^ digitCount d.coefficient := by
    exact_mod_cast lt_pow_digitCount d.coefficient
  rw [value, zpow_add₀ hten, zpow_add₀ hten, zpow_natCast,
    ← Nat.cast_one, ← Nat.cast_sub hcount, zpow_natCast]
  exact ⟨mul_le_mul_of_nonneg_right hlow hpos.le, mul_lt_mul_of_pos_right hhigh hpos⟩

/-- A zero at the end may go into the exponent. -/
theorem value_div_ten_of_dvd (h : d.coefficient % 10 = 0) :
    value ⟨d.coefficient / 10, d.exponent + 1⟩ = d.value := by
  have hdiv : ((d.coefficient / 10 : ℕ) : ℚ) * 10 = d.coefficient := by
    exact_mod_cast Nat.div_mul_cancel (Nat.dvd_of_mod_eq_zero h)
  rw [value, value, zpow_add_one₀ (by norm_num), mul_comm (10 ^ d.exponent), ← mul_assoc, hdiv]

/-- All of them may. -/
theorem value_reduce (d : Decimal) : d.reduce.value = d.value := by
  induction d using reduce.induct with
  | case1 d h ih =>
    rw [reduce, if_pos h, ih, value_div_ten_of_dvd h.2]
  | case2 d h => rw [reduce, if_neg h]

/-- Without its trailing zeros a decimal has no greater coefficient and no lower exponent. -/
theorem reduce_bounds (d : Decimal) :
    d.reduce.coefficient ≤ d.coefficient ∧ d.exponent ≤ d.reduce.exponent := by
  induction d using reduce.induct with
  | case1 d h ih =>
    rw [reduce, if_pos h]
    exact ⟨ih.1.trans (Nat.div_le_self _ _), (Int.le_add_one le_rfl).trans ih.2⟩
  | case2 d h =>
    rw [reduce, if_neg h]
    exact ⟨le_rfl, le_rfl⟩

/-- A coefficient that fits a word loses no digit. -/
theorem fitWord_of_lt (h : d.coefficient < 2 ^ 64) : d.fitWord = d := by
  rw [fitWord, if_pos h]

end Telemetry.Decimal
