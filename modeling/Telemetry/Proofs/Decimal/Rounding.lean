import Mathlib.Algebra.Order.Field.Rat
import Mathlib.Tactic.FieldSimp
import Mathlib.Tactic.Linarith
import Mathlib.Tactic.Positivity
import Mathlib.Tactic.Ring
import Telemetry.Decimal.Rounding
/-!
# Laws of rounding

Rounding is specified on rational numbers: an integer at distance of at most one half, which is
even if the distance is exactly that. There is one such integer, it is the nearest one, and it
grows with the number that is rounded.
-/

namespace Telemetry.Decimal

/-! ### Rounding to an integer -/

/-- A number rounds to the integer nearest to it, and of two equally near ones to the even one. -/
def RoundsTo (v : ℚ) (n : ℕ) : Prop :=
  |v - n| ≤ 1 / 2 ∧ (|v - n| = 1 / 2 → Even n)

namespace RoundsTo

variable {v w : ℚ} {m n : ℕ}

/-- A number is at most half above what it rounds to. -/
theorem le_add_half (h : RoundsTo v n) : v ≤ n + 1 / 2 := by
  have := (abs_le.1 h.1).2
  linarith

/-- A number is at most half below what it rounds to. -/
theorem sub_half_le (h : RoundsTo v n) : (n : ℚ) - 1 / 2 ≤ v := by
  have := (abs_le.1 h.1).1
  linarith

/-- Rounding is monotone. -/
theorem mono (hv : RoundsTo v m) (hw : RoundsTo w n) (hvw : v ≤ w) : m ≤ n := by
  by_contra hlt
  have hsucc : (n : ℚ) + 1 ≤ m := by exact_mod_cast Nat.lt_of_not_le hlt
  have hlow := hv.sub_half_le
  have hhigh := hw.le_add_half
  -- Everything in between is an equality, so both numbers are the same tie.
  have hm : (m : ℚ) = n + 1 := by linarith
  have hv' : v - m = -(1 / 2) := by linarith
  have hw' : w - n = 1 / 2 := by linarith
  have hmEven : Even m := hv.2 (by rw [hv', abs_neg, abs_of_pos (by norm_num)])
  have hnEven : Even n := hw.2 (by rw [hw', abs_of_pos (by norm_num)])
  have hmn : m = n + 1 := by exact_mod_cast hm
  rw [hmn, Nat.even_add_one] at hmEven
  exact hmEven hnEven

/-- A number rounds to one integer. -/
theorem unique (hm : RoundsTo v m) (hn : RoundsTo v n) : m = n :=
  le_antisymm (hm.mono hn le_rfl) (hn.mono hm le_rfl)

theorem natCast (n : ℕ) : RoundsTo n n := by
  constructor
  · rw [sub_self, abs_zero]
    norm_num
  · intro h
    rw [sub_self, abs_zero] at h
    norm_num at h

/-- No integer is nearer to a number than the one to which it rounds. -/
theorem abs_sub_le_abs_sub (h : RoundsTo v n) (j : ℤ) : |v - n| ≤ |v - j| := by
  by_cases hj : (n : ℤ) = j
  · rw [← hj, Int.cast_natCast]
  · have hone : (1 : ℚ) ≤ |(n : ℚ) - j| := by
      have hint : (1 : ℤ) ≤ |(n : ℤ) - j| := Int.one_le_abs (sub_ne_zero.2 hj)
      exact_mod_cast hint
    have htriangle : |(n : ℚ) - j| ≤ |v - n| + |v - j| := by
      rw [abs_sub_comm v n]
      exact abs_sub_le _ v _
    have hhalf := h.1
    linarith

end RoundsTo

/-! ### Quotients -/

/-- The defining property of the rounded quotient, without division. -/
theorem roundQuotient_bounds (num : ℕ) {den : ℕ} (hden : 0 < den) :
    2 * num ≤ (2 * roundQuotient num den + 1) * den ∧
      2 * roundQuotient num den * den ≤ 2 * num + den ∧
      (2 * num = (2 * roundQuotient num den + 1) * den ∨
        2 * roundQuotient num den * den = 2 * num + den → Even (roundQuotient num den)) := by
  -- With the quotient and the remainder as variables, all that is left is linear arithmetic.
  have hdiv : den * (num / den) + num % den = num := Nat.div_add_mod num den
  have hmod : num % den < den := Nat.mod_lt num hden
  rw [roundQuotient]
  generalize num / den = q at hdiv ⊢
  generalize num % den = r at hdiv hmod ⊢
  have hq : (2 * q + 1) * den = 2 * (den * q) + den := by ring
  have hq' : 2 * q * den = 2 * (den * q) := by ring
  have hs : (2 * (q + 1) + 1) * den = 2 * (den * q) + 3 * den := by ring
  have hs' : 2 * (q + 1) * den = 2 * (den * q) + 2 * den := by ring
  split
  · exact ⟨by omega, by omega, fun h => by omega⟩
  · split
    · exact ⟨by omega, by omega, fun h => by omega⟩
    · -- At a tie the parity of the quotient decides.
      rcases Nat.mod_two_eq_zero_or_one q with hpar | hpar
      · rw [hpar, add_zero]
        exact ⟨by omega, by omega, fun _ => Nat.even_iff.2 hpar⟩
      · rw [hpar]
        exact ⟨by omega, by omega, fun _ => Nat.even_iff.2 (by omega)⟩

/-- Quotients are rounded to nearest, ties to even. -/
theorem roundsTo_roundQuotient (num : ℕ) {den : ℕ} (hden : 0 < den) :
    RoundsTo ((num : ℚ) / den) (roundQuotient num den) := by
  obtain ⟨hhigh, hlow, heven⟩ := roundQuotient_bounds num hden
  generalize roundQuotient num den = n at hhigh hlow heven ⊢
  have hpos : (0 : ℚ) < den := by exact_mod_cast hden
  have hhigh' : 2 * (num : ℚ) ≤ (2 * n + 1) * den := by exact_mod_cast hhigh
  have hlow' : 2 * (n : ℚ) * den ≤ 2 * num + den := by exact_mod_cast hlow
  -- The bounds without division are those of the distance.
  have hle : (num : ℚ) / den ≤ n + 1 / 2 := by
    rw [div_le_iff₀ hpos]
    linarith
  have hge : (n : ℚ) - 1 / 2 ≤ num / den := by
    rw [le_div_iff₀ hpos]
    linarith
  refine ⟨abs_le.2 ⟨by linarith, by linarith⟩, fun htie => heven ?_⟩
  rcases (abs_eq (by norm_num)).1 htie with h | h
  · left
    have heq : (num : ℚ) / den = n + 1 / 2 := by linarith
    rw [div_eq_iff hpos.ne'] at heq
    have : 2 * (num : ℚ) = (2 * n + 1) * den := by linarith
    exact_mod_cast this
  · right
    have heq : (num : ℚ) / den = n - 1 / 2 := by linarith
    rw [div_eq_iff hpos.ne'] at heq
    have : 2 * (n : ℚ) * den = 2 * num + den := by linarith
    exact_mod_cast this

/-- A product and a quotient by powers of one base, one of which is trivial, are one power. -/
theorem mul_pow_div_mul_pow (num den b : ℕ) (hb : b ≠ 0) (e : ℤ) :
    ((num * b ^ e.toNat : ℕ) : ℚ) / ((den * b ^ (-e).toNat : ℕ) : ℚ) =
      (num : ℚ) / den * (b : ℚ) ^ e := by
  have hb' : (b : ℚ) ≠ 0 := by exact_mod_cast hb
  push_cast
  rcases le_total 0 e with he | he
  · obtain ⟨k, rfl⟩ := Int.eq_ofNat_of_zero_le he
    simp [mul_div_right_comm]
  · obtain ⟨k, rfl⟩ := Int.exists_eq_neg_ofNat he
    simp only [Int.toNat_neg_natCast, pow_zero, mul_one, neg_neg, Int.toNat_natCast, zpow_neg,
      zpow_natCast]
    rw [div_mul_eq_div_div, div_eq_mul_inv _ ((b : ℚ) ^ k)]

/-- Quotients that are scaled by a power of ten are rounded to nearest, ties to even. -/
theorem roundsTo_roundScaled (num : ℕ) {den : ℕ} (hden : 0 < den) (e : ℤ) :
    RoundsTo ((num : ℚ) / den * 10 ^ e) (roundScaled num den e) := by
  have hpos : 0 < den * 10 ^ (-e).toNat := by positivity
  have h := roundsTo_roundQuotient (num * 10 ^ e.toNat) hpos
  rw [mul_pow_div_mul_pow num den 10 (by norm_num)] at h
  exact_mod_cast h

/-! ### Leading digits -/

/-- A quotient from one on lies between the powers around its whole part. -/
theorem zpow_bounds_of_le {b num den l : ℕ} (hden : 0 < den) (hlow : b ^ l ≤ num / den)
    (hhigh : num / den < b ^ (l + 1)) :
    (b : ℚ) ^ (l : ℤ) ≤ num / den ∧ (num : ℚ) / den < (b : ℚ) ^ ((l : ℤ) + 1) := by
  have hpos : (0 : ℚ) < den := by exact_mod_cast hden
  rw [Nat.le_div_iff_mul_le hden] at hlow
  rw [Nat.div_lt_iff_lt_mul hden] at hhigh
  constructor
  · rw [le_div_iff₀ hpos, zpow_natCast]
    exact_mod_cast hlow
  · rw [div_lt_iff₀ hpos]
    exact_mod_cast hhigh

/-- A quotient below one lies between the powers around its inverse. -/
theorem zpow_bounds_of_lt {b num den l : ℕ} (hb : 0 < b) (hnum : 0 < num) (hlt : num < den)
    (hlow : b ^ l ≤ (den - 1) / num) (hhigh : (den - 1) / num < b ^ (l + 1)) :
    (b : ℚ) ^ (-((l : ℤ) + 1)) ≤ num / den ∧ (num : ℚ) / den < (b : ℚ) ^ (-(l : ℤ)) := by
  have hpos : (0 : ℚ) < den := by exact_mod_cast hnum.trans hlt
  have hb' : (0 : ℚ) < b := by exact_mod_cast hb
  -- The bounds are turned around by taking inverses.
  rw [Nat.le_div_iff_mul_le hnum] at hlow
  rw [Nat.div_lt_iff_lt_mul hnum] at hhigh
  have hden : den ≤ num * b ^ (l + 1) := by rw [Nat.mul_comm]; omega
  have hlow' : num * b ^ l < den := by rw [Nat.mul_comm]; omega
  constructor
  · rw [zpow_neg, inv_le_iff_one_le_mul₀ (zpow_pos hb' _), div_mul_eq_mul_div, le_div_iff₀ hpos,
      one_mul]
    exact_mod_cast hden
  · have hnum' : (0 : ℚ) < num := by exact_mod_cast hnum
    rw [zpow_neg, zpow_natCast, lt_inv_comm₀ (div_pos hnum' hpos) (pow_pos hb' _), inv_div,
      lt_div_iff₀ hnum', mul_comm]
    exact_mod_cast hlow'

theorem digitCount_pos (n : ℕ) : 0 < digitCount n := Nat.length_toDigits_pos

/-- A number is below the power of ten with as many zeros as it has digits. -/
theorem lt_pow_digitCount (n : ℕ) : n < 10 ^ digitCount n :=
  (Nat.length_toDigits_le_iff (by decide) (digitCount_pos n)).1 le_rfl

/-- A positive number is not below the power of ten before. -/
theorem pow_digitCount_sub_one_le {n : ℕ} (h : 0 < n) : 10 ^ (digitCount n - 1) ≤ n := by
  rcases Nat.eq_zero_or_pos (digitCount n - 1) with h0 | hpos
  · rw [h0, pow_zero]
    exact h
  · by_contra hlt
    have hle : digitCount n ≤ digitCount n - 1 :=
      (Nat.length_toDigits_le_iff (by decide) hpos).2 (Nat.lt_of_not_le hlt)
    omega

/-- A positive quotient has a nonzero digit at its leading exponent and none above. -/
theorem leadingExponent_bounds {num den : ℕ} (hnum : 0 < num) (hden : 0 < den) :
    (10 : ℚ) ^ leadingExponent num den ≤ num / den ∧
      (num : ℚ) / den < 10 ^ (leadingExponent num den + 1) := by
  rw [leadingExponent]
  split
  · -- The digits before the point are counted.
    next hle =>
    have hq : 0 < num / den := Nat.div_pos hle hden
    have hcount := digitCount_pos (num / den)
    have h := zpow_bounds_of_le (b := 10) (l := digitCount (num / den) - 1) hden
      (pow_digitCount_sub_one_le hq)
      (by rw [Nat.sub_add_cancel hcount]; exact lt_pow_digitCount _)
    rw [Nat.cast_sub hcount] at h
    exact_mod_cast h
  · -- Behind the point, the digits of the inverse are counted.
    next hgt =>
    have hlt : num < den := Nat.lt_of_not_le hgt
    have hq : 0 < (den - 1) / num := Nat.div_pos (by omega) hnum
    have hcount := digitCount_pos ((den - 1) / num)
    have h := zpow_bounds_of_lt (b := 10) (l := digitCount ((den - 1) / num) - 1) (by norm_num)
      hnum hlt (pow_digitCount_sub_one_le hq)
      (by rw [Nat.sub_add_cancel hcount]; exact lt_pow_digitCount _)
    have he : -(((digitCount ((den - 1) / num) - 1 : ℕ) : ℤ) + 1) =
        -(digitCount ((den - 1) / num) : ℤ) := by omega
    have he' : -((digitCount ((den - 1) / num) - 1 : ℕ) : ℤ) =
        -(digitCount ((den - 1) / num) : ℤ) + 1 := by omega
    rw [he, he'] at h
    exact_mod_cast h

end Telemetry.Decimal
