import Mathlib.Algebra.Order.Ring.Pow
import Mathlib.Tactic.IntervalCases
import Telemetry.Proofs.Binary64.Nearest
/-!
# Numbers that differ by a few roundings

A rounding changes a number by a factor that is close to one. Two numbers are close to each other
when a few such factors lie between them. Products and quotients of close numbers are close, and
close numbers round to places that are close.
-/

namespace Telemetry.Binary64

/-- The factor by which a rounding changes a number at most. -/
def growth : ℚ := 1 + 1 / 2 ^ 53

/-- A few roundings upwards do not make a number smaller. -/
theorem one_le_growth_pow (n : ℕ) : 1 ≤ growth ^ n :=
  one_le_pow₀ (by norm_num [growth])

theorem growth_pow_pos (n : ℕ) : 0 < growth ^ n := zero_lt_one.trans_le (one_le_growth_pow n)

variable {a b c d v w : ℚ} {m n s r : ℕ}

/-- Two positive numbers differ by `n` roundings at most. -/
structure CloseTo (n : ℕ) (a b : ℚ) : Prop where
  pos : 0 < a
  le : a ≤ b * growth ^ n
  ge : b ≤ a * growth ^ n

namespace CloseTo

/-- What is close to a number is positive as well. -/
theorem pos_right (h : CloseTo n a b) : 0 < b :=
  pos_of_mul_pos_left (h.pos.trans_le h.le) (growth_pow_pos n).le

theorem symm (h : CloseTo n a b) : CloseTo n b a := ⟨h.pos_right, h.ge, h.le⟩

/-- The roundings on a way add up. -/
theorem trans (hab : CloseTo m a b) (hbc : CloseTo n b c) : CloseTo (m + n) a c := by
  have hm := (growth_pow_pos m).le
  have hn := (growth_pow_pos n).le
  refine ⟨hab.pos, ?_, ?_⟩
  · calc
      a ≤ b * growth ^ m := hab.le
      _ ≤ c * growth ^ n * growth ^ m := mul_le_mul_of_nonneg_right hbc.le hm
      _ = c * growth ^ (m + n) := by rw [pow_add, mul_assoc, mul_comm (growth ^ n)]
  · calc
      c ≤ b * growth ^ n := hbc.ge
      _ ≤ a * growth ^ m * growth ^ n := mul_le_mul_of_nonneg_right hab.ge hn
      _ = a * growth ^ (m + n) := by rw [pow_add, mul_assoc]

/-- Products of close numbers are close. -/
theorem mul (hab : CloseTo m a b) (hcd : CloseTo n c d) : CloseTo (m + n) (a * c) (b * d) := by
  have hm := (growth_pow_pos m).le
  refine ⟨mul_pos hab.pos hcd.pos, ?_, ?_⟩
  · refine (mul_le_mul hab.le hcd.le hcd.pos.le (mul_nonneg hab.pos_right.le hm)).trans_eq ?_
    rw [pow_add, mul_mul_mul_comm]
  · refine (mul_le_mul hab.ge hcd.ge hcd.pos_right.le (mul_nonneg hab.pos.le hm)).trans_eq ?_
    rw [pow_add, mul_mul_mul_comm]

/-- Closeness survives the inverse. -/
theorem inv (h : CloseTo n a b) : CloseTo n a⁻¹ b⁻¹ := by
  have ha := h.pos
  have hb := h.pos_right
  refine ⟨inv_pos.2 ha, ?_, ?_⟩
  · rw [← div_eq_inv_mul, le_div_iff₀ hb, ← div_eq_inv_mul, div_le_iff₀ ha, mul_comm]
    exact h.ge
  · rw [← div_eq_inv_mul, le_div_iff₀ ha, ← div_eq_inv_mul, div_le_iff₀ hb, mul_comm]
    exact h.le

/-- Quotients of close numbers are close. -/
theorem div (hab : CloseTo m a b) (hcd : CloseTo n c d) : CloseTo (m + n) (a / c) (b / d) := by
  rw [div_eq_mul_inv, div_eq_mul_inv]
  exact hab.mul hcd.inv

end CloseTo

/-- A number of at least `q` least units differs from the one it rounds to by `m` roundings, where
  `q * m` is half of a full count. -/
theorem closeTo_place {q : ℕ} (hqm : q * m = 2 ^ 52) (hv : q * unit 0 ≤ v) :
    CloseTo m (magnitudeAt (place v)) v := by
  have hqpos : 0 < q := Nat.pos_of_mul_pos_right (hqm.trans_gt (by norm_num))
  have hmpos : 0 < m := Nat.pos_of_mul_pos_left (hqm.trans_gt (by norm_num))
  have hqm' : (q : ℚ) * m = 2 ^ 52 := by exact_mod_cast hqm
  have hm : (1 : ℚ) ≤ m := by exact_mod_cast hmpos
  have hunit := unit_pos 0
  have hvpos : 0 < v := (mul_pos (by exact_mod_cast hqpos) hunit).trans_le hv
  obtain ⟨s, r, hk, h⟩ := roundsToPlace_place hvpos.le
  have hpos := unit_pos s
  -- Both the number and its count are long enough for half a unit to be `m` roundings.
  have hlong : 2 ^ 52 * unit s ≤ m * v ∧ 2 ^ 52 ≤ (m : ℚ) * r := by
    by_cases hs : s = 0
    · subst hs
      have hqr : q ≤ r := by
        refine (Decimal.RoundsTo.natCast q).mono h.rounds ?_
        rwa [le_div_iff₀ hunit]
      have hqr' : (q : ℚ) ≤ r := by exact_mod_cast hqr
      refine ⟨?_, ?_⟩
      · rw [← hqm', mul_comm (q : ℚ), mul_assoc]
        exact mul_le_mul_of_nonneg_left hv (by positivity)
      · rw [← hqm', mul_comm (q : ℚ)]
        exact mul_le_mul_of_nonneg_left hqr' (by positivity)
    · have hr : (2 ^ 52 : ℚ) ≤ r := by exact_mod_cast h.half_full_le hs
      have hnormal := h.normal.resolve_left hs
      exact ⟨hnormal.trans (le_mul_of_one_le_left hvpos.le hm),
        hr.trans (le_mul_of_one_le_left (by positivity) hm)⟩
  have hbernoulli : 1 + (m : ℚ) * (1 / 2 ^ 53) ≤ growth ^ m :=
    one_add_mul_le_pow (by norm_num) m
  have herror := abs_le.1 h.abs_sub_le
  have hrpos : (0 : ℚ) < r := by
    have hprod : (0 : ℚ) < m * r := lt_of_lt_of_le (by norm_num) hlong.2
    exact pos_of_mul_pos_right hprod (by positivity)
  rw [hk, h.counts.magnitudeAt_eq]
  refine ⟨mul_pos hrpos hpos, ?_, ?_⟩
  · have := mul_le_mul_of_nonneg_left hbernoulli hvpos.le
    linarith [herror.1, hlong.1]
  · have := mul_le_mul_of_nonneg_left hbernoulli (mul_pos hrpos hpos).le
    have hlong' := mul_le_mul_of_nonneg_right hlong.2 hpos.le
    linarith [herror.2]

/-- A few roundings amount to little more than the sum of the single ones. -/
theorem growth_pow_le (hn : n ≤ 8) : growth ^ n ≤ 1 + (n + 1 / 2) / 2 ^ 53 := by
  interval_cases n <;> norm_num [growth]

/-- Numbers that differ by a few roundings round to places that differ little more. -/
theorem CloseTo.place_le (h : CloseTo n v w) (hn : n ≤ 8) : place v ≤ place w + (n + 1) := by
  have hw := h.pos_right
  obtain ⟨s, r, hk, hrounds⟩ := roundsToPlace_place hw.le
  have hpos := unit_pos s
  have hgrown : v ≤ (r + (n + 1 : ℕ)) * unit s := by
    have hmul := mul_le_mul_of_nonneg_left (growth_pow_le hn) hw.le
    have hfull : w * ((n + 1 / 2) / 2 ^ 53) ≤ 2 ^ 53 * unit s * ((n + 1 / 2) / 2 ^ 53) :=
      mul_le_mul_of_nonneg_right hrounds.lt.le (by positivity)
    have herror := (abs_le.1 hrounds.abs_sub_le).2
    have hle := h.le
    push_cast
    linarith
  rw [hk]
  exact place_le_of_le_magnitudeAt h.pos.le (hgrown.trans (hrounds.counts.add_mul_unit_le _))

end Telemetry.Binary64
