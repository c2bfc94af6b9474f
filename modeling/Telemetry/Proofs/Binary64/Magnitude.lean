import Mathlib.Algebra.Order.Field.Power
import Mathlib.Algebra.Order.Field.Rat
import Mathlib.Order.Monotone.Basic
import Mathlib.Tactic.Linarith
import Mathlib.Tactic.Positivity
import Mathlib.Tactic.Ring
import Telemetry.Binary64
/-!
# Places and magnitudes

The magnitudes of doubles as rational numbers. They are counted in units of the last place, and
where the count is exhausted the unit doubles. The order of the places has no upper end here, so
that the overflow of a rounding is a matter of the place alone.
-/

namespace Telemetry.Binary64

/-! ### Units -/

/-- The unit of the last place of the magnitudes that are `s` doublings above the least ones. -/
def unit (s : ℕ) : ℚ := 2 ^ ((s : ℤ) - 1074)

theorem unit_pos (s : ℕ) : 0 < unit s := zpow_pos (by norm_num) _

/-- From one unit to a later one, powers of two are passed. -/
theorem unit_add (s d : ℕ) : unit (s + d) = 2 ^ d * unit s := by
  rw [unit, unit, ← zpow_natCast, ← zpow_add₀ (by norm_num)]
  push_cast
  ring_nf

theorem unit_succ (s : ℕ) : unit (s + 1) = 2 * unit s := by
  rw [unit_add, pow_one]

/-- Later units are larger. -/
theorem unit_strictMono : StrictMono unit := by
  apply strictMono_nat_of_lt_succ
  intro s
  have hpos := unit_pos s
  rw [unit_succ]
  linarith

theorem unit_mono : Monotone unit := unit_strictMono.monotone

/-! ### Places -/

variable {k s r : ℕ}

/-- The place `k` stands for `r` units of the last place. The count has its full width unless the
  unit is the least one. A full count may stand for the first one of the next unit. -/
structure Counts (k s r : ℕ) : Prop where
  place : k = s * 2 ^ 52 + r
  le : r ≤ 2 ^ 53
  normal : s = 0 ∨ 2 ^ 52 ≤ r

/-- The magnitude at a place. -/
def magnitudeAt (k : ℕ) : ℚ :=
  (k - (k / 2 ^ 52 - 1) * 2 ^ 52 : ℕ) * unit (k / 2 ^ 52 - 1)

/-- Every place counts a significand in some unit. -/
theorem exists_counts (k : ℕ) : ∃ s r, Counts k s r ∧ r < 2 ^ 53 := by
  refine ⟨k / 2 ^ 52 - 1, k - (k / 2 ^ 52 - 1) * 2 ^ 52, ⟨?_, ?_, ?_⟩, ?_⟩ <;> omega

/-- The magnitude at a place is its significand in its unit. -/
theorem Counts.magnitudeAt_eq (h : Counts k s r) : magnitudeAt k = r * unit s := by
  obtain ⟨rfl, hle, hnormal⟩ := h
  rw [magnitudeAt]
  by_cases hfull : r = 2 ^ 53
  · subst hfull
    rw [show (s * 2 ^ 52 + 2 ^ 53) / 2 ^ 52 - 1 = s + 1 by omega,
      show s * 2 ^ 52 + 2 ^ 53 - (s + 1) * 2 ^ 52 = 2 ^ 52 by omega, unit_succ]
    push_cast
    ring
  · rw [show (s * 2 ^ 52 + r) / 2 ^ 52 - 1 = s by omega, Nat.add_sub_cancel_left]

/-- The next place is one unit further. -/
theorem Counts.magnitudeAt_add_one (h : Counts k s r) (hr : r < 2 ^ 53) :
    magnitudeAt (k + 1) = magnitudeAt k + unit s := by
  have hnext : Counts (k + 1) s (r + 1) :=
    ⟨by rw [h.place, Nat.add_assoc], hr, h.normal.imp_right fun hn => hn.trans (Nat.le_succ r)⟩
  rw [h.magnitudeAt_eq, hnext.magnitudeAt_eq]
  push_cast
  ring

/-- Magnitudes are ordered as their places. -/
theorem magnitudeAt_strictMono : StrictMono magnitudeAt := by
  apply strictMono_nat_of_lt_succ
  intro k
  obtain ⟨s, r, hcounts, hr⟩ := exists_counts k
  have hpos := unit_pos s
  rw [hcounts.magnitudeAt_add_one hr]
  linarith

/-- A step from one place to the next one is a `2 ^ 53`-th part of the magnitude at least. -/
theorem magnitudeAt_add_one_le (k : ℕ) :
    magnitudeAt (k + 1) ≤ 2 ^ 53 * (magnitudeAt (k + 1) - magnitudeAt k) := by
  obtain ⟨s, r, hcounts, hr⟩ := exists_counts k
  have hr' : (r : ℚ) + 1 ≤ 2 ^ 53 := by exact_mod_cast hr
  have hmul := mul_le_mul_of_nonneg_right hr' (unit_pos s).le
  rw [hcounts.magnitudeAt_add_one hr, hcounts.magnitudeAt_eq]
  linarith

/-- Further places are at least as many units away, since units do not shrink. -/
theorem Counts.add_mul_unit_le (h : Counts k s r) (j : ℕ) :
    (r + j) * unit s ≤ magnitudeAt (k + j) := by
  induction j with
  | zero => rw [Nat.cast_zero, add_zero, Nat.add_zero, h.magnitudeAt_eq]
  | succ j ih =>
    obtain ⟨t, n, hcounts, hn⟩ := exists_counts (k + j)
    have hst : s ≤ t := by
      have hk := h.place
      have hkj := hcounts.place
      have hnormal := h.normal
      omega
    have hunit := unit_mono hst
    rw [← Nat.add_assoc, hcounts.magnitudeAt_add_one hn, Nat.cast_succ]
    linarith

theorem magnitudeAt_zero : magnitudeAt 0 = 0 := by
  have h : Counts 0 0 0 := ⟨rfl, by norm_num, .inl rfl⟩
  rw [h.magnitudeAt_eq, Nat.cast_zero, zero_mul]

/-! ### Patterns -/

/-- The magnitude of a pattern, read as if it were finite. -/
def magnitude (x : Binary64) : ℚ := x.numerator / x.denominator

theorem magnitude_nonneg (x : Binary64) : 0 ≤ x.magnitude := by
  rw [magnitude]
  positivity

/-- The index of a pattern counts its significand in the unit of its exponent. -/
theorem counts_index (x : Binary64) : Counts x.index (x.exponent - 1) x.significand := by
  have hfraction := x.fraction.isLt
  rw [significand, index]
  split
  · exact ⟨by omega, by omega, .inl (by omega)⟩
  · exact ⟨by omega, by omega, .inr (by omega)⟩

/-- A pattern has the magnitude of its place. -/
theorem magnitude_eq_magnitudeAt (x : Binary64) : x.magnitude = magnitudeAt x.index := by
  have hscale : x.scale = ((x.exponent.val - 1 : ℕ) : ℤ) - 1074 := by
    rw [scale]
    omega
  rw [x.counts_index.magnitudeAt_eq, unit, ← hscale, magnitude, numerator, denominator]
  push_cast
  rcases le_total 0 x.scale with hs | hs
  · obtain ⟨n, hn⟩ := Int.eq_ofNat_of_zero_le hs
    rw [hn, Int.toNat_neg_natCast, Int.toNat_natCast, pow_zero, div_one, zpow_natCast]
  · obtain ⟨n, hn⟩ := Int.exists_eq_neg_ofNat hs
    rw [hn, neg_neg, Int.toNat_neg_natCast, Int.toNat_natCast, pow_zero, mul_one, zpow_neg,
      zpow_natCast, div_eq_mul_inv]

/-- Patterns of one magnitude have one index. -/
theorem magnitude_eq_iff {x y : Binary64} : x.magnitude = y.magnitude ↔ x.index = y.index := by
  rw [magnitude_eq_magnitudeAt, magnitude_eq_magnitudeAt, magnitudeAt_strictMono.injective.eq_iff]

/-- Only the zeros have no magnitude. -/
theorem magnitude_eq_zero_iff {x : Binary64} : x.magnitude = 0 ↔ x.IsZero := by
  rw [magnitude_eq_magnitudeAt, ← magnitudeAt_zero, magnitudeAt_strictMono.injective.eq_iff]

/-- All patterns but the zeros have a positive magnitude. -/
theorem magnitude_pos_iff {x : Binary64} : 0 < x.magnitude ↔ ¬ x.IsZero := by
  rw [magnitude_eq_magnitudeAt, ← magnitudeAt_zero, magnitudeAt_strictMono.lt_iff_lt,
    Nat.pos_iff_ne_zero]

theorem numerator_pos {x : Binary64} (hx : ¬ x.IsZero) : 0 < x.numerator := by
  have hpos := magnitude_pos_iff.2 hx
  rw [magnitude] at hpos
  apply Nat.pos_of_ne_zero
  intro hzero
  rw [hzero, Nat.cast_zero, zero_div] at hpos
  exact lt_irrefl _ hpos

theorem denominator_pos (x : Binary64) : 0 < x.denominator := by
  rw [denominator]
  positivity

/-- The index from which a pattern is made is kept, as long as it fits. -/
theorem index_ofIndex (negative : Bool) (hk : k < 2 ^ 63) : (ofIndex negative k).index = k := by
  simp only [index, ofIndex, Fin.val_ofNat]
  omega

/-- A pattern is made from its sign and its index. -/
theorem ofIndex_index (x : Binary64) : ofIndex x.negative x.index = x := by
  obtain ⟨negative, ⟨e, he⟩, ⟨f, hf⟩⟩ := x
  simp only [index, ofIndex, Fin.ofNat, mk.injEq, Fin.mk.injEq, true_and]
  omega

/-- A pattern is determined by its sign and its place. -/
theorem eq_of_index_eq {x y : Binary64} (hsign : x.negative = y.negative)
    (hindex : x.index = y.index) : x = y := by
  rw [← x.ofIndex_index, ← y.ofIndex_index, hsign, hindex]

/-- The finite patterns stand before the infinities. -/
theorem isFinite_iff_index_lt (x : Binary64) : x.IsFinite ↔ x.index < infinityIndex := by
  have he := x.exponent.isLt
  have hf := x.fraction.isLt
  rw [IsFinite, index, infinityIndex]
  omega

theorem isFinite_of_isZero {x : Binary64} (hx : x.IsZero) : x.IsFinite := by
  rw [isFinite_iff_index_lt, hx]
  decide

end Telemetry.Binary64
