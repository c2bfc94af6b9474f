import Telemetry.Decimal.Nearest
import Telemetry.Proofs.Binary64.Magnitude
import Telemetry.Proofs.Decimal.Rounding
/-!
# Rounding to a place

A positive number rounds to the place whose count of units is the number rounded to an integer,
the unit being the one that gives the count its full width. There is one such place, no magnitude
is nearer, and it moves up with the number.
-/

namespace Telemetry.Binary64

open Decimal (RoundsTo)

variable {v w : ℚ} {k l s t r n : ℕ}

/-- A number rounds to `r` units of the last place. -/
structure RoundsAt (v : ℚ) (s r : ℕ) : Prop where
  lt : v < 2 ^ 53 * unit s
  normal : s = 0 ∨ 2 ^ 52 * unit s ≤ v
  rounds : RoundsTo (v / unit s) r

/-- The place to which a number rounds. -/
def RoundsToPlace (v : ℚ) (k : ℕ) : Prop :=
  ∃ s r, k = s * 2 ^ 52 + r ∧ RoundsAt v s r

namespace RoundsAt

/-- A rounded number counts no more units than a full significand has. -/
theorem le_full (h : RoundsAt v s r) : r ≤ 2 ^ 53 := by
  refine h.rounds.mono (RoundsTo.natCast (2 ^ 53)) ?_
  rw [div_le_iff₀ (unit_pos s)]
  exact_mod_cast h.lt.le

/-- Beyond the least unit, it counts at least half as many. -/
theorem half_full_le (h : RoundsAt v s r) (hs : s ≠ 0) : 2 ^ 52 ≤ r := by
  refine (RoundsTo.natCast (2 ^ 52)).mono h.rounds ?_
  rw [le_div_iff₀ (unit_pos s)]
  exact_mod_cast h.normal.resolve_left hs

/-- The place that is composed of a unit and a count counts that many of them. -/
theorem counts (h : RoundsAt v s r) : Counts (s * 2 ^ 52 + r) s r :=
  ⟨rfl, h.le_full, (eq_or_ne s 0).imp_right h.half_full_le⟩

/-- A smaller number is not rounded in a larger unit. -/
theorem unit_le (hv : RoundsAt v s r) (hw : RoundsAt w t n) (hvw : v ≤ w) : s ≤ t := by
  by_contra hlt
  have hunit : unit (t + 1) ≤ unit s := unit_mono (Nat.lt_of_not_le hlt)
  rw [unit_succ] at hunit
  have hnormal := hv.normal.resolve_left (by omega)
  have hw := hw.lt
  linarith

/-- Rounding moves a number by half a unit at most. -/
theorem abs_sub_le (h : RoundsAt v s r) : |v - r * unit s| ≤ unit s / 2 := by
  have hpos := unit_pos s
  have hscaled : v - r * unit s = (v / unit s - r) * unit s := by
    rw [sub_mul, div_mul_cancel₀ v hpos.ne']
  rw [hscaled, abs_mul, abs_of_pos hpos]
  have := mul_le_mul_of_nonneg_right h.rounds.1 hpos.le
  linarith

/-- No other multiple of the unit is nearer. -/
theorem abs_sub_le_abs_sub (h : RoundsAt v s r) (j : ℕ) :
    |v - r * unit s| ≤ |v - j * unit s| := by
  have hpos := unit_pos s
  have hscaled : ∀ i : ℕ, |v - i * unit s| = |v / unit s - i| * unit s := by
    intro i
    rw [← abs_of_pos hpos, ← abs_mul, sub_mul, abs_of_pos hpos, div_mul_cancel₀ v hpos.ne']
  rw [hscaled, hscaled]
  exact mul_le_mul_of_nonneg_right (by exact_mod_cast h.rounds.abs_sub_le_abs_sub j) hpos.le

end RoundsAt

namespace RoundsToPlace

/-- Rounding to places is monotone. -/
theorem mono (hv : RoundsToPlace v k) (hw : RoundsToPlace w l) (hvw : v ≤ w) : k ≤ l := by
  obtain ⟨s, r, rfl, hv⟩ := hv
  obtain ⟨t, n, rfl, hw⟩ := hw
  rcases (hv.unit_le hw hvw).eq_or_lt with rfl | hst
  · have hrn := hv.rounds.mono hw.rounds (div_le_div_of_nonneg_right hvw (unit_pos s).le)
    omega
  · -- The lower count is at most full, the upper one at least half full.
    have hr := hv.le_full
    have hn := hw.half_full_le (by omega)
    omega

/-- A number rounds to one place. -/
theorem unique (hk : RoundsToPlace v k) (hl : RoundsToPlace v l) : k = l :=
  le_antisymm (hk.mono hl le_rfl) (hl.mono hk le_rfl)

/-- No magnitude is nearer to a number than the one at the place to which it rounds. -/
theorem abs_sub_le_abs_sub (h : RoundsToPlace v k) (j : ℕ) :
    |v - magnitudeAt k| ≤ |v - magnitudeAt j| := by
  obtain ⟨s, r, rfl, h⟩ := h
  rw [h.counts.magnitudeAt_eq]
  obtain ⟨t, n, hj, hn⟩ := exists_counts j
  rw [hj.magnitudeAt_eq]
  rcases le_or_gt s t with hst | hts
  · -- A multiple of a greater unit is a multiple of the smaller one.
    obtain ⟨d, rfl⟩ := Nat.exists_eq_add_of_le hst
    have := h.abs_sub_le_abs_sub (n * 2 ^ d)
    rw [unit_add, ← mul_assoc]
    exact_mod_cast this
  · -- The smaller magnitude lies below the half full count, and the number above it.
    have hnormal := h.normal.resolve_left (by omega)
    have hunit : unit (t + 1) ≤ unit s := unit_mono hts
    rw [unit_succ] at hunit
    have hn' : (n : ℚ) ≤ 2 ^ 53 := by exact_mod_cast hj.le
    have hsmall : n * unit t ≤ 2 ^ 52 * unit s := by
      have := mul_le_mul_of_nonneg_right hn' (unit_pos t).le
      linarith
    have hhalf := h.abs_sub_le_abs_sub (2 ^ 52)
    rw [Nat.cast_pow, Nat.cast_ofNat] at hhalf
    rw [abs_of_nonneg (sub_nonneg.2 hnormal)] at hhalf
    rw [abs_of_nonneg (sub_nonneg.2 (hsmall.trans hnormal))]
    linarith

end RoundsToPlace

/-- Every magnitude rounds to its own place. -/
theorem roundsToPlace_magnitudeAt (k : ℕ) : RoundsToPlace (magnitudeAt k) k := by
  obtain ⟨s, r, hcounts, hr⟩ := exists_counts k
  have hpos := unit_pos s
  refine ⟨s, r, hcounts.place, ?_, ?_, ?_⟩
  · rw [hcounts.magnitudeAt_eq]
    exact mul_lt_mul_of_pos_right (by exact_mod_cast hr) hpos
  · refine hcounts.normal.imp_right ?_
    intro hn
    rw [hcounts.magnitudeAt_eq]
    exact mul_le_mul_of_nonneg_right (by exact_mod_cast hn) hpos.le
  · rw [hcounts.magnitudeAt_eq, mul_div_cancel_right₀ _ hpos.ne']
    exact RoundsTo.natCast r

/-! ### Quotients -/

/-- The leading bit bounds a quotient from below and from above. -/
theorem leadingBit_bounds {num den : ℕ} (hnum : 0 < num) (hden : 0 < den) :
    (2 : ℚ) ^ leadingBit num den ≤ num / den ∧
      (num : ℚ) / den < 2 ^ (leadingBit num den + 1) := by
  -- The whole part of the quotient counts from one on, and that of its inverse below.
  rw [leadingBit]
  split
  · next hle =>
    have hq : num / den ≠ 0 := (Nat.div_pos hle hden).ne'
    exact_mod_cast Decimal.zpow_bounds_of_le (b := 2) hden (Nat.log2_self_le hq) Nat.lt_log2_self
  · next hgt =>
    have hlt : num < den := Nat.lt_of_not_le hgt
    have hq : (den - 1) / num ≠ 0 := (Nat.div_pos (by omega) hnum).ne'
    have h := Decimal.zpow_bounds_of_lt (b := 2) (by norm_num) hnum hlt (Nat.log2_self_le hq)
      Nat.lt_log2_self
    rw [neg_add, neg_add_cancel_right, ← neg_add]
    exact_mod_cast h

/-- The nearest place of a positive quotient is the one to which it rounds. -/
theorem roundsToPlace_nearestIndex {num den : ℕ} (hnum : 0 < num) (hden : 0 < den) :
    RoundsToPlace ((num : ℚ) / den) (nearestIndex num den) := by
  obtain ⟨hlow, hhigh⟩ := leadingBit_bounds hnum hden
  generalize hq : max (leadingBit num den - 52) (-1074) = q
  have hs : (((q + 1074).toNat : ℕ) : ℤ) - 1074 = q := by omega
  refine ⟨(q + 1074).toNat, _, by rw [nearestIndex, hq], ?_, ?_, ?_⟩
  · -- A full count of the unit stays above the leading bit.
    rw [unit, hs, ← zpow_natCast, ← zpow_add₀ (by norm_num)]
    refine hhigh.trans_le (zpow_le_zpow_right₀ (by norm_num) ?_)
    omega
  · -- Half of it stays below, unless the unit is the least one.
    by_cases hleast : q = -1074
    · left
      omega
    · right
      rw [unit, hs, ← zpow_natCast, ← zpow_add₀ (by norm_num)]
      refine (zpow_le_zpow_right₀ (by norm_num) ?_).trans hlow
      omega
  · -- The quotient is scaled to the unit by a power that is moved to its side of the bar.
    rw [unit, hs, div_eq_mul_inv, ← zpow_neg]
    have hcast := Decimal.mul_pow_div_mul_pow num den 2 (by norm_num) (-q)
    rw [neg_neg, Nat.cast_ofNat] at hcast
    rw [← hcast]
    exact Decimal.roundsTo_roundQuotient _ (by positivity)

/-! ### The place of a number -/

/-- The place to which a number rounds, as a function. -/
def place (v : ℚ) : ℕ :=
  if v = 0 then 0 else nearestIndex v.num.natAbs v.den

@[simp] theorem place_zero : place 0 = 0 := if_pos rfl

/-- A number rounds to its place. -/
theorem roundsToPlace_place (hv : 0 ≤ v) : RoundsToPlace v (place v) := by
  rw [place]
  split
  · next h =>
    have hzero := roundsToPlace_magnitudeAt 0
    rwa [magnitudeAt_zero, ← h] at hzero
  · next h =>
    have hnum : 0 < v.num := Rat.num_pos.2 (lt_of_le_of_ne hv (Ne.symm h))
    have hquotient : (v.num.natAbs : ℚ) / v.den = v := by
      rw [Nat.cast_natAbs, abs_of_pos hnum, Rat.num_div_den]
    have hrounds := roundsToPlace_nearestIndex (Int.natAbs_pos.2 hnum.ne') v.den_pos
    rwa [hquotient] at hrounds

/-- A number rounds to no other place than its own. -/
theorem RoundsToPlace.place_eq (hv : 0 ≤ v) (h : RoundsToPlace v k) : place v = k :=
  (roundsToPlace_place hv).unique h

/-- Greater numbers have later places. -/
theorem place_mono (hv : 0 ≤ v) (hvw : v ≤ w) : place v ≤ place w :=
  (roundsToPlace_place hv).mono (roundsToPlace_place (hv.trans hvw)) hvw

theorem magnitudeAt_nonneg (k : ℕ) : 0 ≤ magnitudeAt k := by
  rw [← magnitudeAt_zero]
  exact magnitudeAt_strictMono.monotone (Nat.zero_le k)

/-- The magnitude at a place has this place. -/
theorem place_magnitudeAt (k : ℕ) : place (magnitudeAt k) = k :=
  (roundsToPlace_magnitudeAt k).place_eq (magnitudeAt_nonneg k)

/-- Numbers up to a magnitude are not placed behind it. -/
theorem place_le_of_le_magnitudeAt (hv : 0 ≤ v) (h : v ≤ magnitudeAt k) : place v ≤ k :=
  (place_mono hv h).trans_eq (place_magnitudeAt k)

/-- Numbers from a magnitude on are not placed before it. -/
theorem le_place_of_magnitudeAt_le (h : magnitudeAt k ≤ v) : k ≤ place v :=
  (place_magnitudeAt k).symm.trans_le (place_mono (magnitudeAt_nonneg k) h)

/-- The index that is computed from a quotient is its place. -/
theorem nearestIndex_eq_place {num den : ℕ} (hnum : 0 < num) (hden : 0 < den) :
    nearestIndex num den = place ((num : ℚ) / den) :=
  ((roundsToPlace_nearestIndex hnum hden).place_eq (by positivity)).symm

end Telemetry.Binary64
