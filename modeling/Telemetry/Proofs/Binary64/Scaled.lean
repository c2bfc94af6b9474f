import Telemetry.Proofs.Binary64.Closeness
import Telemetry.Proofs.Decimal.Value
/-!
# Scaling in double arithmetic

Each operation yields the place to which the exact result rounds, or that of the infinities where
this is too large. A coefficient that is scaled by a power of ten passes three roundings, or five
where the power is taken in portions, so it ends near the place to which the decimal rounds. If
the coefficient and the power are exact then it ends at this very place.
-/

namespace Telemetry.Binary64

variable {x y : Binary64} {num den k n t : ℕ}

/-! ### Operations -/

/-- No index behind that of the infinities is needed. -/
theorem index_min_infinityIndex (k : ℕ) :
    (ofIndex false (min k infinityIndex)).index = min k infinityIndex :=
  index_ofIndex false ((min_le_right k infinityIndex).trans_lt (by decide))

/-- A quotient is rounded once, and beyond the finite doubles it becomes infinite. -/
theorem index_ofQuotient (num : ℕ) (hden : 0 < den) :
    (ofQuotient num den).index = min (place ((num : ℚ) / den)) infinityIndex := by
  rw [ofQuotient]
  split
  · next hzero =>
    rw [hzero, Nat.cast_zero, zero_div, place_zero]
    rfl
  · next hnum =>
    rw [nearestIndex_eq_place (Nat.pos_of_ne_zero hnum) hden, index_min_infinityIndex]

/-- A quotient with nothing above is zero. -/
theorem isZero_ofQuotient_zero : (ofQuotient 0 1).IsZero := by
  rw [IsZero, index_ofQuotient 0 one_pos, Nat.cast_zero, zero_div, place_zero, Nat.zero_min]

/-- Products are rounded once. -/
theorem index_times (x y : Binary64) :
    (x.times y).index = min (place (x.magnitude * y.magnitude)) infinityIndex := by
  rw [times, index_ofQuotient _ (Nat.mul_pos x.denominator_pos y.denominator_pos), magnitude,
    magnitude, div_mul_div_comm, Nat.cast_mul, Nat.cast_mul]

/-- Quotients are rounded once. -/
theorem index_dividedBy (x : Binary64) (hy : ¬ y.IsZero) :
    (x.dividedBy y).index = min (place (x.magnitude / y.magnitude)) infinityIndex := by
  rw [dividedBy, index_ofQuotient _ (Nat.mul_pos x.denominator_pos (numerator_pos hy)), magnitude,
    magnitude, div_div_div_eq, Nat.cast_mul, Nat.cast_mul]

/-- Division by a number from one on does not lead further up. -/
theorem index_dividedBy_le (x : Binary64) (hy : 1 ≤ y.magnitude) :
    (x.dividedBy y).index ≤ x.index := by
  have hnonneg := magnitudeAt_nonneg x.index
  rw [← magnitude_eq_magnitudeAt] at hnonneg
  rw [index_dividedBy x (magnitude_pos_iff.1 (zero_lt_one.trans_le hy))]
  refine (min_le_left _ _).trans (place_le_of_le_magnitudeAt (by positivity) ?_)
  rw [← magnitude_eq_magnitudeAt]
  exact div_le_self hnonneg hy

/-! ### Whole numbers -/

/-- Numbers up to the greatest power of ten that is finite are rounded to finite doubles. -/
theorem place_lt_infinityIndex {v : ℚ} (hv : 0 ≤ v) (h : v ≤ 10 ^ 308) :
    place v < infinityIndex := by
  have hcounts : Counts (infinityIndex - 1) 2045 (2 ^ 53 - 1) :=
    ⟨by decide, by norm_num, .inr (by norm_num)⟩
  have hgreatest : (10 : ℚ) ^ 308 ≤ magnitudeAt (infinityIndex - 1) := by
    have hnat : ((10 ^ 308 : ℕ) : ℚ) ≤ ((2 ^ 53 - 1 : ℕ) * 2 ^ 971 : ℕ) :=
      Nat.cast_le.2 (by decide +kernel)
    rw [Nat.cast_pow, Nat.cast_mul, Nat.cast_pow, Nat.cast_ofNat, Nat.cast_ofNat,
      ← zpow_natCast 2 971] at hnat
    rw [hcounts.magnitudeAt_eq, unit]
    exact hnat
  have hle := place_le_of_le_magnitudeAt hv (h.trans hgreatest)
  exact hle.trans_lt (by decide)

/-- The least normal number is not greater than one. -/
theorem unit_zero_le_one : 2 ^ 52 * unit 0 ≤ 1 := by
  rw [unit, ← zpow_natCast, ← zpow_add₀ (by norm_num)]
  exact zpow_le_one_of_nonpos₀ (by norm_num) (by norm_num)

/-- A positive whole number is close to the double to which it is rounded. -/
theorem closeTo_ofQuotient (hpos : 0 < n) (hle : (n : ℚ) ≤ 10 ^ 308) :
    CloseTo 1 (ofQuotient n 1).magnitude n := by
  have hone : (1 : ℚ) ≤ n := by exact_mod_cast hpos
  have hfinite := place_lt_infinityIndex (Nat.cast_nonneg n) hle
  rw [magnitude_eq_magnitudeAt, index_ofQuotient n one_pos, Nat.cast_one, div_one,
    min_eq_left hfinite.le]
  refine closeTo_place (Nat.mul_one _) ?_
  exact_mod_cast unit_zero_le_one.trans hone

/-- Powers of ten are off by one rounding at most. -/
theorem closeTo_tenPower (hk : k ≤ 308) : CloseTo 1 (tenPower k).magnitude (10 ^ k) := by
  have hcast : ((10 ^ k : ℕ) : ℚ) = 10 ^ k := by rw [Nat.cast_pow, Nat.cast_ofNat]
  rw [← hcast]
  refine closeTo_ofQuotient (by positivity) ?_
  rw [hcast]
  exact pow_le_pow_right₀ (by norm_num) hk

/-- Powers of ten are not rounded below one. -/
theorem one_le_magnitude_tenPower (k : ℕ) : 1 ≤ (tenPower k).magnitude := by
  have hone : Counts (1023 * 2 ^ 52) 1022 (2 ^ 52) := ⟨by norm_num, by norm_num, .inr le_rfl⟩
  have hmagnitude : magnitudeAt (1023 * 2 ^ 52) = 1 := by
    rw [hone.magnitudeAt_eq, unit, Nat.cast_pow, Nat.cast_ofNat, ← zpow_natCast,
      ← zpow_add₀ (by norm_num)]
    norm_num
  rw [magnitude_eq_magnitudeAt, tenPower, index_ofQuotient _ one_pos, ← hmagnitude]
  refine magnitudeAt_strictMono.monotone (le_min (le_place_of_magnitudeAt_le ?_) (by decide))
  rw [hmagnitude, Nat.cast_one, div_one]
  exact_mod_cast Nat.one_le_pow k 10 (by norm_num)

/-- Powers of ten are not rounded to zero. -/
theorem not_isZero_tenPower (k : ℕ) : ¬ (tenPower k).IsZero :=
  magnitude_pos_iff.1 (zero_lt_one.trans_le (one_le_magnitude_tenPower k))

/-- A count of units that is not longer than its width is not rounded, whatever the unit. -/
theorem magnitudeAt_place_mul_unit (hn : n ≤ 2 ^ 53) (t : ℕ) :
    magnitudeAt (place (n * unit t)) = n * unit t := by
  have hnonneg : 0 ≤ n * unit t := mul_nonneg (Nat.cast_nonneg n) (unit_pos t).le
  obtain ⟨s, r, hk, h⟩ := roundsToPlace_place hnonneg
  have hpos := unit_pos s
  rw [hk, h.counts.magnitudeAt_eq]
  rcases le_or_gt s t with hst | hts
  · -- The number is a whole count of the unit to which it is rounded.
    obtain ⟨d, rfl⟩ := Nat.exists_eq_add_of_le hst
    have hcount : n * unit (s + d) = (n * 2 ^ d : ℕ) * unit s := by
      rw [unit_add]
      push_cast
      ring
    have hr := h.rounds.unique (n := n * 2 ^ d) (by
      rw [hcount, mul_div_cancel_right₀ _ hpos.ne']
      exact Decimal.RoundsTo.natCast _)
    rw [hr, hcount]
  · -- The number is a full count, and so it is half of a full count of the next unit.
    have hunit : unit (t + 1) ≤ unit s := unit_mono hts
    rw [unit_succ] at hunit
    have hnormal := h.normal.resolve_left (by omega)
    have hn' : (n : ℚ) ≤ 2 ^ 53 := by exact_mod_cast hn
    have hfull := mul_le_mul_of_nonneg_right hn' (unit_pos t).le
    have hvalue : n * unit t = (2 ^ 52 : ℕ) * unit s := by
      push_cast
      linarith
    have hr := h.rounds.unique (n := 2 ^ 52) (by
      rw [hvalue, mul_div_cancel_right₀ _ hpos.ne']
      exact Decimal.RoundsTo.natCast _)
    rw [hr, hvalue]

/-- Multiples of a power of two are exact as long as a significand has room for them. -/
theorem magnitude_ofQuotient (hn : n ≤ 2 ^ 53) (hle : (n : ℚ) * 2 ^ t ≤ 10 ^ 308) :
    (ofQuotient (n * 2 ^ t) 1).magnitude = n * 2 ^ t := by
  have hunit : unit (1074 + t) = 2 ^ t := by
    rw [unit, ← zpow_natCast]
    congr 1
    push_cast
    omega
  have hcast : ((n * 2 ^ t : ℕ) : ℚ) = n * 2 ^ t := by push_cast; rfl
  have hfinite := place_lt_infinityIndex (by positivity) hle
  rw [magnitude_eq_magnitudeAt, index_ofQuotient _ one_pos, Nat.cast_one, div_one, hcast,
    min_eq_left hfinite.le, ← hunit]
  exact magnitudeAt_place_mul_unit hn (1074 + t)

/-- The first powers of ten are exact. -/
theorem magnitude_tenPower (hk : k ≤ 22) : (tenPower k).magnitude = 10 ^ k := by
  have hfive : 5 ^ k ≤ 2 ^ 53 := calc
    5 ^ k ≤ 5 ^ 22 := Nat.pow_le_pow_right (by norm_num) hk
    _ ≤ 2 ^ 53 := by norm_num
  have hcast : ((5 ^ k : ℕ) : ℚ) * 2 ^ k = 10 ^ k := by
    rw [Nat.cast_pow, ← mul_pow]
    norm_num
  rw [tenPower, show 10 = 5 * 2 by rfl, mul_pow, magnitude_ofQuotient hfive, hcast]
  rw [hcast]
  exact pow_le_pow_right₀ (by norm_num) (by omega)

/-! ### Scaling -/

/-- A positive exponent takes one product. -/
theorem scaleByTen_natCast (hx : ¬ x.IsZero) (hk : k ≤ 308) :
    scaleByTen x k = x.times (tenPower k) := by
  rw [scaleByTen, if_neg hx, if_neg (by omega), if_pos (by omega), Int.toNat_natCast]

/-- A negative exponent takes one quotient. -/
theorem scaleByTen_neg (hx : ¬ x.IsZero) (hpos : 0 < k) (hk : k ≤ 308) :
    scaleByTen x (-k) = x.dividedBy (tenPower k) := by
  rw [scaleByTen, if_neg hx, if_neg (by omega), if_neg (by omega)]
  simp only [Int.natAbs_neg, Int.natAbs_natCast]
  rw [Nat.div_eq_of_lt (by omega), Nat.mod_eq_of_lt (by omega), Nat.sub_add_cancel hpos]
  rfl

/-- A negative exponent beyond the powers of ten takes two quotients. -/
theorem scaleByTen_neg_of_lt (hx : ¬ x.IsZero) (hlt : 308 < k) (hk : k ≤ 616) :
    scaleByTen x (-k) = (x.dividedBy (tenPower 308)).dividedBy (tenPower (k - 308)) := by
  rw [scaleByTen, if_neg hx, if_neg (by omega), if_neg (by omega)]
  simp only [Int.natAbs_neg, Int.natAbs_natCast]
  rw [show (k - 1) / 308 = 1 by omega, show (k - 1) % 308 + 1 = k - 308 by omega, overPortions,
    if_neg hx]
  rfl

/-- Scaling by a negative exponent does not lead further up. -/
theorem index_scaleByTen_neg_le (x : Binary64) (hpos : 0 < k) (hk : k ≤ 616) :
    (scaleByTen x (-k)).index ≤ x.index := by
  by_cases hx : x.IsZero
  · rw [scaleByTen, if_pos hx]
  · rcases le_or_gt k 308 with hle | hlt
    · rw [scaleByTen_neg hx hpos hle]
      exact index_dividedBy_le x (one_le_magnitude_tenPower k)
    · rw [scaleByTen_neg_of_lt hx hlt hk]
      exact (index_dividedBy_le _ (one_le_magnitude_tenPower _)).trans
        (index_dividedBy_le x (one_le_magnitude_tenPower 308))

/-- The first portion leaves a number that is not too small to be close to exact. -/
theorem closeTo_dividedBy_tenPower {c : ℚ} (hx : x.IsFinite) (hc : 1 ≤ c)
    (hclose : CloseTo 1 x.magnitude c) :
    CloseTo 6 (x.dividedBy (tenPower 308)).magnitude (c / 10 ^ 308) := by
  have hquotient := hclose.div (closeTo_tenPower (k := 308) le_rfl)
  -- Four roundings are allowed for the quotient itself, which may be subnormal.
  have hfinite := (index_dividedBy_le x (one_le_magnitude_tenPower 308)).trans_lt
    (x.isFinite_iff_index_lt.1 hx)
  rw [index_dividedBy x (not_isZero_tenPower 308)] at hfinite
  rw [magnitude_eq_magnitudeAt, index_dividedBy x (not_isZero_tenPower 308),
    min_eq_left (by omega)]
  refine (closeTo_place (q := 2 ^ 50) (m := 4) (by norm_num) ?_).trans hquotient
  have hgrowth : growth ^ 2 ≤ 3 / 2 := by norm_num [growth]
  -- A subnormal number of this size still counts enough units.
  have hleast : 2 ^ 50 * unit 0 * (3 / 2) ≤ 1 / 10 ^ 308 := by
    have hnat : ((10 ^ 308 * 3 : ℕ) : ℚ) ≤ (2 ^ 1024 * 2 : ℕ) :=
      Nat.cast_le.2 (by decide +kernel)
    rw [Nat.cast_mul, Nat.cast_mul, Nat.cast_pow, Nat.cast_pow, Nat.cast_ofNat, Nat.cast_ofNat,
      Nat.cast_ofNat] at hnat
    have hunit : (2 : ℚ) ^ 50 * unit 0 = 1 / 2 ^ 1024 := by
      rw [unit, ← zpow_natCast, ← zpow_add₀ (by norm_num), one_div, ← zpow_natCast, ← zpow_neg]
      norm_num
    rw [hunit, div_mul_div_comm, div_le_div_iff₀ (by positivity) (by positivity), one_mul, one_mul,
      mul_comm 3]
    exact hnat
  have hpos := hquotient.pos
  have hscaled : 1 / 10 ^ 308 ≤ x.magnitude / (tenPower 308).magnitude * (3 / 2) := calc
    1 / 10 ^ 308 ≤ c / 10 ^ 308 := div_le_div_of_nonneg_right hc (by positivity)
    _ ≤ x.magnitude / (tenPower 308).magnitude * growth ^ 2 := hquotient.ge
    _ ≤ x.magnitude / (tenPower 308).magnitude * (3 / 2) :=
      mul_le_mul_of_nonneg_left hgrowth hpos.le
  rw [Nat.cast_pow, Nat.cast_ofNat]
  exact le_of_mul_le_mul_right (hleast.trans hscaled) (by norm_num)

/-- The exact result of the last operation is close to the decimal: two roundings lie before it
  where the power of ten is taken at once, and seven otherwise. -/
theorem exists_closeTo_scaleByTen {c : ℚ} {e : ℤ} (hx : x.IsFinite) (hc : 1 ≤ c)
    (hclose : CloseTo 1 x.magnitude c) (hlow : -616 ≤ e) (hhigh : e ≤ 308) :
    ∃ n w, n ≤ 7 ∧ (-308 ≤ e → n ≤ 2) ∧ CloseTo n w (c * 10 ^ e) ∧
      (scaleByTen x e).index = min (place w) infinityIndex := by
  have hzero := magnitude_pos_iff.1 hclose.pos
  rcases le_or_gt 0 e with he | he
  · -- One product.
    obtain ⟨k, rfl⟩ := Int.eq_ofNat_of_zero_le he
    refine ⟨2, x.magnitude * (tenPower k).magnitude, by norm_num, fun _ => le_rfl, ?_, ?_⟩
    · rw [zpow_natCast]
      exact hclose.mul (closeTo_tenPower (by omega))
    · rw [scaleByTen_natCast hzero (by omega), index_times]
  · obtain ⟨k, rfl⟩ := Int.exists_eq_neg_ofNat he.le
    rcases le_or_gt k 308 with hle | hlt
    · -- One quotient.
      refine ⟨2, x.magnitude / (tenPower k).magnitude, by norm_num, fun _ => le_rfl, ?_, ?_⟩
      · rw [zpow_neg, zpow_natCast, ← div_eq_mul_inv]
        exact hclose.div (closeTo_tenPower hle)
      · rw [scaleByTen_neg hzero (by omega) hle, index_dividedBy x (not_isZero_tenPower k)]
    · -- Two quotients, of which the first one may end among the subnormal numbers.
      refine ⟨7, (x.dividedBy (tenPower 308)).magnitude / (tenPower (k - 308)).magnitude, le_rfl,
        fun h => by omega, ?_, ?_⟩
      · have hsplit : c * 10 ^ (-(k : ℤ)) = c / 10 ^ 308 / 10 ^ (k - 308) := by
          rw [div_div, ← pow_add, Nat.add_sub_cancel' hlt.le, zpow_neg, zpow_natCast,
            ← div_eq_mul_inv]
        rw [hsplit]
        exact (closeTo_dividedBy_tenPower hx hc hclose).div (closeTo_tenPower (by omega))
      · rw [scaleByTen_neg_of_lt hzero hlt (by omega),
          index_dividedBy _ (not_isZero_tenPower (k - 308))]

/-- A short coefficient and an exact power of ten are scaled with a single rounding. -/
theorem index_scaleByTen_of_exact {c : ℕ} {e : ℤ} (hc : c ≤ 2 ^ 53) (he : e.natAbs ≤ 22) :
    (scaleByTen (ofQuotient c 1) e).index = min (place (c * 10 ^ e)) infinityIndex := by
  rcases Nat.eq_zero_or_pos c with rfl | hpos
  · rw [scaleByTen, if_pos isZero_ofQuotient_zero, isZero_ofQuotient_zero, Nat.cast_zero,
      zero_mul, place_zero, Nat.zero_min]
  · have hcoefficient : (ofQuotient c 1).magnitude = c := by
      have h := magnitude_ofQuotient (t := 0) hc (by
        rw [pow_zero, mul_one]
        have hpow : (10 : ℚ) ^ 16 ≤ 10 ^ 308 := pow_le_pow_right₀ (by norm_num) (by norm_num)
        exact (Nat.cast_le.2 hc).trans (le_trans (by norm_num) hpow))
      rwa [pow_zero, pow_zero, Nat.mul_one, mul_one] at h
    -- Both operands are exact, so only the operation on them rounds.
    have hzero : ¬ (ofQuotient c 1).IsZero := by
      rw [← magnitude_pos_iff, hcoefficient]
      exact_mod_cast hpos
    rcases le_or_gt 0 e with hnonneg | hneg
    · obtain ⟨k, rfl⟩ := Int.eq_ofNat_of_zero_le hnonneg
      rw [scaleByTen_natCast hzero (by omega), index_times, hcoefficient,
        magnitude_tenPower (by omega), zpow_natCast]
    · obtain ⟨k, rfl⟩ := Int.exists_eq_neg_ofNat hneg.le
      rw [scaleByTen_neg hzero (by omega) (by omega), index_dividedBy _ (not_isZero_tenPower k),
        hcoefficient, magnitude_tenPower (by omega), zpow_neg, zpow_natCast, ← div_eq_mul_inv]

end Telemetry.Binary64
