import Telemetry.Json.Numeral
import Telemetry.Proofs.Binary64.Scaled
import Telemetry.Proofs.Binary64.Shortest
/-!
# Doubles are read near to where they are written

A finite double is the nearest one to the number as which it is written. It is read in double
arithmetic, however, which rounds more than once. So what is read is a finite double of the same
sign that stands a few places away at most, and it is the written double itself whenever neither
the digits nor the power of ten have to be rounded.
-/

namespace Telemetry

namespace Json.Number

/-! ### Decimals of numbers -/

/-- The decimal that a number spells. -/
def decimal (n : Number) : Decimal := ⟨n.coefficient, n.exponent.getD 0 - n.places⟩

theorem coefficient_decimal (n : Number) : n.decimal.coefficient = n.coefficient := rfl

/-- A coefficient that fits a word is taken as it is. -/
theorem wordDecimal_of_lt {n : Number} (h : n.coefficient < 2 ^ 64) :
    n.wordDecimal = n.decimal := by
  have hwhole : n.coefficient / 10 ^ n.places < 2 ^ 64 := (Nat.div_le_self _ _).trans_lt h
  rw [wordDecimal, Decimal.fitWord_of_lt (d := ⟨n.coefficient / 10 ^ n.places, 0⟩) hwhole]
  simp only
  rw [Nat.div_add_mod', add_zero, Decimal.fitWord_of_lt (d := ⟨n.coefficient, _⟩) h, decimal]

/-- The layout of a decimal keeps it, or it pads a whole number and adds a zero to it. -/
theorem decimal_ofDecimal (negative : Bool) (d : Decimal) :
    (ofDecimal negative d).decimal = d ∨
      0 ≤ d.exponent ∧ d.exponent + Decimal.digitCount d.coefficient ≤ 16 ∧
        (ofDecimal negative d).decimal =
          ⟨d.coefficient * 10 ^ (d.exponent.toNat + 1), -1⟩ := by
  have hcount := Decimal.digitCount_pos d.coefficient
  rw [ofDecimal]
  split
  · left
    rw [decimal]
    congr 1
    simp only [Option.getD_some]
    omega
  · split
    · left
      rw [decimal]
      congr 1
      simp only [Option.getD_none]
      omega
    · right
      refine ⟨by omega, by omega, ?_⟩
      rw [decimal]
      rfl

end Json.Number

namespace Binary64

variable {x : Binary64}

/-! ### The written decimal -/

/-- The decimal as which a finite double is written, zeros at its end included. -/
def written (x : Binary64) : Decimal := (Json.Number.ofDouble x).decimal

/-- The written decimal has the coefficient of the number. -/
theorem coefficient_written (x : Binary64) :
    x.written.coefficient = (Json.Number.ofDouble x).coefficient := by
  rw [written, Json.Number.coefficient_decimal]

/-- What is written has seventeen digits at most, no tiny exponent, and the place of the double. -/
theorem written_bounds (hx : x.IsFinite) :
    x.written.coefficient ≤ 10 ^ 17 ∧ -340 ≤ x.written.exponent ∧
      place x.written.value = x.index := by
  rw [written, Json.Number.ofDouble]
  split
  · next hzero =>
    refine ⟨by norm_num [Json.Number.decimal], by norm_num [Json.Number.decimal], ?_⟩
    rw [hzero, Decimal.value_eq_zero rfl, place_zero]
  · next hzero =>
    obtain ⟨-, hcoefficient, hexponent⟩ := shortest_bounds hx hzero
    have hreads := (readsBack_iff hx _).1 (readsBack_shortest hx)
    rcases Json.Number.decimal_ofDecimal x.negative x.shortest with h | ⟨hwhole, hshort, h⟩
    · rw [h]
      exact ⟨hcoefficient, hexponent, hreads⟩
    · -- The zero that is added makes the coefficient longer, but not the number greater.
      rw [h]
      obtain ⟨n, hn⟩ := Int.eq_ofNat_of_zero_le hwhole
      refine ⟨?_, by norm_num, ?_⟩
      · simp only
        calc
          x.shortest.coefficient * 10 ^ (x.shortest.exponent.toNat + 1)
          _ ≤ 10 ^ Decimal.digitCount x.shortest.coefficient *
                10 ^ (x.shortest.exponent.toNat + 1) :=
              Nat.mul_le_mul_right _ (Decimal.lt_pow_digitCount _).le
          _ = 10 ^ (Decimal.digitCount x.shortest.coefficient +
                (x.shortest.exponent.toNat + 1)) := (pow_add ..).symm
          _ ≤ 10 ^ 17 := Nat.pow_le_pow_right (by norm_num) (by omega)
      · rw [← hreads, Decimal.value, Decimal.value, hn, Int.toNat_natCast, zpow_neg, zpow_one,
          zpow_natCast, Nat.cast_mul, Nat.cast_pow, Nat.cast_ofNat, pow_succ]
        congr 1
        ring

/-- A finite double is the nearest one to its written decimal. -/
theorem nearest?_written (hx : x.IsFinite) : nearest? x.negative x.written = some x :=
  (readsBack_iff hx _).2 (written_bounds hx).2.2

/-- What is written needs no power of ten beyond the finite ones. -/
theorem written_exponent_le (hx : x.IsFinite) (hpos : 0 < x.written.coefficient) :
    x.written.exponent ≤ 308 := by
  obtain ⟨-, -, hplace⟩ := written_bounds hx
  have hindex := x.isFinite_iff_index_lt.1 hx
  -- What is written rounds to a finite double, so it stays below the place of the infinities.
  have hlt : x.written.value < 2 ^ 1024 := by
    rw [← magnitudeAt_infinityIndex]
    by_contra hge
    have := le_place_of_magnitudeAt_le (not_lt.1 hge)
    omega
  have hone : (1 : ℚ) ≤ x.written.coefficient := by exact_mod_cast hpos
  have hle : (10 : ℚ) ^ x.written.exponent ≤ x.written.value :=
    le_mul_of_one_le_left (by positivity) hone
  have hpow : (2 : ℚ) ^ 1024 ≤ 10 ^ 309 := Decimal.two_pow_le_ten_pow (by decide +kernel)
  rw [← zpow_natCast 10] at hpow
  have := (zpow_lt_zpow_iff_right₀ (by norm_num)).1 ((hle.trans_lt hlt).trans_le hpow)
  omega

/-! ### What is read -/

/-- The double as which a finite double is read from its own number: double arithmetic rounds the
  digits and scales them by the power of ten. -/
def reread (x : Binary64) : Binary64 :=
  { scaleByTen (ofQuotient x.written.coefficient 1) x.written.exponent with
    negative := x.negative }

/-- What is known about the double `y` as which the finite double `x` is read. -/
structure ReadsNear (x y : Binary64) : Prop where
  finite : y.IsFinite
  negative_eq : y.negative = x.negative
  near : y.index ≤ x.index + 8 ∧ x.index ≤ y.index + 8
  nearer : -308 ≤ x.written.exponent → y.index ≤ x.index + 3 ∧ x.index ≤ y.index + 3
  eq_of_exact : x.written.coefficient ≤ 2 ^ 53 → x.written.exponent.natAbs ≤ 22 → y = x

theorem index_withNegative (y : Binary64) (negative : Bool) :
    index { y with negative := negative } = y.index := rfl

/-- What is read has the index of the scaled digits. -/
theorem index_reread (x : Binary64) :
    x.reread.index =
      (scaleByTen (ofQuotient x.written.coefficient 1) x.written.exponent).index := by
  rw [reread, index_withNegative]

theorem negative_reread (x : Binary64) : x.reread.negative = x.negative := by
  rw [reread]

/-- A short coefficient with a small power of ten is read exactly. -/
theorem reread_eq_self (hx : x.IsFinite) (hcoefficient : x.written.coefficient ≤ 2 ^ 53)
    (hexponent : x.written.exponent.natAbs ≤ 22) : x.reread = x := by
  have hindex := x.isFinite_iff_index_lt.1 hx
  rw [← ofIndex_index x.reread, negative_reread, index_reread,
    index_scaleByTen_of_exact hcoefficient hexponent, ← Decimal.value, (written_bounds hx).2.2,
    min_eq_left hindex.le, ofIndex_index]

/-- The digits of a finite double round to a finite double. -/
theorem closeTo_written (hx : x.IsFinite) (hpos : 0 < x.written.coefficient) :
    (ofQuotient x.written.coefficient 1).IsFinite ∧
      CloseTo 1 (ofQuotient x.written.coefficient 1).magnitude x.written.coefficient := by
  have hle : (x.written.coefficient : ℚ) ≤ 10 ^ 308 := by
    have hpow : (10 : ℚ) ^ 17 ≤ 10 ^ 308 := pow_le_pow_right₀ (by norm_num) (by norm_num)
    exact (by exact_mod_cast (written_bounds hx).1 : (x.written.coefficient : ℚ) ≤ 10 ^ 17).trans
      hpow
  refine ⟨?_, closeTo_ofQuotient hpos hle⟩
  rw [isFinite_iff_index_lt, index_ofQuotient _ one_pos, Nat.cast_one, div_one]
  exact (min_le_left _ _).trans_lt (place_lt_infinityIndex (Nat.cast_nonneg _) hle)

/-- The place of what is read lies near to that of the double, or both are the place of the
  infinities. Only a small power of ten takes it further away than three places. -/
theorem exists_index_reread (hx : x.IsFinite) :
    ∃ n k, n ≤ 7 ∧ (-308 ≤ x.written.exponent → n ≤ 2) ∧ k ≤ x.index + (n + 1) ∧
      x.index ≤ k + (n + 1) ∧ x.reread.index = min k infinityIndex := by
  obtain ⟨-, hlow, hplace⟩ := written_bounds hx
  rcases Nat.eq_zero_or_pos x.written.coefficient with hzero | hpos
  · have hindex : x.index = 0 := by
      rw [← hplace, Decimal.value_eq_zero hzero, place_zero]
    refine ⟨0, 0, by norm_num, by norm_num, by omega, by omega, ?_⟩
    rw [index_reread, hzero, scaleByTen, if_pos isZero_ofQuotient_zero, isZero_ofQuotient_zero,
      Nat.zero_min]
  · obtain ⟨hfinite, hclose⟩ := closeTo_written hx hpos
    obtain ⟨n, w, hn, hn', hw, hindex⟩ := exists_closeTo_scaleByTen hfinite
      (by exact_mod_cast hpos) hclose (by omega) (written_exponent_le hx hpos)
    rw [← Decimal.value] at hw
    rw [← index_reread] at hindex
    -- Close numbers have close places.
    have hle := hw.place_le (by omega)
    have hge := hw.symm.place_le (by omega)
    rw [hplace] at hle hge
    exact ⟨n, place w, hn, hn', hle, hge, hindex⟩

/-- The greatest doubles do not overflow when they are read. -/
theorem index_reread_lt_of_greatest (negative : Bool) {k : ℕ} (hlow : infinityIndex - 3 ≤ k)
    (hhigh : k < infinityIndex) : (ofIndex negative k).reread.index < infinityIndex := by
  obtain rfl | rfl | rfl :
      k = infinityIndex - 1 ∨ k = infinityIndex - 2 ∨ k = infinityIndex - 3 := by omega
  all_goals cases negative <;> decide +kernel

/-- A finite double is read as a finite double. -/
theorem isFinite_reread (hx : x.IsFinite) : x.reread.IsFinite := by
  have hindex := x.isFinite_iff_index_lt.1 hx
  obtain ⟨hcoefficient, hlow, -⟩ := written_bounds hx
  obtain ⟨n, k, -, hn, hle, -, hk⟩ := exists_index_reread hx
  rw [isFinite_iff_index_lt]
  -- A few places below the infinities, being near is not enough, so these doubles are computed.
  by_cases hgreatest : infinityIndex - 3 ≤ x.index
  · have := index_reread_lt_of_greatest x.negative hgreatest hindex
    rwa [ofIndex_index] at this
  · by_cases hsmall : -308 ≤ x.written.exponent
    · have := hn hsmall
      omega
    · -- Dividing the digits makes them no greater.
      obtain ⟨j, hexponent⟩ := Int.exists_eq_neg_ofNat (a := x.written.exponent) (by omega)
      have hdigits : (ofQuotient x.written.coefficient 1).IsFinite := by
        rcases Nat.eq_zero_or_pos x.written.coefficient with hzero | hpos
        · rw [hzero, isFinite_iff_index_lt, isZero_ofQuotient_zero]
          decide
        · exact (closeTo_written hx hpos).1
      rw [index_reread, hexponent]
      exact (index_scaleByTen_neg_le _ (by omega) (by omega)).trans_lt
        ((isFinite_iff_index_lt _).1 hdigits)

/-- A finite double is read near to where it is written. -/
theorem readsNear_reread (hx : x.IsFinite) : x.ReadsNear x.reread := by
  have hindex := x.isFinite_iff_index_lt.1 hx
  obtain ⟨n, k, hn, hn', hle, hge, hk⟩ := exists_index_reread hx
  refine ⟨isFinite_reread hx, negative_reread x, by omega, fun h => ?_, reread_eq_self hx⟩
  have := hn' h
  omega

end Binary64

/-! ### Reading -/

/-- A finite result is the double that is read, with the sign that was spelled. -/
theorem Binary64.scaled?_of_isFinite {d : Decimal}
    (h : (scaleByTen (ofQuotient d.coefficient 1) d.exponent).IsFinite) (negative : Bool) :
    scaled? negative d =
      some { scaleByTen (ofQuotient d.coefficient 1) d.exponent with negative := negative } :=
  if_pos h

/-- A number is written under the sign of its double. -/
theorem Json.Number.negative_ofDouble (x : Binary64) :
    (Json.Number.ofDouble x).negative = x.negative := by
  rw [Json.Number.ofDouble]
  split
  · rfl
  · rw [Json.Number.ofDecimal]
    split
    · rfl
    · split <;> rfl

/-- The coefficient of a written number fits a word. -/
theorem Json.Number.coefficient_ofDouble_lt {x : Binary64} (hx : x.IsFinite) :
    (Json.Number.ofDouble x).coefficient < 2 ^ 64 := by
  rw [← Binary64.coefficient_written]
  exact (Binary64.written_bounds hx).1.trans_lt (by norm_num)

/-- The scaled digits of a finite double are finite. -/
theorem Binary64.isFinite_scaleByTen_written {x : Binary64} (hx : x.IsFinite) :
    (scaleByTen (ofQuotient x.written.coefficient 1) x.written.exponent).IsFinite := by
  have hindex := (isFinite_iff_index_lt _).1 (isFinite_reread hx)
  rw [index_reread, ← isFinite_iff_index_lt] at hindex
  exact hindex

/-- A finite double is read from its own number. -/
theorem Json.Number.double?_ofDouble {x : Binary64} (hx : x.IsFinite) :
    (Json.Number.ofDouble x).double? = some x.reread := by
  rw [double?, wordDecimal_of_lt (coefficient_ofDouble_lt hx), ← Binary64.written,
    negative_ofDouble, Binary64.scaled?_of_isFinite (Binary64.isFinite_scaleByTen_written hx),
    Binary64.reread]

/-- Whatever is read as a double is finite. -/
theorem Json.Number.isFinite_of_double? {n : Json.Number} {x : Binary64} (h : n.double? = some x) :
    x.IsFinite := by
  rw [double?, Binary64.scaled?] at h
  split at h
  · next hfinite =>
    rw [← Option.some.inj h, Binary64.isFinite_iff_index_lt, Binary64.index_withNegative,
      ← Binary64.isFinite_iff_index_lt]
    exact hfinite
  · cases h

end Telemetry
