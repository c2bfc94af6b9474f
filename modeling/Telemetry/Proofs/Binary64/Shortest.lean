import Telemetry.Proofs.Binary64.Nearest
import Telemetry.Proofs.Decimal.Value
/-!
# The shortest decimal reads back

The double nearest to a decimal depends only on the number for which the decimal stands. So a
decimal reads back as a double when its number rounds to the place of that double, and both the
trailing zeros that the writer leaves out and the way in which it found the digits are of no
matter.
-/

namespace Telemetry.Binary64

/-! ### Underflow and overflow -/

/-- Up to half of the least positive double, numbers round to zero. -/
theorem place_eq_zero {v : ℚ} (hv : 0 ≤ v) (h : v ≤ unit 0 / 2) : place v = 0 := by
  have hpos := unit_pos 0
  have hnonneg : 0 ≤ v / unit 0 := div_nonneg hv hpos.le
  refine RoundsToPlace.place_eq hv ⟨0, 0, rfl, by linarith, .inl rfl, ?_, fun _ => Even.zero⟩
  rw [Nat.cast_zero, sub_zero, abs_of_nonneg hnonneg, div_le_iff₀ hpos]
  linarith

/-- Behind the finite doubles comes the next power of two. -/
theorem magnitudeAt_infinityIndex : magnitudeAt infinityIndex = 2 ^ 1024 := by
  have h : Counts infinityIndex 2045 (2 ^ 53) := ⟨by decide, le_rfl, .inr (by decide)⟩
  rw [h.magnitudeAt_eq, unit, Nat.cast_pow, Nat.cast_ofNat, ← zpow_natCast,
    ← zpow_add₀ (by norm_num), ← zpow_natCast]
  norm_num

/-- Far below the least positive double, numbers round to zero. -/
theorem place_eq_zero_of_lt {v : ℚ} (hv : 0 ≤ v) (h : v < 10 ^ (-330 : ℤ)) : place v = 0 := by
  refine place_eq_zero hv (h.le.trans ?_)
  have hpow : (10 : ℚ) ^ (-330 : ℤ) ≤ 2 ^ (-1075 : ℤ) := by
    rw [zpow_neg, zpow_neg, zpow_ofNat, zpow_ofNat]
    exact inv_anti₀ (by positivity) (Decimal.two_pow_le_ten_pow (by decide +kernel))
  refine hpow.trans_eq ?_
  rw [unit, Nat.cast_zero, zero_sub, div_eq_mul_inv, ← zpow_sub_one₀ (by norm_num)]
  norm_num

/-- Far above the greatest double, numbers round to no finite one. -/
theorem infinityIndex_le_place {v : ℚ} (h : (10 : ℚ) ^ (310 : ℤ) ≤ v) :
    infinityIndex ≤ place v := by
  refine le_place_of_magnitudeAt_le (le_trans ?_ h)
  rw [magnitudeAt_infinityIndex, zpow_ofNat]
  exact Decimal.two_pow_le_ten_pow (by decide +kernel)

/-! ### The nearest double -/

/-- The nearest double stands at the place to which the number of a decimal rounds. There is none
  from the place of the infinities on. -/
theorem nearest?_eq (negative : Bool) (d : Decimal) :
    nearest? negative d =
      if place d.value < infinityIndex then some (ofIndex negative (place d.value)) else none := by
  rw [nearest?]
  split
  · next hzero =>
    rw [Decimal.value_eq_zero hzero, place_zero, if_pos (by decide)]
  · next hc =>
    obtain ⟨hlow, hhigh⟩ := Decimal.value_bounds hc
    simp only
    split
    · next hsmall =>
      -- The two ends of the exponents are decided without any rounding.
      have hlt : d.value < 10 ^ (-330 : ℤ) := by
        refine hhigh.trans_le (zpow_le_zpow_right₀ (by norm_num) ?_)
        omega
      rw [place_eq_zero_of_lt d.value_nonneg hlt, if_pos (by decide)]
    · split
      · next hlarge =>
        have hle := infinityIndex_le_place
          ((zpow_le_zpow_right₀ (by norm_num) hlarge).trans hlow)
        rw [if_neg (Nat.not_lt.2 hle)]
      · -- In between, the quotient that is rounded is the number itself.
        have hcast := Decimal.mul_pow_div_mul_pow d.coefficient 1 10 (by norm_num) d.exponent
        rw [Nat.one_mul, Nat.cast_one, div_one] at hcast
        have hpos : 0 < d.coefficient * 10 ^ d.exponent.toNat :=
          Nat.mul_pos (Nat.pos_of_ne_zero hc) (by positivity)
        rw [nearestIndex_eq_place hpos (by positivity), hcast, Nat.cast_ofNat, ← Decimal.value]

/-- A decimal reads back as a double when its number rounds to the place of the double. -/
theorem readsBack_iff {x : Binary64} (hx : x.IsFinite) (d : Decimal) :
    x.ReadsBack d ↔ place d.value = x.index := by
  have hindex := x.isFinite_iff_index_lt.1 hx
  rw [ReadsBack, nearest?_eq]
  constructor
  · intro h
    split at h
    · next hlt =>
      rw [← Option.some.inj h, index_ofIndex _ (hlt.trans (by decide))]
    · cases h
  · intro h
    rw [h, if_pos hindex, ofIndex_index]

/-! ### The exact decimal -/

/-- The exact decimal has the value of the double. -/
theorem value_exactDecimal (x : Binary64) : x.exactDecimal.value = x.magnitude := by
  rw [exactDecimal, magnitude, numerator, denominator, Decimal.value]
  split
  · next hneg =>
    obtain ⟨n, hn⟩ := Int.exists_eq_neg_ofNat (a := x.scale) (by omega)
    rw [hn, neg_neg, Int.toNat_neg_natCast, Int.toNat_natCast, pow_zero, Nat.mul_one, zpow_neg,
      zpow_natCast, ← div_eq_mul_inv, div_eq_div_iff (by positivity) (by positivity),
      show (10 : ℚ) = 5 * 2 by norm_num, mul_pow]
    push_cast
    ring
  · next hnonneg =>
    rw [show (-x.scale).toNat = 0 by omega, pow_zero, zpow_zero, mul_one, Nat.cast_one, div_one]

/-- The exact decimal reads back. -/
theorem readsBack_exactDecimal {x : Binary64} (hx : x.IsFinite) : x.ReadsBack x.exactDecimal := by
  rw [readsBack_iff hx, value_exactDecimal, magnitude_eq_magnitudeAt, place_magnitudeAt]

/-! ### The search -/

/-- Whatever the search finds lies on one of the grids and reads back. -/
theorem exists_of_search {x : Binary64} {d : Decimal} (h : x.search = some d) :
    ∃ n < 17, d ∈ x.neighbours (Decimal.leadingExponent x.numerator x.denominator - (n : ℕ)) ∧
      x.ReadsBack d := by
  rw [search] at h
  obtain ⟨n, hn, hfound⟩ := List.exists_of_findSome?_eq_some h
  have hreads := List.find?_some hfound
  exact ⟨n, List.mem_range.1 hn, List.mem_of_find?_eq_some hfound, of_decide_eq_true hreads⟩

/-- The neighbours on a grid have its exponent and as many digits as the value has on it. -/
theorem bounds_of_mem_neighbours {x : Binary64} {e : ℤ} {n : ℕ} {d : Decimal}
    (hlt : x.magnitude < 10 ^ (e + n)) (hd : d ∈ x.neighbours e) :
    d.exponent = e ∧ d.coefficient ≤ 10 ^ n := by
  have hden := x.denominator_pos
  have hscaled : x.magnitude * 10 ^ (-e) < 10 ^ n := by
    rw [zpow_neg, ← div_eq_mul_inv, div_lt_iff₀ (by positivity), mul_comm, ← zpow_natCast,
      ← zpow_add₀ (by norm_num)]
    exact hlt
  -- Rounding is monotone, and the power of ten is a point of the grid.
  have hcloser : Decimal.roundScaled x.numerator x.denominator (-e) ≤ 10 ^ n := by
    refine (Decimal.roundsTo_roundScaled x.numerator hden (-e)).mono
      (Decimal.RoundsTo.natCast (10 ^ n)) ?_
    exact_mod_cast hscaled.le
  -- The point below the value is smaller still.
  have hbelow : x.numerator * 10 ^ (-e).toNat / (x.denominator * 10 ^ e.toNat) < 10 ^ n := by
    have hcast := Decimal.mul_pow_div_mul_pow x.numerator x.denominator 10 (by norm_num) (-e)
    rw [Nat.cast_ofNat, ← magnitude, neg_neg] at hcast
    rw [Nat.div_lt_iff_lt_mul (by positivity)]
    rw [← hcast, div_lt_iff₀ (by positivity)] at hscaled
    exact_mod_cast hscaled
  simp only [neighbours, List.mem_cons, List.not_mem_nil, or_false] at hd
  rcases hd with rfl | rfl
  · exact ⟨rfl, hcloser⟩
  · refine ⟨rfl, ?_⟩
    simp only
    split <;> omega

/-- A number that is closer to a magnitude than half of a relative rounding has its place. -/
theorem place_eq_of_abs_sub_lt {y : ℚ} {k : ℕ} (hy : 0 ≤ y)
    (h : 2 ^ 53 * (2 * |y - magnitudeAt k|) < magnitudeAt k) : place y = k := by
  have hnearest := (roundsToPlace_place hy).abs_sub_le_abs_sub k
  have htriangle := abs_sub_le (magnitudeAt k) y (magnitudeAt (place y))
  rw [abs_sub_comm (magnitudeAt k) y] at htriangle
  -- Another place would be a relative rounding away, which is too far.
  rcases lt_trichotomy (place y) k with hlt | heq | hgt
  · obtain ⟨j, rfl⟩ := Nat.exists_eq_add_of_lt hlt
    have hle : magnitudeAt (place y) ≤ magnitudeAt (place y + j) :=
      magnitudeAt_strictMono.monotone (Nat.le_add_right _ _)
    have hstep := magnitudeAt_add_one_le (place y + j)
    have := le_abs_self (magnitudeAt (place y + j + 1) - magnitudeAt (place y))
    linarith
  · exact heq
  · have hle : magnitudeAt (k + 1) ≤ magnitudeAt (place y) :=
      magnitudeAt_strictMono.monotone hgt
    have hstep := magnitudeAt_add_one_le k
    have hlt := magnitudeAt_strictMono (Nat.lt_add_one k)
    have := neg_abs_le (magnitudeAt k - magnitudeAt (place y))
    linarith

/-- A point of a grid that is rounded to is at most half a step away. -/
theorem abs_value_roundScaled_sub_le (x : Binary64) (e : ℤ) :
    |Decimal.value ⟨Decimal.roundScaled x.numerator x.denominator (-e), e⟩ - x.magnitude| ≤
      10 ^ e / 2 := by
  have hpos : (0 : ℚ) < 10 ^ e := by positivity
  have hrounds := Decimal.roundsTo_roundScaled x.numerator x.denominator_pos (-e)
  rw [← magnitude] at hrounds
  generalize Decimal.roundScaled x.numerator x.denominator (-e) = c at hrounds ⊢
  have hscaled : Decimal.value ⟨c, e⟩ - x.magnitude =
      -((x.magnitude * 10 ^ (-e) - c) * 10 ^ e) := by
    rw [Decimal.value, sub_mul, zpow_neg, inv_mul_cancel_right₀ hpos.ne']
    ring
  rw [hscaled, abs_neg, abs_mul, abs_of_pos hpos]
  have := mul_le_mul_of_nonneg_right hrounds.1 hpos.le
  linarith

/-- Seventeen digits suffice. -/
theorem search_ne_none {x : Binary64} (hx : x.IsFinite) (hnonzero : ¬ x.IsZero) :
    x.search ≠ none := by
  intro hnone
  rw [search, List.findSome?_eq_none_iff] at hnone
  -- On the finest grid, the point that is rounded to reads back.
  have hlast := hnone 16 (by decide)
  rw [List.find?_eq_none] at hlast
  refine hlast ⟨_, _⟩ (List.mem_cons_self ..) (decide_eq_true ?_)
  rw [readsBack_iff hx]
  obtain ⟨hlow, -⟩ := Decimal.leadingExponent_bounds (numerator_pos hnonzero) x.denominator_pos
  rw [← magnitude] at hlow
  generalize he : Decimal.leadingExponent x.numerator x.denominator - (16 : ℕ) = e
  -- Half a step of this grid is less than half of a relative rounding.
  have hgrid : (10 : ℚ) ^ 16 * 10 ^ e ≤ x.magnitude := by
    refine le_of_eq_of_le ?_ hlow
    rw [← zpow_natCast, ← zpow_add₀ (by norm_num), ← he]
    ring_nf
  have hpos : (0 : ℚ) < 10 ^ e := by positivity
  have hdistance := abs_value_roundScaled_sub_le x e
  refine place_eq_of_abs_sub_lt (Decimal.value_nonneg _) ?_
  rw [← magnitude_eq_magnitudeAt]
  linarith

/-! ### The shortest decimal -/

/-- The shortest decimal of a finite double reads back. -/
theorem readsBack_shortest {x : Binary64} (hx : x.IsFinite) : x.ReadsBack x.shortest := by
  rw [readsBack_iff hx, shortest, Decimal.value_reduce, ← readsBack_iff hx]
  cases hfound : x.search with
  | none => exact readsBack_exactDecimal hx
  | some d =>
    obtain ⟨-, -, -, hreads⟩ := exists_of_search hfound
    exact hreads

/-- The first digit of a positive double stands no further behind the point than that of the least
  one. -/
theorem neg_324_le_leadingExponent {x : Binary64} (hx : ¬ x.IsZero) :
    -324 ≤ Decimal.leadingExponent x.numerator x.denominator := by
  obtain ⟨-, hhigh⟩ := Decimal.leadingExponent_bounds (numerator_pos hx) x.denominator_pos
  rw [← magnitude, magnitude_eq_magnitudeAt] at hhigh
  have hleast : unit 0 ≤ magnitudeAt x.index := by
    have hone : Counts 1 0 1 := ⟨rfl, by norm_num, .inl rfl⟩
    have hle := magnitudeAt_strictMono.monotone (Nat.pos_of_ne_zero hx : 1 ≤ x.index)
    rwa [hone.magnitudeAt_eq, Nat.cast_one, one_mul] at hle
  have hunit : (10 : ℚ) ^ (-324 : ℤ) ≤ unit 0 := by
    rw [unit, Nat.cast_zero, zero_sub, zpow_neg, zpow_neg, zpow_ofNat, zpow_ofNat]
    exact inv_anti₀ (by positivity) (Decimal.two_pow_le_ten_pow (by decide +kernel))
  have hlt := (zpow_lt_zpow_iff_right₀ (by norm_num)).1 ((hunit.trans hleast).trans_lt hhigh)
  omega

/-- The shortest decimal of a finite nonzero double is positive, has at most seventeen digits or
  is the least number with eighteen, and ends at the exponent `-340` or above. -/
theorem shortest_bounds {x : Binary64} (hx : x.IsFinite) (hnonzero : ¬ x.IsZero) :
    x.shortest.coefficient ≠ 0 ∧ x.shortest.coefficient ≤ 10 ^ 17 ∧
      -340 ≤ x.shortest.exponent := by
  obtain ⟨d, hfound⟩ := Option.ne_none_iff_exists'.1 (search_ne_none hx hnonzero)
  obtain ⟨n, hn, hd, -⟩ := exists_of_search hfound
  obtain ⟨-, hhigh⟩ := Decimal.leadingExponent_bounds (numerator_pos hnonzero) x.denominator_pos
  have hleast := neg_324_le_leadingExponent hnonzero
  -- The decimal is found on a grid that is counted from the leading digit.
  have hgrid : x.magnitude <
      10 ^ (Decimal.leadingExponent x.numerator x.denominator - (n : ℕ) + ((n + 1 : ℕ) : ℤ)) := by
    rw [show Decimal.leadingExponent x.numerator x.denominator - (n : ℕ) + ((n + 1 : ℕ) : ℤ) =
      Decimal.leadingExponent x.numerator x.denominator + 1 by omega]
    exact hhigh
  obtain ⟨hexponent, hcoefficient⟩ := bounds_of_mem_neighbours hgrid hd
  obtain ⟨hle, hge⟩ := d.reduce_bounds
  have hreads := (readsBack_iff hx _).1 (readsBack_shortest hx)
  have hshortest : x.shortest = d.reduce := by rw [shortest, hfound, Option.getD_some]
  refine ⟨?_, ?_, ?_⟩
  · intro hzero
    apply hnonzero
    rw [IsZero, ← hreads, Decimal.value_eq_zero hzero, place_zero]
  · rw [hshortest]
    exact hle.trans (hcoefficient.trans (Nat.pow_le_pow_right (by norm_num) (by omega)))
  · rw [hshortest]
    omega

end Telemetry.Binary64
