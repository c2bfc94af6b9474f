import Telemetry.Proofs.Binary64.Shortest
/-!
# No decimal reads back with fewer digits

The numbers that round to a double form an interval. So whenever a decimal reads back, everything
between it and the double does, and on each grid that passes between the two one of the points
around the double reads back as well. A decimal of few digits lies on a coarse grid, or it is
separated from the double by a power of ten, which lies on every grid. This is why the search
misses none.
-/

namespace Telemetry

/-! ### Digits without trailing zeros -/

namespace Decimal

/-- A number below a power of ten has no more digits than the power has zeros. -/
theorem digitCount_le_of_lt {n k : ℕ} (hk : 0 < k) (h : n < 10 ^ k) : digitCount n ≤ k :=
  (Nat.length_toDigits_le_iff (by decide) hk).2 h

/-- Dropping the zeros at the end leaves another digit there. -/
theorem reduce_coefficient_mod_ten_ne_zero {d : Decimal} (h : d.coefficient ≠ 0) :
    d.reduce.coefficient % 10 ≠ 0 := by
  induction d using reduce.induct with
  | case1 d hlast ih =>
    have hquotient : d.coefficient / 10 ≠ 0 := by omega
    rw [reduce, if_pos hlast]
    exact ih hquotient
  | case2 d hlast =>
    rw [reduce, if_neg hlast]
    exact fun hzero => hlast ⟨h, hzero⟩

end Decimal

namespace Binary64

open Decimal (digitCount)

variable {x : Binary64} {d d' : Decimal} {e : ℤ} {c n : ℕ}

/-! ### Between a decimal and a double -/

/-- The decimal `d'` lies between the decimal `d` and the magnitude of the double. -/
def OnTheWay (x : Binary64) (d d' : Decimal) : Prop :=
  d.value ≤ d'.value ∧ d'.value ≤ x.magnitude ∨ x.magnitude ≤ d'.value ∧ d'.value ≤ d.value

/-- Decimals of one value lie on the way to each other. -/
theorem onTheWay_of_value_eq (h : d'.value = d.value) : x.OnTheWay d d' :=
  (le_total d.value x.magnitude).imp (fun hle => ⟨h.ge, h.le.trans hle⟩)
    fun hle => ⟨hle.trans h.ge, h.le⟩

/-- What lies on the way is at least as close. -/
theorem OnTheWay.abs_sub_le (h : x.OnTheWay d d') :
    |d'.value - x.magnitude| ≤ |d.value - x.magnitude| := by
  rcases h with ⟨hd, hd'⟩ | ⟨hd', hd⟩
  · rw [abs_of_nonpos (sub_nonpos.2 hd'), abs_of_nonpos (sub_nonpos.2 (hd.trans hd'))]
    linarith
  · rw [abs_of_nonneg (sub_nonneg.2 hd'), abs_of_nonneg (sub_nonneg.2 (hd'.trans hd))]
    linarith

/-- The numbers that round to a double form an interval around it. -/
theorem OnTheWay.readsBack (hx : x.IsFinite) (h : x.OnTheWay d d') (hd : x.ReadsBack d) :
    x.ReadsBack d' := by
  rw [readsBack_iff hx] at hd ⊢
  have hself : place x.magnitude = x.index := by
    rw [magnitude_eq_magnitudeAt, place_magnitudeAt]
  apply le_antisymm
  · rcases h with ⟨-, hle⟩ | ⟨-, hle⟩
    · exact (place_mono d'.value_nonneg hle).trans_eq hself
    · exact (place_mono d'.value_nonneg hle).trans_eq hd
  · rcases h with ⟨hle, -⟩ | ⟨hle, -⟩
    · exact hd.ge.trans (place_mono d.value_nonneg hle)
    · exact hself.ge.trans (place_mono x.magnitude_nonneg hle)

/-! ### The points around a double -/

/-- More units of one place make a greater number. -/
theorem value_mono {a b : ℕ} (h : a ≤ b) (e : ℤ) : Decimal.value ⟨a, e⟩ ≤ Decimal.value ⟨b, e⟩ :=
  mul_le_mul_of_nonneg_right (by exact_mod_cast h) (by positivity)

/-- On a grid, distances can be measured in its units. -/
theorem abs_value_sub_magnitude (x : Binary64) (c : ℕ) (e : ℤ) :
    |Decimal.value ⟨c, e⟩ - x.magnitude| = |x.magnitude * 10 ^ (-e) - c| * 10 ^ e := by
  have hpos : (0 : ℚ) < 10 ^ e := by positivity
  have hscaled : Decimal.value ⟨c, e⟩ - x.magnitude =
      (c - x.magnitude * 10 ^ (-e)) * 10 ^ e := by
    rw [sub_mul, zpow_neg, inv_mul_cancel_right₀ hpos.ne', Decimal.value]
  rw [hscaled, abs_mul, abs_of_pos hpos, abs_sub_comm]

/-- Two points of a grid lie around the magnitude, and the closer one comes first. -/
structure Around (x : Binary64) (e : ℤ) (below closer other : ℕ) : Prop where
  low : Decimal.value ⟨below, e⟩ ≤ x.magnitude
  high : x.magnitude ≤ Decimal.value ⟨below + 1, e⟩
  points : closer = below ∧ other = below + 1 ∨ closer = below + 1 ∧ other = below
  closest : ∀ c : ℕ, |Decimal.value ⟨closer, e⟩ - x.magnitude| ≤
    |Decimal.value ⟨c, e⟩ - x.magnitude|

/-- The two neighbours on a grid are the points around the value, the closer one first. -/
theorem exists_around (x : Binary64) (e : ℤ) :
    ∃ below closer other, x.Around e below closer other ∧
      x.neighbours e = [⟨closer, e⟩, ⟨other, e⟩] := by
  have hpos : (0 : ℚ) < 10 ^ e := by positivity
  have hrounds := Decimal.roundsTo_roundScaled x.numerator x.denominator_pos (-e)
  have hscaled := Decimal.mul_pow_div_mul_pow x.numerator x.denominator 10 (by norm_num) (-e)
  rw [Nat.cast_ofNat, neg_neg] at hscaled
  rw [neighbours]
  generalize Decimal.roundScaled x.numerator x.denominator (-e) = closer at hrounds ⊢
  have hden : 0 < x.denominator * 10 ^ e.toNat := Nat.mul_pos x.denominator_pos (by positivity)
  generalize x.numerator * 10 ^ (-e).toNat = num at hscaled ⊢
  generalize x.denominator * 10 ^ e.toNat = den at hscaled hden ⊢
  rw [← magnitude] at hrounds hscaled
  -- The magnitude in steps of the grid, and the two whole numbers around it.
  have hden' : (0 : ℚ) < den := by exact_mod_cast hden
  have hlow : ((num / den : ℕ) : ℚ) ≤ x.magnitude * 10 ^ (-e) := by
    rw [← hscaled, le_div_iff₀ hden']
    exact_mod_cast Nat.div_mul_le_self num den
  have hhigh : x.magnitude * 10 ^ (-e) < (num / den : ℕ) + 1 := by
    rw [← hscaled, div_lt_iff₀ hden', mul_comm]
    exact_mod_cast Nat.lt_mul_div_succ num hden
  generalize num / den = below at hlow hhigh ⊢
  have hnear : closer = below ∨ closer = below + 1 := by
    have hle := hrounds.sub_half_le
    have hge := hrounds.le_add_half
    have hle' : (closer : ℚ) < (below + 2 : ℕ) := by push_cast; linarith
    have hge' : (below : ℚ) < (closer + 1 : ℕ) := by push_cast; linarith
    rw [Nat.cast_lt] at hle' hge'
    omega
  refine ⟨below, closer, if closer = below then below + 1 else below, ⟨?_, ?_, ?_, ?_⟩, rfl⟩
  · rwa [zpow_neg, ← div_eq_mul_inv, le_div_iff₀ hpos] at hlow
  · rw [zpow_neg, ← div_eq_mul_inv, div_lt_iff₀ hpos] at hhigh
    rw [Decimal.value, Nat.cast_succ]
    exact hhigh.le
  · rcases hnear with h | h
    · exact Or.inl ⟨h, if_pos h⟩
    · exact Or.inr ⟨h, if_neg (by omega)⟩
  · intro c
    rw [abs_value_sub_magnitude, abs_value_sub_magnitude]
    exact mul_le_mul_of_nonneg_right (by exact_mod_cast hrounds.abs_sub_le_abs_sub c) hpos.le

/-- From every point of a grid, one of the two points around the value lies on the way. -/
theorem Around.onTheWay {below closer other : ℕ} (h : x.Around e below closer other) (c : ℕ) :
    x.OnTheWay ⟨c, e⟩ ⟨closer, e⟩ ∨ x.OnTheWay ⟨c, e⟩ ⟨other, e⟩ := by
  -- The way from below leads over the lower point, and the way from above over the upper one.
  have hway : x.OnTheWay ⟨c, e⟩ ⟨below, e⟩ ∨ x.OnTheWay ⟨c, e⟩ ⟨below + 1, e⟩ := by
    rcases Nat.lt_or_ge below c with hc | hc
    · exact Or.inr (Or.inr ⟨h.high, value_mono hc e⟩)
    · exact Or.inl (Or.inl ⟨value_mono hc e, h.low⟩)
  rcases h.points with ⟨rfl, rfl⟩ | ⟨rfl, rfl⟩
  · exact hway
  · exact hway.symm

/-- The point of a grid that the search finds, if there is one. -/
def foundOn (x : Binary64) (e : ℤ) : Option Decimal :=
  (x.neighbours e).find? fun d => x.ReadsBack d

/-- What is found on a grid reads back. -/
theorem readsBack_of_foundOn (h : x.foundOn e = some d) : x.ReadsBack d := by
  have hreads := List.find?_some h
  exact of_decide_eq_true hreads

/-- If any point of a grid reads back, then one is found that is at least as close. -/
theorem exists_foundOn_of_point (hx : x.IsFinite) (h : x.ReadsBack ⟨c, e⟩) :
    ∃ d, x.foundOn e = some d ∧
      |d.value - x.magnitude| ≤ |Decimal.value ⟨c, e⟩ - x.magnitude| := by
  obtain ⟨below, closer, other, haround, hneighbours⟩ := x.exists_around e
  rw [foundOn, hneighbours, List.find?_cons, List.find?_cons]
  by_cases hcloser : x.ReadsBack ⟨closer, e⟩
  · rw [decide_eq_true hcloser]
    exact ⟨⟨closer, e⟩, rfl, haround.closest c⟩
  · have hway := (haround.onTheWay c).resolve_left fun hway => hcloser (hway.readsBack hx h)
    rw [decide_eq_false hcloser, decide_eq_true (hway.readsBack hx h)]
    exact ⟨⟨other, e⟩, rfl, hway.abs_sub_le⟩

/-! ### Decimals of few digits -/

/-- On the way from a decimal of at most `n + 1` digits to the double lies a point of the grid that
  has `n` digits behind the first one of the double. -/
theorem exists_onTheWay (hnonzero : ¬ x.IsZero) (hd : d.coefficient ≠ 0)
    (hcount : digitCount d.coefficient ≤ n + 1) :
    ∃ c, x.OnTheWay d
      ⟨c, Decimal.leadingExponent x.numerator x.denominator - (n : ℕ)⟩ := by
  obtain ⟨hlow, -⟩ := Decimal.leadingExponent_bounds (numerator_pos hnonzero) x.denominator_pos
  rw [← magnitude] at hlow
  generalize Decimal.leadingExponent x.numerator x.denominator = first at hlow ⊢
  by_cases hgrid : first - (n : ℕ) ≤ d.exponent
  · -- The decimal itself is a point of the grid.
    obtain ⟨k, hk⟩ := Int.eq_ofNat_of_zero_le (Int.sub_nonneg_of_le hgrid)
    refine ⟨d.coefficient * 10 ^ k, onTheWay_of_value_eq ?_⟩
    rw [Decimal.value, Decimal.value, Nat.cast_mul, Nat.cast_pow, Nat.cast_ofNat, mul_assoc,
      ← zpow_natCast, ← zpow_add₀ (by norm_num), ← hk, sub_add_cancel]
  · -- The decimal lies below the power of ten at the first digit of the double.
    have hpower : Decimal.value ⟨10 ^ n, first - (n : ℕ)⟩ = 10 ^ first := by
      rw [Decimal.value, Nat.cast_pow, Nat.cast_ofNat, ← zpow_natCast,
        ← zpow_add₀ (by norm_num), add_sub_cancel]
    refine ⟨10 ^ n, Or.inl ?_⟩
    rw [hpower]
    refine ⟨(Decimal.value_bounds hd).2.le.trans ?_, hlow⟩
    exact zpow_le_zpow_right₀ (by norm_num) (by omega)

/-- A decimal that reads back as a double other than zero is not zero. -/
theorem ReadsBack.coefficient_ne_zero (hx : x.IsFinite) (hnonzero : ¬ x.IsZero)
    (h : x.ReadsBack d) : d.coefficient ≠ 0 := by
  rw [readsBack_iff hx] at h
  intro hzero
  rw [Decimal.value_eq_zero hzero, place_zero] at h
  exact hnonzero h.symm

/-- If a decimal of at most `n + 1` digits reads back, then the search finds one that is at least
  as close on the grid with `n` digits behind the first one. -/
theorem exists_foundOn (hx : x.IsFinite) (hnonzero : ¬ x.IsZero) (h : x.ReadsBack d)
    (hcount : digitCount d.coefficient ≤ n + 1) :
    ∃ d', x.foundOn (Decimal.leadingExponent x.numerator x.denominator - (n : ℕ)) = some d' ∧
      |d'.value - x.magnitude| ≤ |d.value - x.magnitude| := by
  obtain ⟨c, hway⟩ := exists_onTheWay hnonzero (h.coefficient_ne_zero hx hnonzero) hcount
  obtain ⟨d', hfound, hle⟩ := exists_foundOn_of_point hx (hway.readsBack hx h)
  exact ⟨d', hfound, hle.trans hway.abs_sub_le⟩

/-! ### The shortest decimal -/

/-- A search through a range ends at the first place at which there is something to find. -/
theorem exists_first_of_findSome?_range {α : Type} {f : ℕ → Option α} {m : ℕ} {a : α}
    (h : (List.range m).findSome? f = some a) : ∃ n < m, f n = some a ∧ ∀ i < n, f i = none := by
  induction m with
  | zero => cases h
  | succ m ih =>
    rw [List.range_succ, List.findSome?_append, Option.or_eq_some_iff] at h
    rcases h with h | ⟨hnone, hlast⟩
    · obtain ⟨n, hn, hfirst⟩ := ih h
      exact ⟨n, hn.trans (Nat.lt_succ_self m), hfirst⟩
    · rw [List.findSome?_eq_none_iff] at hnone
      rw [List.findSome?_singleton] at hlast
      exact ⟨m, Nat.lt_succ_self m, hlast, fun i hi => hnone i (List.mem_range.2 hi)⟩

/-- What the search finds first: the shortest decimal has as many digits as the grid on which it
  is found, and no coarser grid has a point that reads back. -/
theorem exists_grid_shortest (hx : x.IsFinite) (hnonzero : ¬ x.IsZero) :
    ∃ n < 17, ∃ d, digitCount x.shortest.coefficient ≤ n + 1 ∧ x.shortest.value = d.value ∧
      x.foundOn (Decimal.leadingExponent x.numerator x.denominator - (n : ℕ)) = some d ∧
      ∀ d', x.ReadsBack d' → n + 1 ≤ digitCount d'.coefficient := by
  obtain ⟨d, hfound⟩ := Option.ne_none_iff_exists'.1 (search_ne_none hx hnonzero)
  have hshortest : x.shortest = d.reduce := by rw [shortest, hfound, Option.getD_some]
  obtain ⟨n, hn, hfirst, hnone⟩ := exists_first_of_findSome?_range hfound
  refine ⟨n, hn, d, ?_, by rw [hshortest, Decimal.value_reduce], hfirst, ?_⟩
  · obtain ⟨-, hhigh⟩ := Decimal.leadingExponent_bounds (numerator_pos hnonzero) x.denominator_pos
    have hlast := Decimal.reduce_coefficient_mod_ten_ne_zero
      ((readsBack_of_foundOn hfirst).coefficient_ne_zero hx hnonzero)
    have hgrid : x.magnitude <
        10 ^ (Decimal.leadingExponent x.numerator x.denominator - (n : ℕ) + ((n + 1 : ℕ) : ℤ)) := by
      rw [Nat.cast_succ, ← add_assoc, sub_add_cancel]
      exact hhigh
    have hle := d.reduce_bounds.1.trans
      (bounds_of_mem_neighbours hgrid (List.mem_of_find?_eq_some hfirst)).2
    rw [hshortest]
    -- The one number with more digits on the grid ends in a zero.
    refine Decimal.digitCount_le_of_lt n.succ_pos (lt_of_le_of_ne hle ?_)
    intro heq
    rw [heq, pow_succ, Nat.mul_mod_left] at hlast
    exact hlast rfl
  · intro d' hd'
    by_contra hfewer
    have hpos := Decimal.digitCount_pos d'.coefficient
    obtain ⟨m, rfl⟩ : ∃ m, n = m + 1 := Nat.exists_eq_succ_of_ne_zero (by omega)
    obtain ⟨d'', hfound', -⟩ :=
      exists_foundOn hx hnonzero hd' (Nat.le_of_lt_succ (Nat.lt_of_not_le hfewer))
    have hmissed := hnone m (Nat.lt_succ_self m)
    rw [← foundOn, hfound'] at hmissed
    cases hmissed

/-- The shortest decimal has at most seventeen digits. -/
theorem digitCount_shortest_le (hx : x.IsFinite) (hnonzero : ¬ x.IsZero) :
    digitCount x.shortest.coefficient ≤ 17 := by
  obtain ⟨n, hn, -, hcount, -⟩ := exists_grid_shortest hx hnonzero
  omega

/-- No decimal with fewer digits reads back. -/
theorem digitCount_shortest_le_of_readsBack (hx : x.IsFinite) (hnonzero : ¬ x.IsZero)
    (h : x.ReadsBack d) : digitCount x.shortest.coefficient ≤ digitCount d.coefficient := by
  obtain ⟨n, -, -, hcount, -, -, hleast⟩ := exists_grid_shortest hx hnonzero
  exact hcount.trans (hleast d h)

/-- No decimal with as many digits that reads back is closer. -/
theorem abs_shortest_sub_le (hx : x.IsFinite) (hnonzero : ¬ x.IsZero) (h : x.ReadsBack d)
    (hcount : digitCount d.coefficient = digitCount x.shortest.coefficient) :
    |x.shortest.value - x.magnitude| ≤ |d.value - x.magnitude| := by
  obtain ⟨n, -, found, hle, hvalue, hfound, -⟩ := exists_grid_shortest hx hnonzero
  obtain ⟨d', hfound', hcloser⟩ := exists_foundOn hx hnonzero h (hcount.trans_le hle)
  rw [hfound, Option.some.injEq] at hfound'
  rw [hvalue, hfound']
  exact hcloser

end Binary64

end Telemetry
