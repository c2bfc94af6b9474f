import Telemetry.Proofs.Binary64.Fewest
import Telemetry.Proofs.Decimal.Scientific
import Telemetry.Proofs.Value.FixedText
/-!
# The JSON text of a double

A finite double is written with the digits of its shortest decimal. Where the first digit stands
near the point, the text is in fixed notation and always has a fraction, so zeros may stand before
the digits and behind them. Otherwise the text has one digit before the point and an exponent.
-/

namespace Telemetry

/-! ### Significant digits -/

namespace Decimal

/-- The digits of a numeral before its exponent, without the zeros before and behind them. -/
def significantDigits (text : List Char) : List Char :=
  withoutTrailing '0' (((text.takeWhile (· ≠ 'e')).filter Char.isDigit).dropWhile (· = '0'))

/-- The digits of a positive number do not start with zeros. -/
theorem dropWhile_zero_toDigits {n : ℕ} (hn : 0 < n) :
    (Nat.toDigits 10 n).dropWhile (· = '0') = Nat.toDigits 10 n := by
  obtain ⟨c, rest, hcons⟩ := List.exists_cons_of_ne_nil (Nat.toDigits_ne_nil (n := n) (b := 10))
  have hhead := head?_toDigits_ne_zero hn
  rw [hcons] at hhead ⊢
  exact List.dropWhile_cons_of_neg (by simpa using hhead)

/-- The last digits of a number that has no others are its digits behind zeros. -/
theorem dropWhile_zero_lowDigits {places n : ℕ} (hn : 0 < n) (h : n < 10 ^ places) :
    (lowDigits places n).dropWhile (· = '0') = Nat.toDigits 10 n := by
  induction places with
  | zero =>
    rw [pow_zero] at h
    omega
  | succ places ih =>
    rcases Nat.lt_or_ge n (10 ^ places) with hlt | hge
    · rw [lowDigits, Nat.div_eq_of_lt hlt, List.dropWhile_cons_of_pos (by decide), ih hlt]
    · have hfirst : n / 10 ^ places < 10 := by
        rw [Nat.div_lt_iff_lt_mul (by positivity), ← Nat.pow_succ']
        exact h
      have hdigits : lowDigits (places + 1) n = Nat.toDigits 10 n := by
        rw [toDigits_eq_append_lowDigits hge, Nat.toDigits_of_lt_base hfirst, lowDigits,
          Nat.mod_eq_of_lt hfirst, List.singleton_append]
      rw [hdigits, dropWhile_zero_toDigits hn]

/-- Without its point and the zeros at its front, a positional notation consists of the digits. -/
theorem dropWhile_zero_positional {n : ℕ} (hn : 0 < n) (places : ℕ) :
    (Nat.toDigits 10 (n / 10 ^ places) ++ lowDigits places n).dropWhile (· = '0') =
      Nat.toDigits 10 n := by
  rcases Nat.lt_or_ge n (10 ^ places) with hlt | hge
  · rw [Nat.div_eq_of_lt hlt, Nat.toDigits_zero, List.singleton_append,
      List.dropWhile_cons_of_pos (by decide), dropWhile_zero_lowDigits hn hlt]
  · rw [← toDigits_eq_append_lowDigits hge, dropWhile_zero_toDigits hn]

/-- The digits of a number that is no multiple of ten do not end with zeros. -/
theorem withoutTrailing_zero_toDigits {n : ℕ} (hn : n % 10 ≠ 0) :
    withoutTrailing '0' (Nat.toDigits 10 n) = Nat.toDigits 10 n := by
  have hlast : Nat.digitChar (n % 10) ≠ '0' := by simpa using hn
  rcases Nat.lt_or_ge n 10 with hlt | hge
  · rw [Nat.mod_eq_of_lt hlt] at hlast
    rw [Nat.toDigits_of_lt_base hlt]
    exact withoutTrailing_concat_of_ne hlast []
  · rw [Nat.toDigits_of_base_le (by decide) hge, withoutTrailing_concat_of_ne hlast]

/-- A sign has no digit. -/
theorem filter_isDigit_sign (negative : Bool) : (sign negative).filter Char.isDigit = [] := by
  cases negative <;> rfl

/-- The digits of a positional notation are those around its point. -/
theorem filter_isDigit_positional (places n : ℕ) :
    (positional places n).filter Char.isDigit =
      Nat.toDigits 10 (n / 10 ^ places) ++ lowDigits places n := by
  have hwhole : (Nat.toDigits 10 (n / 10 ^ places)).filter Char.isDigit =
      Nat.toDigits 10 (n / 10 ^ places) :=
    List.filter_eq_self.2 fun _ => isDigit_of_mem_toDigits
  have hfraction : (pointed (lowDigits places n)).filter Char.isDigit = lowDigits places n := by
    have hdigits : (lowDigits places n).filter Char.isDigit = lowDigits places n :=
      List.filter_eq_self.2 fun _ => isDigit_of_mem_lowDigits
    cases hlow : lowDigits places n with
    | nil => rfl
    | cons c rest =>
      rw [hlow] at hdigits
      exact (List.filter_cons_of_neg (by decide)).trans hdigits
  rw [positional, List.filter_append, hwhole, hfraction]

/-! ### The first digit -/

/-- The exponent of the first digit. -/
def firstExponent (d : Decimal) : ℤ := d.exponent + digitCount d.coefficient - 1

/-- The exponent of the first digit puts a decimal between two powers of ten. -/
theorem firstExponent_bounds {d : Decimal} (h : d.coefficient ≠ 0) :
    (10 : ℚ) ^ d.firstExponent ≤ d.value ∧ d.value < 10 ^ (d.firstExponent + 1) := by
  have hfirst : d.firstExponent = digitCount d.coefficient - 1 + d.exponent := by
    rw [firstExponent]
    omega
  have hnext : d.firstExponent + 1 = digitCount d.coefficient + d.exponent := by
    rw [firstExponent]
    omega
  rw [hnext, hfirst]
  exact value_bounds h

end Decimal

/-! ### Numbers -/

namespace Json.Number

open Decimal (significantDigits)

/-- The significant digits of a number are those of its coefficient without zeros at its end. -/
theorem significantDigits_spelling {n : Number} {c k : ℕ} (hn : n.coefficient = c * 10 ^ k)
    (hc : c % 10 ≠ 0) : significantDigits n.spelling = Nat.toDigits 10 c := by
  have hmantissa : n.spelling.takeWhile (· ≠ 'e') =
      Decimal.sign n.negative ++ Decimal.positional n.places n.coefficient := by
    have hfree : 'e' ∉ Decimal.sign n.negative ++ Decimal.positional n.places n.coefficient :=
      Decimal.not_mem_sign_positional rfl (by decide) (by decide) _ _ _
    have hne : ∀ c ∈ Decimal.sign n.negative ++ Decimal.positional n.places n.coefficient,
        decide (c ≠ 'e') = true := by
      intro c hc
      exact decide_eq_true fun heq => hfree (heq ▸ hc)
    rw [spelling, List.takeWhile_append_of_pos hne]
    cases n.exponent with
    | none => exact List.append_nil _
    | some e =>
      rw [exponentSpelling, List.takeWhile_cons_of_neg (by decide), List.append_nil]
  have hcpos : 0 < c := by omega
  have hpos : 0 < n.coefficient := by
    rw [hn]
    positivity
  rw [significantDigits, hmantissa, List.filter_append, Decimal.filter_isDigit_sign,
    List.nil_append, Decimal.filter_isDigit_positional, Decimal.dropWhile_zero_positional hpos, hn,
    Decimal.toDigits_mul_pow hcpos, Decimal.withoutTrailing_append_replicate,
    Decimal.withoutTrailing_zero_toDigits hc]

/-- The layout of a decimal appends zeros at most. -/
theorem exists_coefficient_ofDecimal (negative : Bool) (d : Decimal) :
    ∃ k, (ofDecimal negative d).coefficient = d.coefficient * 10 ^ k := by
  rw [ofDecimal]
  split
  · exact ⟨0, (Nat.mul_one _).symm⟩
  · split
    · exact ⟨0, (Nat.mul_one _).symm⟩
    · exact ⟨d.exponent.toNat + 1, rfl⟩

/-- The layout of a decimal keeps its value. -/
theorem value_decimal_ofDecimal (negative : Bool) (d : Decimal) :
    (ofDecimal negative d).decimal.value = d.value := by
  rcases decimal_ofDecimal negative d with h | ⟨hwhole, -, h⟩
  · rw [h]
  · obtain ⟨n, hn⟩ := Int.eq_ofNat_of_zero_le hwhole
    rw [h, Decimal.value, Decimal.value, hn, Int.toNat_natCast, Nat.cast_mul, Nat.cast_pow,
      Nat.cast_ofNat, pow_succ, zpow_neg, zpow_one, zpow_natCast, ← mul_assoc,
      mul_inv_cancel_right₀ (by norm_num)]

/-- A number without an exponent and with a fraction is spelled in fixed notation. -/
theorem isFixed_spelling {n : Number} (hexponent : n.exponent = none) (hplaces : 0 < n.places) :
    Decimal.IsFixed n.spelling n.negative n.places n.decimal.value := by
  obtain ⟨places, hp⟩ := Nat.exists_eq_succ_of_ne_zero hplaces.ne'
  have hvalue : n.decimal.value = n.coefficient / 10 ^ (places + 1) := by
    rw [Decimal.value, decimal, hexponent, hp, Option.getD_none, zero_sub, zpow_neg, zpow_natCast,
      div_eq_mul_inv]
  rw [hvalue, spelling, hexponent, exponentSpelling, List.append_nil, hp]
  exact Decimal.isFixed_positional n.negative places n.coefficient

/-- A number with an exponent and with one digit before the point is spelled in scientific
  notation. The exponent is not padded. -/
theorem isScientific_spelling {n : Number} {e : ℤ} (hexponent : n.exponent = some e)
    (hplaces : n.places = Decimal.digitCount n.coefficient - 1) (hpos : 0 < n.coefficient) :
    Decimal.IsScientific 1 n.spelling n.negative n.coefficient e := by
  have hlow := Decimal.pow_digitCount_sub_one_le hpos
  have hhigh : n.coefficient < 10 ^ (n.places + 1) := by
    rw [hplaces, Nat.sub_add_cancel (Decimal.digitCount_pos _)]
    exact Decimal.lt_pow_digitCount _
  rw [← hplaces] at hlow
  rw [spelling, hexponent, exponentSpelling, List.append_assoc]
  exact Decimal.isScientific_positional n.negative hlow hhigh (Decimal.isDigits_toDigits _)

/-- Near the point a decimal is laid out in fixed notation. It keeps its places, and a whole number
  gets one. -/
theorem isFixed_spelling_ofDecimal (negative : Bool) {d : Decimal}
    (hlow : -5 ≤ d.firstExponent) (hhigh : d.firstExponent ≤ 15) :
    Decimal.IsFixed (ofDecimal negative d).spelling negative (max 1 (-d.exponent).toNat)
      d.value := by
  have hnear : ¬ (d.firstExponent < -5 ∨ 15 < d.firstExponent) := by omega
  rw [Decimal.firstExponent] at hnear
  rw [← value_decimal_ofDecimal negative d]
  rcases Int.lt_or_le d.exponent 0 with hneg | hwhole
  · have hlayout : ofDecimal negative d = ⟨negative, d.coefficient, d.exponent.natAbs, none⟩ := by
      rw [ofDecimal, if_neg hnear, if_pos hneg]
    have hplaces : max 1 (-d.exponent).toNat = d.exponent.natAbs := by omega
    rw [hlayout, hplaces]
    exact isFixed_spelling rfl (Int.natAbs_pos.2 hneg.ne)
  · have hlayout : ofDecimal negative d =
        ⟨negative, d.coefficient * 10 ^ (d.exponent.toNat + 1), 1, none⟩ := by
      rw [ofDecimal, if_neg hnear, if_neg (Int.not_lt.2 hwhole)]
    have hplaces : max 1 (-d.exponent).toNat = 1 := by omega
    rw [hlayout, hplaces]
    exact isFixed_spelling rfl Nat.one_pos

/-- Far from the point a decimal is laid out in scientific notation. -/
theorem isScientific_spelling_ofDecimal (negative : Bool) {d : Decimal} (hd : 0 < d.coefficient)
    (hfar : ¬ (-5 ≤ d.firstExponent ∧ d.firstExponent ≤ 15)) :
    Decimal.IsScientific 1 (ofDecimal negative d).spelling negative d.coefficient
      d.firstExponent := by
  have hlayout : ofDecimal negative d = ⟨negative, d.coefficient,
      Decimal.digitCount d.coefficient - 1, some d.firstExponent⟩ := by
    rw [ofDecimal, if_pos (by rw [Decimal.firstExponent] at hfar; omega), Decimal.firstExponent]
  rw [hlayout]
  exact isScientific_spelling rfl rfl hd

end Json.Number

/-! ### Doubles -/

namespace Binary64

open Decimal (IsFixed IsScientific digitCount significantDigits)

variable {x : Binary64}

/-- The text of a double is its number under the name of the kind. -/
theorem encode_double (hx : x.IsFinite) :
    (StoredValue.scalar .double x).encode =
      "\x7b\"Double\":" ++ String.ofList (Json.Number.ofDouble x).spelling ++ "\x7d" := by
  have hjson : (StoredValue.scalar .double x).toJson =
      .object [("Double", .number (.ofDouble x))] :=
    congrArg (fun j => Json.object [("Double", j)]) (if_pos hx)
  have hopen : String.ofList ('\x7b' :: (Json.Quoted.spelling "Double".toList ++ [':'])) =
      "\x7b\"Double\":" := by decide +kernel
  have hclose : String.ofList ['\x7d'] = "\x7d" := by decide +kernel
  rw [StoredValue.encode, hjson, Json.render_singleton, Json.render_number, hopen, hclose]

/-- A double is the nearest one to a decimal if the decimal rounds to its place under its sign. -/
theorem nearest?_eq_some_iff {negative : Bool} {d : Decimal} :
    nearest? negative d = some x ↔
      x.IsFinite ∧ x.negative = negative ∧ RoundsToPlace d.value x.index := by
  have hrounds := roundsToPlace_place d.value_nonneg
  rw [nearest?_eq, isFinite_iff_index_lt]
  constructor
  · intro h
    split at h
    · next hlt =>
      obtain rfl := Option.some.inj h
      rw [index_ofIndex _ (hlt.trans (by decide))]
      exact ⟨hlt, rfl, hrounds⟩
    · cases h
  · rintro ⟨hlt, rfl, h⟩
    rw [hrounds.unique h, if_pos hlt, ofIndex_index]

/-- The shortest decimal does not end in a zero. -/
theorem shortest_coefficient_mod_ten_ne_zero (hx : x.IsFinite) (hnonzero : ¬ x.IsZero) :
    x.shortest.coefficient % 10 ≠ 0 := by
  obtain ⟨d, hfound⟩ := Option.ne_none_iff_exists'.1 (search_ne_none hx hnonzero)
  obtain ⟨-, -, -, hreads⟩ := exists_of_search hfound
  rw [shortest, hfound, Option.getD_some]
  exact Decimal.reduce_coefficient_mod_ten_ne_zero (hreads.coefficient_ne_zero hx hnonzero)

/-- A decimal is read as a double only under the sign of the double. -/
theorem readsBack_of_nearest? {negative : Bool} {d : Decimal} (h : nearest? negative d = some x) :
    x.negative = negative ∧ x.ReadsBack d := by
  obtain ⟨-, rfl, -⟩ := nearest?_eq_some_iff.1 h
  exact ⟨rfl, h⟩

/-! ### Main statement -/

/-- A finite double other than zero is written with the digits of a decimal `d` that reads back as
  the double. It has seventeen digits at most and no zero at its end; no decimal with fewer digits
  reads back, and none with as many digits that reads back is closer. The exponent `e` of the first
  digit decides the form: fixed, with the places of `d` and one at least, or scientific. A decimal
  reads back as the double of its sign to whose place it rounds, of two equally near ones the even
  one. -/
theorem encoded_double_shortest :
    (∀ x : Binary64, x.IsFinite → ¬ x.IsZero → ∃ (text : List Char) (d : Decimal) (e : ℤ),
      (StoredValue.scalar .double x).encode =
        "\x7b\"Double\":" ++ String.ofList text ++ "\x7d" ∧
      significantDigits text = Nat.toDigits 10 d.coefficient ∧ d.coefficient % 10 ≠ 0 ∧
      digitCount d.coefficient ≤ 17 ∧
      (∃ n, Json.Number.ofSpelling? text = some n ∧
        n.negative = x.negative ∧ n.decimal.value = d.value) ∧
      nearest? x.negative d = some x ∧
      (∀ (negative : Bool) (d' : Decimal), nearest? negative d' = some x →
        negative = x.negative ∧ digitCount d.coefficient ≤ digitCount d'.coefficient ∧
        (digitCount d'.coefficient = digitCount d.coefficient →
          |d.value - x.magnitude| ≤ |d'.value - x.magnitude|)) ∧
      (10 : ℚ) ^ e ≤ d.value ∧ d.value < 10 ^ (e + 1) ∧
      if -5 ≤ e ∧ e ≤ 15 then IsFixed text x.negative (max 1 (-d.exponent).toNat) d.value
      else IsScientific 1 text x.negative d.coefficient e) ∧
    ∀ (negative : Bool) (d : Decimal) (x : Binary64), nearest? negative d = some x ↔
      x.IsFinite ∧ x.negative = negative ∧ RoundsToPlace d.value x.index := by
  refine ⟨?_, fun _ _ _ => nearest?_eq_some_iff⟩
  intro x hx hnonzero
  have hlayout : Json.Number.ofDouble x = .ofDecimal x.negative x.shortest := if_neg hnonzero
  have hreads := readsBack_shortest hx
  have hpos := hreads.coefficient_ne_zero hx hnonzero
  have hlast := shortest_coefficient_mod_ten_ne_zero hx hnonzero
  obtain ⟨k, hk⟩ := Json.Number.exists_coefficient_ofDecimal x.negative x.shortest
  obtain ⟨hlow, hhigh⟩ := Decimal.firstExponent_bounds hpos
  refine ⟨(Json.Number.ofDecimal x.negative x.shortest).spelling, x.shortest,
    x.shortest.firstExponent, ?_, Json.Number.significantDigits_spelling hk hlast, hlast,
    digitCount_shortest_le hx hnonzero, ?_, hreads, ?_, hlow, hhigh, ?_⟩
  · rw [← hlayout]
    exact encode_double hx
  · -- The text spells the shortest decimal.
    refine ⟨_, Json.Number.ofSpelling?_spelling _, ?_, Json.Number.value_decimal_ofDecimal _ _⟩
    rw [← hlayout]
    exact Json.Number.negative_ofDouble x
  · -- No other decimal is shorter, or as short and closer.
    intro negative d' h
    obtain ⟨hsign, hreads'⟩ := readsBack_of_nearest? h
    exact ⟨hsign.symm, digitCount_shortest_le_of_readsBack hx hnonzero hreads',
      abs_shortest_sub_le hx hnonzero hreads'⟩
  · -- The two notations.
    split
    · next hnear => exact Json.Number.isFixed_spelling_ofDecimal _ hnear.1 hnear.2
    · next hfar =>
      exact Json.Number.isScientific_spelling_ofDecimal _ (Nat.pos_of_ne_zero hpos) hfar

/-- The least double is written with the digit `5`. That of `4e-324` reads back as well and is
  farther away. -/
theorem encoded_double_shortest_least :
    (ofBits 1).IsFinite ∧ ¬ (ofBits 1).IsZero ∧ nearest? false ⟨4, -324⟩ = some (ofBits 1) ∧
    ∃ d : Decimal,
      significantDigits ['5', 'e', '-', '3', '2', '4'] = Nat.toDigits 10 d.coefficient ∧
      d.coefficient = 5 ∧ nearest? false d = some (ofBits 1) ∧
      |d.value - (ofBits 1).magnitude| ≤ |Decimal.value ⟨4, -324⟩ - (ofBits 1).magnitude| := by
  have hfinite : (ofBits 1).IsFinite := by decide
  have hnonzero : ¬ (ofBits 1).IsZero := by decide
  have hfour : nearest? false ⟨4, -324⟩ = some (ofBits 1) := by decide +kernel
  obtain ⟨text, d, e, hencode, hdigits, -, -, -, hreads, hshortest, -⟩ :=
    encoded_double_shortest.1 _ hfinite hnonzero
  have htext : (StoredValue.scalar .double (ofBits 1)).encode =
      "\x7b\"Double\":" ++ String.ofList ['5', 'e', '-', '3', '2', '4'] ++ "\x7d" := by
    decide +kernel
  rw [htext, String.append_left_inj, String.append_right_inj, String.ofList_inj] at hencode
  subst hencode
  have hfive : d.coefficient = 5 := by
    rw [← @Nat.ofDigitChars_ten_toDigits d.coefficient, ← hdigits]
    decide +kernel
  obtain ⟨-, -, hclosest⟩ := hshortest false ⟨4, -324⟩ hfour
  refine ⟨hfinite, hnonzero, hfour, d, hdigits, hfive, hreads, hclosest ?_⟩
  rw [hfive]
  decide

end Binary64

end Telemetry
