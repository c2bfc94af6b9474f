import Telemetry.Proofs.Decimal.General
import Telemetry.Proofs.Hash.Chunks
import Telemetry.Proofs.Json.Numeral
/-!
# The hashed text of a double

A double is hashed as its general text with six significant digits. But for the words for
infinities and NaNs this is a numeral that can be read back, so two doubles have one text only if
they stand for the same rounded number, and a double has the text of an integer only if it rounds
to it.
-/

namespace Telemetry

open Decimal (IsPlain IsScientific RoundsToSix positional sign signed)

namespace Binary64

variable {x y : Binary64}

/-! ### The text of a finite double -/

/-- Zero is written as a single digit, behind the minus of the pattern. -/
theorem generalText_of_isZero (hx : x.IsZero) : x.generalText = signed x.negative ['0'] := by
  have hfinite : x.IsFinite := (isFinite_iff_index_lt x).2 (by rw [hx]; decide)
  obtain ⟨body, htext, hplain⟩ :=
    exists_generalText_of_middle hfinite (by rw [sixDigits_of_isZero hx]; decide)
  rw [sixDigits_value_eq_zero_iff.2 hx, ← Nat.cast_zero] at hplain
  rw [htext, hplain.text_unique (Decimal.isPlain_toDigits 0), Nat.toDigits_zero,
    Decimal.sign_append]

/-- In the middle decades the text is the plain form of the rounded number. -/
theorem exists_isPlain_generalText (hx : x.IsFinite) (hm : x.sixDigits.Middle) :
    ∃ body, x.generalText = signed x.negative body ∧ IsPlain body x.sixDigits.value := by
  obtain ⟨body, htext, hplain⟩ := exists_generalText_of_middle hx hm
  exact ⟨body, htext.trans (Decimal.sign_append _ _), hplain⟩

/-- In all other decades it is in scientific notation. -/
theorem exists_isScientific_generalText (hx : x.IsFinite) (hm : ¬ x.sixDigits.Middle) :
    ∃ n zeros, x.sixDigits.coefficient = n * 10 ^ zeros ∧ n % 10 ≠ 0 ∧
      IsScientific 2 x.generalText x.negative n x.sixDigits.exponent := by
  have hzero : ¬ x.IsZero := fun h => hm (by rw [sixDigits_of_isZero h]; decide)
  obtain ⟨mantissa, htext, hplain⟩ := exists_generalText_of_not_middle hx hm
  rw [htext]
  exact SixDigits.exists_isScientific (rounds_sixDigits hzero).normal hplain x.negative

/-- The text starts with a minus exactly if the pattern has one. -/
theorem head?_generalText_eq_minus_iff (hx : x.IsFinite) :
    x.generalText.head? = some '-' ↔ x.negative = true := by
  by_cases hm : x.sixDigits.Middle
  · obtain ⟨body, htext, hplain⟩ := exists_isPlain_generalText hx hm
    rw [htext]
    exact hplain.head?_signed_eq_minus_iff
  · obtain ⟨n, zeros, -, -, hscientific⟩ := exists_isScientific_generalText hx hm
    exact hscientific.head?_eq_minus_iff

/-- The hashed text of a finite double. The exponent of its scientific notation is always legible,
  and the minus is that of the pattern. If the double is not zero, it rounds to one coefficient of
  six digits with one exponent. In the decades from `-4` to `5` the text is the plain form of the
  rounded number. In all others it is in scientific notation, with the digits of the coefficient but
  for the zeros at their end and with two digits of the exponent at least. -/
theorem generalText_of_rounds (hx : x.IsFinite) :
    (∃ mantissa e, splitExponent? x.scientificText = some (mantissa, e)) ∧
    (x.generalText.head? = some '-' ↔ x.negative = true) ∧
    (x.IsZero → x.generalText = if x.negative = true then ['-', '0'] else ['0']) ∧
    (¬ x.IsZero → ∃ m : SixDigits, m.Rounds x.magnitude ∧ (∀ n, n.Rounds x.magnitude → n = m) ∧
      (-4 ≤ m.exponent ∧ m.exponent ≤ 5 →
        ∃ body, x.generalText = signed x.negative body ∧ IsPlain body m.value) ∧
      (¬ (-4 ≤ m.exponent ∧ m.exponent ≤ 5) →
        ∃ n zeros, m.coefficient = n * 10 ^ zeros ∧ n % 10 ≠ 0 ∧
          IsScientific 2 x.generalText x.negative n m.exponent)) ∧
    (Datum.scalar .double x).hash = Fnv1a.hash (Utf8.encode x.generalText) := by
  refine ⟨⟨_, _, splitExponent?_scientificText hx⟩, head?_generalText_eq_minus_iff hx,
    generalText_of_isZero, ?_, Datum.hash_eq_hash_hashedBytes _⟩
  intro hzero
  have hrounds := rounds_sixDigits hzero
  exact ⟨x.sixDigits, hrounds, fun n hn => hn.unique hrounds, exists_isPlain_generalText hx,
    exists_isScientific_generalText hx⟩

/-- Rounding carries 999999.5 into the next decade, which is written with an exponent. The exponent
  of -6.02e-100 has three digits. -/
theorem generalText_of_carry :
    (ofBits 0x412e847f00000000).IsFinite ∧ ¬ (ofBits 0x412e847f00000000).IsZero ∧
    SixDigits.Rounds ⟨100000, 6⟩ (ofBits 0x412e847f00000000).magnitude ∧
    IsScientific 2 ['1', 'e', '+', '0', '6'] false 1 6 ∧
    (ofBits 0xab55114e2ab51c39).IsFinite ∧ ¬ (ofBits 0xab55114e2ab51c39).IsZero ∧
    SixDigits.Rounds ⟨602000, -100⟩ (ofBits 0xab55114e2ab51c39).magnitude ∧
    IsScientific 2 ['-', '6', '.', '0', '2', 'e', '-', '1', '0', '0'] true 602 (-100) := by
  -- Both doubles lie outside the middle decades, so their digits and their exponent are read off.
  have hread {x : Binary64} {m : SixDigits} {n : ℕ} (zeros : ℕ) (hx : x.IsFinite)
      (hzero : ¬ x.IsZero) (hm : x.sixDigits = m) (hout : ¬ (-4 ≤ m.exponent ∧ m.exponent ≤ 5))
      (hdigits : m.coefficient = n * 10 ^ zeros) (hn : n % 10 ≠ 0) :
      m.Rounds x.magnitude ∧ IsScientific 2 x.generalText x.negative n m.exponent := by
    obtain ⟨m', hrounds, hunique, -, hscientific⟩ := (generalText_of_rounds hx).2.2.2.1 hzero
    obtain rfl : m' = m := (hunique _ (rounds_sixDigits hzero)).symm.trans hm
    refine ⟨hrounds, Decimal.isScientific_of_mul_pow zeros hn ?_⟩
    rw [← hdigits]
    exact hscientific hout
  have hfinite : (ofBits 0x412e847f00000000).IsFinite := by decide
  have hzero : ¬ (ofBits 0x412e847f00000000).IsZero := by decide
  have htext : (ofBits 0x412e847f00000000).generalText = ['1', 'e', '+', '0', '6'] := by
    decide +kernel
  obtain ⟨hrounds, hform⟩ := hread (m := ⟨100000, 6⟩) (n := 1) 5 hfinite hzero
    (by decide +kernel) (by decide) rfl (by decide)
  rw [htext] at hform
  have hfinite' : (ofBits 0xab55114e2ab51c39).IsFinite := by decide
  have hzero' : ¬ (ofBits 0xab55114e2ab51c39).IsZero := by decide
  have htext' : (ofBits 0xab55114e2ab51c39).generalText =
      ['-', '6', '.', '0', '2', 'e', '-', '1', '0', '0'] := by
    decide +kernel
  obtain ⟨hrounds', hform'⟩ := hread (m := ⟨602000, -100⟩) (n := 602) 3 hfinite' hzero'
    (by decide +kernel) (by decide) rfl (by decide)
  rw [htext'] at hform'
  exact ⟨hfinite, hzero, hrounds, hform, hfinite', hzero', hrounds', hform'⟩

/-! ### Reading a text back -/

open Json.Number (ofSpelling?)

/-- A plain form behind a sign is read back, and so is an exponent behind it. -/
theorem ofSpelling?_plain {body : List Char} {v : ℚ} (h : IsPlain body v) (negative : Bool)
    {rest : List Char} {e : Option ℤ} (hrest : Json.Number.StopsPositional rest)
    (he : Json.Number.exponent? rest = some e) :
    ∃ n : Json.Number, ofSpelling? (sign negative ++ (body ++ rest)) = some n ∧
      n.negative = negative ∧ n.exponent = e ∧ (n.coefficient : ℚ) / 10 ^ n.places = v := by
  obtain ⟨places, coefficient, rfl, -, rfl⟩ := Decimal.isPlain_iff.1 h
  exact ⟨_, Json.Number.ofSpelling?_positional negative coefficient places hrest he, rfl, rfl, rfl⟩

/-- The exponent of a text with six significant digits is read back, zeros at its front included. -/
theorem exponent?_exponentText (m : SixDigits) :
    Json.Number.exponent? m.exponentText = some (some m.exponent) := by
  rw [SixDigits.exponentText, Json.Number.exponent?,
    Json.Number.signedExponent?_of_isDigits (by decide) (isDigits_exponentDigits m.exponent)]
  rfl

/-- What the text of a finite double is read as. -/
theorem exists_ofSpelling?_generalText (hx : x.IsFinite) :
    ∃ n : Json.Number, ofSpelling? x.generalText = some n ∧ n.negative = x.negative ∧
      (x.sixDigits.Middle →
        n.exponent = none ∧ (n.coefficient : ℚ) / 10 ^ n.places = x.sixDigits.value) ∧
      (¬ x.sixDigits.Middle → n.exponent = some x.sixDigits.exponent ∧
        (n.coefficient : ℚ) / 10 ^ n.places = x.sixDigits.coefficient / 10 ^ 5) := by
  by_cases hm : x.sixDigits.Middle
  · obtain ⟨body, htext, hplain⟩ := exists_generalText_of_middle hx hm
    obtain ⟨n, hn, hnegative, hexponent, hvalue⟩ :=
      ofSpelling?_plain hplain x.negative Json.Number.stopsPositional_nil rfl
    rw [List.append_nil] at hn
    exact ⟨n, htext ▸ hn, hnegative, fun _ => ⟨hexponent, hvalue⟩, fun h => absurd hm h⟩
  · obtain ⟨mantissa, htext, hplain⟩ := exists_generalText_of_not_middle hx hm
    obtain ⟨n, hn, hnegative, hexponent, hvalue⟩ := ofSpelling?_plain hplain x.negative
      (Json.Number.stopsPositional_cons rfl (by decide) _)
      (exponent?_exponentText x.sixDigits)
    exact ⟨n, htext ▸ hn, hnegative, fun h => absurd h hm, fun _ => ⟨hexponent, hvalue⟩⟩

/-! ### Infinities and NaNs -/

/-- Infinities and NaNs are written as words. -/
theorem generalText_of_not_isFinite (hx : ¬ x.IsFinite) : x.generalText = x.nonFiniteText := by
  rw [generalText, generalChunks, if_pos hx, List.flatten_singleton]

/-- No number is read from these words. -/
theorem ofSpelling?_nonFiniteText (x : Binary64) : ofSpelling? x.nonFiniteText = none := by
  rw [nonFiniteText]
  cases x.negative <;> split <;> decide

/-- There is a word for infinities and one for NaNs, with and without a minus. -/
theorem nonFiniteText_eq_iff :
    x.nonFiniteText = y.nonFiniteText ↔ x.negative = y.negative ∧ (x.IsNaN ↔ y.IsNaN) := by
  have hwords : ∀ a b p q : Bool,
      (sign a ++ if p = true then ['n', 'a', 'n'] else ['i', 'n', 'f']) =
        (sign b ++ if q = true then ['n', 'a', 'n'] else ['i', 'n', 'f']) ↔ a = b ∧ p = q := by
    decide
  have h := hwords x.negative y.negative (decide x.IsNaN) (decide y.IsNaN)
  rw [nonFiniteText, nonFiniteText]
  simpa only [decide_eq_true_eq, decide_eq_decide] using h

/-! ### Doubles that are hashed alike -/

/-- Neither a finite double nor a NaN. -/
abbrev IsInfinite (x : Binary64) : Prop := ¬ x.IsFinite ∧ ¬ x.IsNaN

/-- Doubles with the same sign that are both NaNs, both infinite, or both finite and round to the
  same number of six significant digits. -/
def RoundsAlike (x y : Binary64) : Prop :=
  x.negative = y.negative ∧
    (x.IsNaN ∧ y.IsNaN ∨ x.IsInfinite ∧ y.IsInfinite ∨
      x.IsFinite ∧ y.IsFinite ∧ ∃ r, RoundsToSix x.magnitude r ∧ RoundsToSix y.magnitude r)

/-- A finite double whose sign is that of an integer and whose magnitude rounds to that of the
  integer, which has six digits at most. -/
def RoundsToInteger (x : Binary64) (n : ℤ) : Prop :=
  x.IsFinite ∧ (x.negative = true ↔ n < 0) ∧ RoundsToSix x.magnitude n.natAbs ∧ n.natAbs < 10 ^ 6

theorem not_isNaN_of_isFinite (hx : x.IsFinite) : ¬ x.IsNaN := fun hnan => hx hnan.1

/-- Finite doubles with one text have the same sign and the same rounded number. -/
theorem sixDigits_value_eq_of_generalText_eq (hx : x.IsFinite) (hy : y.IsFinite)
    (h : x.generalText = y.generalText) :
    x.negative = y.negative ∧ x.sixDigits.value = y.sixDigits.value := by
  obtain ⟨n, hn, hnegative, hmiddle, hother⟩ := exists_ofSpelling?_generalText hx
  obtain ⟨n', hn', hnegative', hmiddle', hother'⟩ := exists_ofSpelling?_generalText hy
  rw [h, hn'] at hn
  cases hn
  refine ⟨hnegative.symm.trans hnegative', ?_⟩
  -- A text with an exponent is not one without.
  by_cases hm : x.sixDigits.Middle
  · obtain ⟨hexponent, hvalue⟩ := hmiddle hm
    by_cases hm' : y.sixDigits.Middle
    · exact hvalue.symm.trans (hmiddle' hm').2
    · rw [(hother' hm').1] at hexponent
      cases hexponent
  · obtain ⟨hexponent, hvalue⟩ := hother hm
    by_cases hm' : y.sixDigits.Middle
    · rw [(hmiddle' hm').1] at hexponent
      cases hexponent
    · obtain ⟨hexponent', hvalue'⟩ := hother' hm'
      rw [hexponent', Option.some.injEq] at hexponent
      rw [hvalue', div_left_inj' (by norm_num)] at hvalue
      rw [SixDigits.value, SixDigits.value, hexponent, hvalue]

/-- Finite doubles with the same sign and the same rounded number have one text. -/
theorem generalText_eq_of_sixDigits_value_eq (hx : x.IsFinite) (hy : y.IsFinite)
    (hnegative : x.negative = y.negative) (h : x.sixDigits.value = y.sixDigits.value) :
    x.generalText = y.generalText := by
  have hdigits := sixDigits_eq_of_value_eq h
  by_cases hm : x.sixDigits.Middle
  · have hm' : y.sixDigits.Middle := by rwa [← hdigits]
    obtain ⟨body, htext, hplain⟩ := exists_generalText_of_middle hx hm
    obtain ⟨body', htext', hplain'⟩ := exists_generalText_of_middle hy hm'
    rw [h] at hplain
    rw [htext, htext', hnegative, hplain.text_unique hplain']
  · have hm' : ¬ y.sixDigits.Middle := by rwa [← hdigits]
    obtain ⟨mantissa, htext, hplain⟩ := exists_generalText_of_not_middle hx hm
    obtain ⟨mantissa', htext', hplain'⟩ := exists_generalText_of_not_middle hy hm'
    rw [hdigits] at hplain
    rw [htext, htext', hnegative, hdigits, hplain.text_unique hplain']

/-- The text of a finite double is none of the words. -/
theorem generalText_ne_of_not_isFinite (hx : x.IsFinite) (hy : ¬ y.IsFinite) :
    x.generalText ≠ y.generalText := by
  intro h
  obtain ⟨n, hn, -⟩ := exists_ofSpelling?_generalText hx
  rw [h, generalText_of_not_isFinite hy, ofSpelling?_nonFiniteText] at hn
  cases hn

/-- Finite doubles have one text if they round alike. -/
theorem generalText_eq_iff_of_isFinite (hx : x.IsFinite) (hy : y.IsFinite) :
    x.generalText = y.generalText ↔ x.RoundsAlike y := by
  have hroundsx := roundsToSix_sixDigits x
  have hroundsy := roundsToSix_sixDigits y
  constructor
  · intro h
    obtain ⟨hnegative, hvalue⟩ := sixDigits_value_eq_of_generalText_eq hx hy h
    rw [← hvalue] at hroundsy
    exact ⟨hnegative, Or.inr (Or.inr ⟨hx, hy, _, hroundsx, hroundsy⟩)⟩
  · rintro ⟨hnegative, ⟨hnan, -⟩ | ⟨hinfinite, -⟩ | ⟨-, -, r, hr, hr'⟩⟩
    · exact absurd hnan (not_isNaN_of_isFinite hx)
    · exact absurd hx hinfinite.1
    · exact generalText_eq_of_sixDigits_value_eq hx hy hnegative
        ((hroundsx.unique hr).trans (hr'.unique hroundsy))

/-- Infinities and NaNs have one text if they are of one sort and have one sign. -/
theorem generalText_eq_iff_of_not_isFinite (hx : ¬ x.IsFinite) (hy : ¬ y.IsFinite) :
    x.generalText = y.generalText ↔ x.RoundsAlike y := by
  rw [generalText_of_not_isFinite hx, generalText_of_not_isFinite hy, nonFiniteText_eq_iff]
  apply and_congr_right
  intro _
  constructor
  · intro hsame
    by_cases hnan : x.IsNaN
    · exact Or.inl ⟨hnan, hsame.1 hnan⟩
    · exact Or.inr (Or.inl ⟨⟨hx, hnan⟩, hy, fun hnan' => hnan (hsame.2 hnan')⟩)
  · rintro (⟨hnan, hnan'⟩ | ⟨hinfinite, hinfinite'⟩ | ⟨hfinite, -⟩)
    · exact iff_of_true hnan hnan'
    · exact iff_of_false hinfinite.2 hinfinite'.2
    · exact absurd hfinite hx

/-- Doubles have one text exactly if they round alike. -/
theorem generalText_eq_iff : x.generalText = y.generalText ↔ x.RoundsAlike y := by
  by_cases hx : x.IsFinite
  · by_cases hy : y.IsFinite
    · exact generalText_eq_iff_of_isFinite hx hy
    · refine iff_of_false (generalText_ne_of_not_isFinite hx hy) ?_
      rintro ⟨-, ⟨hnan, -⟩ | ⟨hinfinite, -⟩ | ⟨-, hy', -⟩⟩
      · exact not_isNaN_of_isFinite hx hnan
      · exact hinfinite.1 hx
      · exact hy hy'
  · by_cases hy : y.IsFinite
    · refine iff_of_false (generalText_ne_of_not_isFinite hy hx).symm ?_
      rintro ⟨-, ⟨-, hnan⟩ | ⟨-, hinfinite⟩ | ⟨hx', -⟩⟩
      · exact not_isNaN_of_isFinite hy hnan
      · exact hinfinite.1 hy
      · exact hx hx'
    · exact generalText_eq_iff_of_not_isFinite hx hy

theorem RoundsAlike.symm (h : x.RoundsAlike y) : y.RoundsAlike x :=
  generalText_eq_iff.1 (generalText_eq_iff.2 h).symm

/-! ### Doubles that are hashed like an integer -/

/-- A double that rounds to an integer of six digits at most is written positionally. -/
theorem middle_of_roundsToInteger {n : ℤ} (h : x.RoundsToInteger n) :
    x.sixDigits.Middle ∧ x.sixDigits.value = n.natAbs := by
  obtain ⟨-, -, hrounds, hlt⟩ := h
  have hvalue := (roundsToSix_sixDigits x).unique hrounds
  refine ⟨?_, hvalue⟩
  by_cases hzero : x.IsZero
  · rw [sixDigits_of_isZero hzero]
    decide
  · obtain ⟨hlow, hhigh⟩ := (rounds_sixDigits hzero).normal.value_bounds
    have hpos : (0 : ℚ) < x.sixDigits.value := (zpow_pos (by norm_num) _).trans_le hlow
    -- A positive integer below a million has its first digit in one of the places `0` to `5`.
    have hone : (10 : ℚ) ^ (0 : ℤ) ≤ x.sixDigits.value := by
      rw [hvalue] at hpos ⊢
      rw [zpow_zero]
      exact_mod_cast hpos
    have hmillion : x.sixDigits.value < 10 ^ ((5 : ℤ) + 1) := by
      rw [hvalue]
      exact_mod_cast hlt
    have hleast := Decimal.exponent_le_of_bounds hone hhigh
    have hgreatest := Decimal.exponent_le_of_bounds hlow hmillion
    exact ⟨by omega, hgreatest⟩

/-- In the middle decades numbers stay below a million. -/
theorem value_lt_of_middle (hm : x.sixDigits.Middle) : x.sixDigits.value < 10 ^ 6 := by
  by_cases hzero : x.IsZero
  · rw [sixDigits_value_eq_zero_iff.2 hzero]
    norm_num
  · have hhigh := (rounds_sixDigits hzero).normal.value_bounds.2
    have hle : (10 : ℚ) ^ (x.sixDigits.exponent + 1) ≤ 10 ^ (6 : ℤ) :=
      zpow_le_zpow_right₀ (by norm_num) (by have := hm.2; omega)
    exact_mod_cast hhigh.trans_le hle

/-- A double has the text of an integer exactly if it rounds to it. -/
theorem generalText_eq_integer_iff {n : ℤ} :
    x.generalText = Decimal.integer n ↔ x.RoundsToInteger n := by
  constructor
  · intro h
    have hread := Json.Number.ofSpelling?_integer n
    rw [Json.Number.ofInt] at hread
    by_cases hx : x.IsFinite
    · obtain ⟨m, hm, hnegative, hmiddle, hother⟩ := exists_ofSpelling?_generalText hx
      rw [h, hread, Option.some.injEq] at hm
      subst hm
      -- The text of an integer has no exponent, so the double is written positionally.
      have hdecade : x.sixDigits.Middle := by
        by_contra hdecade
        exact absurd (hother hdecade).1 (by simp)
      have hvalue : (n.natAbs : ℚ) = x.sixDigits.value := by simpa using (hmiddle hdecade).2
      refine ⟨hx, by simp [← hnegative], ?_, ?_⟩
      · rw [hvalue]
        exact roundsToSix_sixDigits x
      · have hlt := value_lt_of_middle hdecade
        rw [← hvalue] at hlt
        exact_mod_cast hlt
    · rw [← h, generalText_of_not_isFinite hx, ofSpelling?_nonFiniteText] at hread
      cases hread
  · intro h
    -- Both texts are the plain form of one number behind one sign.
    obtain ⟨hdecade, hvalue⟩ := middle_of_roundsToInteger h
    obtain ⟨hx, hsign, -⟩ := h
    obtain ⟨body, htext, hplain⟩ := exists_generalText_of_middle hx hdecade
    rw [hvalue] at hplain
    have hnegative : x.negative = decide (n < 0) := by
      rw [Bool.eq_iff_iff, decide_eq_true_eq]
      exact hsign
    rw [htext, hplain.text_unique (Decimal.isPlain_toDigits n.natAbs), hnegative, Decimal.integer]

end Binary64

end Telemetry
