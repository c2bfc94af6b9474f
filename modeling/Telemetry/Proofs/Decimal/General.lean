import Telemetry.Proofs.Decimal.Scientific
import Telemetry.Proofs.Decimal.SixDigits
/-!
# The general text of a double

The text with six significant digits is put together from two notations that are rounded apart. It
is the plain form of the rounded number or, outside the middle decades, the plain form of its
mantissa with an exponent.
-/

namespace Telemetry

/-! ### Reading integers -/

namespace Decimal

/-- A natural number is read from its digits. -/
theorem natural?_toDigits (n : ℕ) : natural? (Nat.toDigits 10 n) = some n := by
  have hdigits : (Nat.toDigits 10 n).all Char.isDigit = true :=
    List.all_eq_true.2 fun _ => isDigit_of_mem_toDigits
  rw [natural?, if_pos ⟨Nat.toDigits_ne_nil, hdigits⟩, Nat.ofDigitChars_ten_toDigits]

/-- What starts with a digit is read without a sign. -/
theorem integer?_of_isDigit {c : Char} (hc : c.isDigit = true) (rest : List Char) :
    integer? (c :: rest) = (natural? (c :: rest)).map fun (n : ℕ) => (n : ℤ) := by
  have hminus : c ≠ '-' := by
    rintro rfl
    exact absurd hc (by decide)
  have hplus : c ≠ '+' := by
    rintro rfl
    exact absurd hc (by decide)
  rw [integer?]
  · exact fun _ heq => hminus (List.cons.inj heq).1
  · exact fun _ heq => hplus (List.cons.inj heq).1

/-- An integer is read from its text. -/
theorem integer?_integer (n : ℤ) : integer? (integer n) = some n := by
  by_cases hn : n < 0
  · have habs : -(n.natAbs : ℤ) = n := by omega
    rw [integer, sign, if_pos (decide_eq_true hn), List.singleton_append, integer?,
      natural?_toDigits, Option.map_some, habs]
  · have habs : (n.natAbs : ℤ) = n := by omega
    have hread := natural?_toDigits n.natAbs
    obtain ⟨c, rest, hcons⟩ := List.exists_cons_of_ne_nil (Nat.toDigits_ne_nil (n := n.natAbs))
    have hc := isDigit_of_mem_toDigits (hcons ▸ List.mem_cons_self : c ∈ Nat.toDigits 10 n.natAbs)
    rw [hcons] at hread
    rw [integer, sign, if_neg (by simpa using hn), List.nil_append, hcons, integer?_of_isDigit hc,
      hread, Option.map_some, habs]

/-- Integers with one text are equal. -/
theorem integer_inj {m n : ℤ} : integer m = integer n ↔ m = n := by
  refine ⟨fun h => ?_, congrArg integer⟩
  have hread := integer?_integer m
  rw [h, integer?_integer, Option.some.injEq] at hread
  exact hread.symm

/-- A natural number has no sign. -/
theorem integer_natCast (n : ℕ) : integer n = Nat.toDigits 10 n := by
  simp [integer, sign]

end Decimal

namespace Binary64

open Decimal (IsDigits IsPlain IsScientific positional sign)

/-! ### The exponent of the scientific notation -/

/-- The exponent is read back behind any mantissa, as long as it fits 32 bits. -/
theorem splitExponent?_append {mantissa : List Char} (h : 'e' ∉ mantissa) {e : ℤ}
    (he : -2 ^ 31 ≤ e ∧ e < 2 ^ 31) :
    splitExponent? (mantissa ++ 'e' :: Decimal.integer e) = some (mantissa, e) := by
  have hne : ∀ c ∈ mantissa, decide (c ≠ 'e') = true := by
    intro c hc
    exact decide_eq_true fun heq => h (heq ▸ hc)
  rw [splitExponent?, List.dropWhile_append_of_pos hne, List.takeWhile_append_of_pos hne]
  simp only [List.dropWhile_cons_of_neg (p := fun c => decide (c ≠ 'e')) (a := 'e') (by simp),
    List.takeWhile_cons_of_neg (p := fun c => decide (c ≠ 'e')) (a := 'e') (by simp)]
  rw [Decimal.integer?_integer, Option.bind_eq_bind, Option.bind_some, if_pos he, List.append_nil]
  rfl

variable {x : Binary64}

/-- The exponent of a finite double is always legible, so the fallback is never reached. -/
theorem splitExponent?_scientificText (hx : x.IsFinite) :
    splitExponent? x.scientificText =
      some (sign x.negative ++ positional 5 x.sixDigits.coefficient, x.sixDigits.exponent) := by
  have hbounds := exponent_sixDigits_bounds hx
  have hfree := Decimal.not_mem_sign_positional (c := 'e') rfl (by decide) (by decide) x.negative 5
    x.sixDigits.coefficient
  rw [scientificText, ← List.append_assoc]
  exact splitExponent?_append hfree ⟨by omega, by omega⟩

/-! ### The two forms -/

namespace SixDigits

variable {m : SixDigits}

/-- The decades that are written positionally. -/
abbrev Middle (m : SixDigits) : Prop := -4 ≤ m.exponent ∧ m.exponent ≤ 5

/-- The exponent as it stands behind the mantissa. -/
def exponentText (m : SixDigits) : List Char :=
  'e' :: (if m.exponent < 0 then '-' else '+') :: exponentDigits m.exponent

end SixDigits

/-- The exponent that is read back decides about the form, so the fallback is never reached. -/
theorem generalText_of_isFinite (hx : x.IsFinite) :
    x.generalText =
      if x.sixDigits.Middle then
        Decimal.trimFraction (x.positionalText (5 - x.sixDigits.exponent).toNat)
      else
        Decimal.trimFraction (sign x.negative ++ positional 5 x.sixDigits.coefficient) ++
          x.sixDigits.exponentText := by
  have hsplit := splitExponent?_scientificText hx
  -- Both decades at the thresholds are written positionally.
  rw [generalText, generalChunks, if_neg (not_not.2 hx)]
  simp only [hsplit]
  by_cases hm : x.sixDigits.Middle
  · have hexponent : ¬ (x.sixDigits.exponent < -4 ∨ 6 ≤ x.sixDigits.exponent) := by
      obtain ⟨hlow, hhigh⟩ := hm
      omega
    rw [if_neg hexponent, if_pos hm, List.flatten_singleton]
  · have hexponent : x.sixDigits.exponent < -4 ∨ 6 ≤ x.sixDigits.exponent := by
      rw [SixDigits.Middle] at hm
      omega
    rw [if_pos hexponent, if_neg hm, SixDigits.exponentText]
    simp

/-- In the middle decades the text is the plain form of the rounded number, behind the sign. -/
theorem exists_generalText_of_middle (hx : x.IsFinite) (hm : x.sixDigits.Middle) :
    ∃ body, x.generalText = sign x.negative ++ body ∧ IsPlain body x.sixDigits.value := by
  obtain ⟨places, hplaces⟩ := Int.eq_ofNat_of_zero_le (Int.sub_nonneg_of_le hm.2)
  have hvalue : x.sixDigits.value = x.sixDigits.coefficient / 10 ^ places := by
    rw [SixDigits.value, ← neg_sub, zpow_neg, hplaces, zpow_natCast, div_eq_mul_inv]
  have hagain := roundScaled_sixDigits x
  rw [hplaces] at hagain
  rw [generalText_of_isFinite hx, if_pos hm, hplaces, Int.toNat_natCast, positionalText, hagain,
    hvalue]
  exact Decimal.exists_isPlain_trimFraction x.negative places x.sixDigits.coefficient

/-- In all other decades it is the plain form of the mantissa, and the exponent follows. -/
theorem exists_generalText_of_not_middle (hx : x.IsFinite) (hm : ¬ x.sixDigits.Middle) :
    ∃ mantissa, x.generalText = sign x.negative ++ (mantissa ++ x.sixDigits.exponentText) ∧
      IsPlain mantissa (x.sixDigits.coefficient / 10 ^ 5) := by
  obtain ⟨mantissa, htrim, hplain⟩ :=
    Decimal.exists_isPlain_trimFraction x.negative 5 x.sixDigits.coefficient
  refine ⟨mantissa, ?_, hplain⟩
  rw [generalText_of_isFinite hx, if_neg hm, htrim, List.append_assoc]

/-! ### The scientific form -/

/-- The digits of an exponent fill two places. -/
theorem isDigits_exponentDigits (e : ℤ) : IsDigits 2 e.natAbs (exponentDigits e) :=
  Decimal.isDigits_leftpad (by decide) e.natAbs

/-- Behind a plain mantissa, the exponent makes a text in scientific notation. Its digits are those
  of the coefficient without the zeros at their end. -/
theorem SixDigits.exists_isScientific {m : SixDigits} (h : m.Normal) {mantissa : List Char}
    (hplain : IsPlain mantissa (m.coefficient / 10 ^ 5)) (negative : Bool) :
    ∃ n zeros, m.coefficient = n * 10 ^ zeros ∧ n % 10 ≠ 0 ∧
      IsScientific 2 (sign negative ++ (mantissa ++ m.exponentText)) negative n m.exponent := by
  obtain ⟨places, n, rfl, hreduced, hvalue⟩ := Decimal.isPlain_iff.1 hplain
  obtain ⟨zeros, hplaces, hcoefficient⟩ := hreduced.exists_eq_mul_pow hvalue
  obtain ⟨hlow, hhigh⟩ := h
  -- A single digit stands before the point.
  have hfive : 10 ^ 5 = 10 ^ places * 10 ^ zeros := by rw [hplaces, pow_add]
  have hsix : 10 ^ 6 = 10 ^ (places + 1) * 10 ^ zeros := by rw [pow_succ, hfive, pow_succ]; ring
  have hfull : 10 ^ places ≤ n := by
    rw [hfive, hcoefficient] at hlow
    exact Nat.le_of_mul_le_mul_right hlow (by positivity)
  have hnext : n < 10 ^ (places + 1) := by
    rw [hsix, hcoefficient] at hhigh
    exact Nat.lt_of_mul_lt_mul_right hhigh
  refine ⟨n, zeros, hcoefficient, ?_, Decimal.isScientific_positional negative hfull hnext
    (isDigits_exponentDigits m.exponent)⟩
  rcases hreduced with rfl | hlast
  · rw [Nat.mod_eq_of_lt (by simpa using hnext)]
    exact Nat.ne_of_gt hfull
  · exact hlast

end Binary64

end Telemetry
