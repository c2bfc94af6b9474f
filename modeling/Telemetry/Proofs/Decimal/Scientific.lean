import Telemetry.Proofs.Decimal.Plain
/-!
# Scientific notation

A number is written with one digit before the point and with a signed exponent. Notations differ in
the width that they ask of the exponent. Positional notation with one digit before its point becomes
scientific notation when an exponent is put behind it.
-/

namespace Telemetry.Decimal

variable {width places n : ℕ} {text text' exponent : List Char} {negative : Bool} {e : ℤ}

/-- A text in scientific notation: a minus if it is asked for, the digits of `n` with a point
  behind the first one if there are others, and the exponent `e` with a sign and with the digits
  that fill the width. -/
def IsScientific (width : ℕ) (text : List Char) (negative : Bool) (n : ℕ) (e : ℤ) : Prop :=
  ∃ first rest exponent, IsDigits 1 n (first :: rest) ∧ IsDigits width e.natAbs exponent ∧
    text = signed negative (first :: ((if rest = [] then [] else '.' :: rest) ++
      'e' :: (if e < 0 then '-' else '+') :: exponent))

/-- A number has one text in scientific notation. -/
theorem IsScientific.text_unique (hwidth : 0 < width) (h : IsScientific width text negative n e)
    (h' : IsScientific width text' negative n e) : text = text' := by
  obtain ⟨first, rest, exponent, hdigits, hexponent, rfl⟩ := h
  obtain ⟨first', rest', exponent', hdigits', hexponent', rfl⟩ := h'
  obtain ⟨rfl, rfl⟩ := List.cons.inj (hdigits.unique Nat.one_pos hdigits')
  rw [hexponent.unique hwidth hexponent']

/-- The digits in front of the zeros at the end of a number are determined by it. -/
theorem isScientific_of_mul_pow (zeros : ℕ) (hn : n % 10 ≠ 0)
    (h : ∃ m k, n * 10 ^ zeros = m * 10 ^ k ∧ m % 10 ≠ 0 ∧
      IsScientific width text negative m e) : IsScientific width text negative n e := by
  obtain ⟨m, k, hvalue, hm, hform⟩ := h
  rw [eq_of_mul_pow_eq hn hm hvalue]
  exact hform

/-- A digit stands at the front unless the minus does. -/
theorem IsScientific.head?_eq_minus_iff (h : IsScientific width text negative n e) :
    text.head? = some '-' ↔ negative = true := by
  obtain ⟨first, rest, exponent, hdigits, -, rfl⟩ := h
  exact head?_signed_eq_minus_iff (hdigits.head?_append_ne_minus Nat.one_pos [])

/-- Positional notation with one digit before the point is the mantissa of scientific notation. -/
theorem isScientific_positional (negative : Bool) (hlow : 10 ^ places ≤ n)
    (hhigh : n < 10 ^ (places + 1)) (hexponent : IsDigits width e.natAbs exponent) :
    IsScientific width (sign negative ++ (positional places n ++
      'e' :: (if e < 0 then '-' else '+') :: exponent)) negative n e := by
  have hdigit : n / 10 ^ places < 10 := by
    rw [Nat.div_lt_iff_lt_mul (by positivity), ← Nat.pow_succ']
    exact hhigh
  have hdigits := isDigits_toDigits n
  rw [toDigits_eq_append_lowDigits hlow, Nat.toDigits_of_lt_base hdigit] at hdigits
  refine ⟨_, _, exponent, hdigits, hexponent, ?_⟩
  rw [sign_append, positional, Nat.toDigits_of_lt_base hdigit, pointed_eq]
  rfl

end Telemetry.Decimal
