import Mathlib.Algebra.Order.Field.Rat
import Mathlib.Data.List.DropRight
import Mathlib.Tactic.Positivity
import Mathlib.Tactic.Ring
import Telemetry.Proofs.Decimal.Digits
/-!
# Plain decimal forms

A number that has a finite decimal expansion has one plain form: positional notation with no zero
at the end of its fraction and no point without a fraction. Trimming the fraction of any positional
notation leads to it.
-/

namespace Telemetry.Decimal

variable {places p q n m : ℕ} {a text text' : List Char} {v : ℚ}

/-! ### Trailing characters -/

/-- A copy of the character at the end is dropped. -/
theorem withoutTrailing_concat_self (c : Char) (a : List Char) :
    withoutTrailing c (a ++ [c]) = withoutTrailing c a :=
  List.rdropWhile_concat_pos _ a c (by simp)

/-- A text that ends in another character stays as it is. -/
theorem withoutTrailing_concat_of_ne {c d : Char} (h : d ≠ c) (a : List Char) :
    withoutTrailing c (a ++ [d]) = a ++ [d] :=
  List.rdropWhile_concat_neg _ a d (by simpa using h)

/-- A text that does not end in the character stays as it is. -/
theorem withoutTrailing_of_getLast? {c : Char} (h : a.getLast? ≠ some c) :
    withoutTrailing c a = a := by
  apply List.rdropWhile_eq_self_iff.2
  intro hne
  have hlast : a.getLast hne ≠ c := fun heq => h (heq ▸ List.getLast?_eq_some_getLast hne)
  simpa using hlast

/-- A text that does not contain the character stays as it is. -/
theorem withoutTrailing_of_not_mem {c : Char} (h : c ∉ a) : withoutTrailing c a = a :=
  withoutTrailing_of_getLast? fun hlast => h (List.mem_of_getLast? hlast)

/-- Copies at the end make no difference. -/
theorem withoutTrailing_append_replicate (text : List Char) (c : Char) (k : ℕ) :
    withoutTrailing c (text ++ List.replicate k c) = withoutTrailing c text := by
  induction k with
  | zero => rw [List.replicate_zero, List.append_nil]
  | succ k ih =>
    rw [List.replicate_succ', ← List.append_assoc, withoutTrailing_concat_self, ih]

/-! ### Last digits -/

/-- The last digit of a number stands behind the last digits of a tenth of it. -/
theorem lowDigits_succ (places n : ℕ) :
    lowDigits (places + 1) n = lowDigits places (n / 10) ++ [Nat.digitChar (n % 10)] := by
  induction places with
  | zero => simp [lowDigits]
  | succ places ih =>
    rw [lowDigits, ih, lowDigits, Nat.div_div_eq_div_mul, ← Nat.pow_succ', List.cons_append]

/-- The last digit of a positional notation with a fraction. -/
theorem positional_succ (places n : ℕ) :
    positional (places + 1) n = Nat.toDigits 10 (n / 10 ^ (places + 1)) ++
      '.' :: (lowDigits places (n / 10) ++ [Nat.digitChar (n % 10)]) := by
  rw [← lowDigits_succ]
  rfl

/-- The digits of a number are those of a quotient, followed by the last ones. -/
theorem toDigits_eq_append_lowDigits {places n : ℕ} (h : 10 ^ places ≤ n) :
    Nat.toDigits 10 n = Nat.toDigits 10 (n / 10 ^ places) ++ lowDigits places n := by
  induction places generalizing n with
  | zero => simp [lowDigits]
  | succ places ih =>
    have htenth : 10 ^ places ≤ n / 10 := by
      rw [Nat.le_div_iff_mul_le (by decide), ← Nat.pow_succ]
      exact h
    have hten : 10 ≤ n := (Nat.le_self_pow (Nat.succ_ne_zero places) 10).trans h
    rw [Nat.toDigits_of_base_le (by decide) hten, ih htenth, lowDigits_succ,
      Nat.div_div_eq_div_mul, ← Nat.pow_succ', List.append_assoc]

/-- Powers of ten append zeros. -/
theorem toDigits_mul_pow {n : ℕ} (hn : 0 < n) (k : ℕ) :
    Nat.toDigits 10 (n * 10 ^ k) = Nat.toDigits 10 n ++ List.replicate k '0' := by
  induction k with
  | zero => simp
  | succ k ih =>
    have hpos : 0 < n * 10 ^ k := by positivity
    rw [pow_succ, ← mul_assoc, Nat.toDigits_of_base_le (by decide) (by omega),
      Nat.mul_div_cancel _ (by decide), Nat.mul_mod_left, ih, List.replicate_succ',
      List.append_assoc, Nat.digitChar_eq_zero.2 rfl]

/-- Digits contain nothing but digits. -/
theorem not_mem_of_isDigit {c : Char} (hc : c.isDigit = false)
    (h : ∀ d ∈ a, d.isDigit = true) : c ∉ a := by
  intro hmem
  rw [h c hmem] at hc
  cases hc

theorem not_mem_toDigits {c : Char} (hc : c.isDigit = false) (n : ℕ) : c ∉ Nat.toDigits 10 n :=
  not_mem_of_isDigit hc fun _ => isDigit_of_mem_toDigits

/-- Beside digits, a positional notation contains a sign and a point at most. -/
theorem not_mem_sign_positional {c : Char} (hc : c.isDigit = false) (hpoint : c ≠ '.')
    (hminus : c ≠ '-') (negative : Bool) (places n : ℕ) :
    c ∉ sign negative ++ positional places n := by
  apply List.not_mem_append
  · cases negative <;> simp [sign, hminus]
  · cases places with
    | zero =>
      rw [positional_zero]
      exact not_mem_toDigits hc n
    | succ places =>
      have hlow : c ∉ lowDigits (places + 1) n := not_mem_of_isDigit hc fun _ =>
        isDigit_of_mem_lowDigits
      rw [positional_succ, ← lowDigits_succ]
      exact List.not_mem_append (not_mem_toDigits hc _)
        (List.not_mem_cons_of_ne_of_not_mem hpoint hlow)

/-! ### Digits before and behind a point -/

/-- The digits of a number before and behind its point. The whole part has a digit and no
  superfluous zero at its front. -/
def HasDigits (whole fraction : List Char) (v : ℚ) : Prop :=
  ∃ n, IsDigits 1 n whole ∧ (∀ c ∈ fraction, c.isDigit = true) ∧
    v = n + Nat.ofDigitChars 10 fraction 0 / 10 ^ fraction.length

/-- The digits of a positional notation are those of its number around the point. -/
theorem hasDigits_lowDigits (places n : ℕ) :
    HasDigits (Nat.toDigits 10 (n / 10 ^ places)) (lowDigits places n) (n / 10 ^ places) := by
  refine ⟨n / 10 ^ places, isDigits_toDigits _, fun _ => isDigit_of_mem_lowDigits, ?_⟩
  have hpos : (10 : ℚ) ^ places ≠ 0 := by positivity
  have hsplit : ((n / 10 ^ places : ℕ) : ℚ) * 10 ^ places + (n % 10 ^ places : ℕ) = n := by
    exact_mod_cast Nat.div_add_mod' n (10 ^ places)
  rw [ofDigitChars_lowDigits, Nat.zero_mul, Nat.zero_add, length_lowDigits, div_eq_iff hpos,
    add_mul, div_mul_cancel₀ _ hpos, hsplit]

/-- The digits around a point are those of the number of units of the last place. -/
theorem HasDigits.exists_eq {whole fraction : List Char} (h : HasDigits whole fraction v) :
    ∃ n, whole = Nat.toDigits 10 (n / 10 ^ fraction.length) ∧
      fraction = lowDigits fraction.length n ∧ v = n / 10 ^ fraction.length := by
  obtain ⟨w, hwhole, hfraction, rfl⟩ := h
  refine ⟨Nat.ofDigitChars 10 fraction w, ?_, (lowDigits_ofDigitChars hfraction w).symm, ?_⟩
  · rw [ofDigitChars_div hfraction]
    exact hwhole.eq_toDigits
  · have hpos : (10 : ℚ) ^ fraction.length ≠ 0 := by positivity
    have hvalue : (Nat.ofDigitChars 10 fraction w : ℚ) =
        w * 10 ^ fraction.length + Nat.ofDigitChars 10 fraction 0 := by
      rw [mul_comm]
      exact_mod_cast Nat.ofDigitChars_eq_ofDigitChars_zero
    rw [hvalue, add_div, mul_div_cancel_right₀ _ hpos]

/-! ### Plain forms -/

/-- The plain form of a number: its digits before the point and, if the fraction is not empty, a
  point and a fraction that does not end in a zero. -/
def IsPlain (text : List Char) (v : ℚ) : Prop :=
  ∃ whole fraction, HasDigits whole fraction v ∧ fraction.getLast? ≠ some '0' ∧
    text = whole ++ if fraction = [] then [] else '.' :: fraction

/-- No superfluous place: a number with a fraction does not end in a zero. -/
def Reduced (places n : ℕ) : Prop := places = 0 ∨ n % 10 ≠ 0

/-- The number of places of a reduced form is the least one. -/
theorem Reduced.exists_eq_mul_pow (hq : Reduced q m) (h : (n : ℚ) / 10 ^ p = m / 10 ^ q) :
    ∃ k, p = q + k ∧ n = m * 10 ^ k := by
  rw [div_eq_div_iff (by positivity) (by positivity)] at h
  have h : n * 10 ^ q = m * 10 ^ p := by exact_mod_cast h
  rcases Nat.lt_or_ge p q with hlt | hle
  · obtain ⟨k, rfl⟩ := Nat.exists_eq_add_of_lt hlt
    have hm : m = n * 10 ^ k * 10 := by
      apply Nat.eq_of_mul_eq_mul_right (Nat.pow_pos (n := p) (by decide : 0 < 10))
      rw [← h]
      ring
    -- So the longer fraction would end in a zero.
    rcases hq with hq | hq
    · exact absurd hq (Nat.succ_ne_zero _)
    · exact absurd (hm ▸ Nat.mul_mod_left _ 10) hq
  · obtain ⟨k, rfl⟩ := Nat.exists_eq_add_of_le hle
    refine ⟨k, rfl, ?_⟩
    apply Nat.eq_of_mul_eq_mul_right (Nat.pow_pos (n := q) (by decide : 0 < 10))
    rw [h]
    ring

/-- A number has one form without a superfluous place. -/
theorem Reduced.unique (hp : Reduced p n) (hq : Reduced q m)
    (h : (n : ℚ) / 10 ^ p = m / 10 ^ q) : p = q ∧ n = m := by
  obtain ⟨k, hpq, hn⟩ := hq.exists_eq_mul_pow h
  obtain ⟨l, hqp, -⟩ := hp.exists_eq_mul_pow h.symm
  have hk : k = 0 := by omega
  rw [hk, pow_zero, mul_one] at hn
  exact ⟨by omega, hn⟩

/-- Without the zeros at its end, a number is determined by what it is with them. -/
theorem eq_of_mul_pow_eq {k l : ℕ} (hn : n % 10 ≠ 0) (hm : m % 10 ≠ 0)
    (h : n * 10 ^ k = m * 10 ^ l) : n = m := by
  have hvalue : (n : ℚ) / 10 ^ l = m / 10 ^ k := by
    rw [div_eq_div_iff (by positivity) (by positivity)]
    exact_mod_cast h
  exact (Reduced.unique (Or.inr hn) (Or.inr hm) hvalue).2

/-- A minus is all that can stand before the digits of a plain form. -/
theorem IsPlain.head?_signed_eq_minus_iff {negative : Bool} (h : IsPlain text v) :
    (signed negative text).head? = some '-' ↔ negative = true := by
  obtain ⟨whole, fraction, ⟨n, hwhole, -, -⟩, -, rfl⟩ := h
  exact Decimal.head?_signed_eq_minus_iff (hwhole.head?_append_ne_minus Nat.one_pos _)

/-- A fraction is written behind a point, and an empty one is not written at all. -/
theorem pointed_eq (digits : List Char) :
    pointed digits = if digits = [] then [] else '.' :: digits := by
  cases digits <;> rfl

/-- Digits have a superfluous place if they end in a zero. -/
theorem getLast?_lowDigits_ne_zero_iff : (lowDigits places n).getLast? ≠ some '0' ↔
    Reduced places n := by
  cases places with
  | zero => simp [lowDigits, Reduced]
  | succ places => simp [lowDigits_succ, Reduced]

/-- Plain forms are the positional notations without a superfluous place. -/
theorem isPlain_iff : IsPlain text v ↔
    ∃ places n, text = positional places n ∧ Reduced places n ∧ v = n / 10 ^ places := by
  constructor
  · rintro ⟨whole, fraction, hdigits, hlast, rfl⟩
    obtain ⟨n, hwhole, hfraction, hvalue⟩ := hdigits.exists_eq
    rw [hfraction] at hlast
    refine ⟨fraction.length, n, ?_, getLast?_lowDigits_ne_zero_iff.1 hlast, hvalue⟩
    rw [positional, ← hwhole, ← hfraction, pointed_eq]
  · rintro ⟨places, n, rfl, hreduced, rfl⟩
    refine ⟨_, _, hasDigits_lowDigits places n, getLast?_lowDigits_ne_zero_iff.2 hreduced, ?_⟩
    rw [positional, pointed_eq]

/-- A number has one plain form. -/
theorem IsPlain.text_unique (h : IsPlain text v) (h' : IsPlain text' v) : text = text' := by
  obtain ⟨p, n, rfl, hp, rfl⟩ := isPlain_iff.1 h
  obtain ⟨q, m, rfl, hq, hvalue⟩ := isPlain_iff.1 h'
  obtain ⟨rfl, rfl⟩ := hp.unique hq hvalue
  rfl

/-- Whole numbers are written with their digits. -/
theorem isPlain_toDigits (n : ℕ) : IsPlain (Nat.toDigits 10 n) n :=
  isPlain_iff.2 ⟨0, n, (positional_zero n).symm, Or.inl rfl, by simp⟩

/-! ### Trimming -/

/-- A positional notation with places has a point. -/
theorem point_mem_append_positional_succ (a : List Char) (places n : ℕ) :
    '.' ∈ a ++ positional (places + 1) n := by
  simp [positional_succ]

/-- A positional notation without places has no point, unless one stands before the number. -/
theorem not_mem_append_positional_zero (ha : '.' ∉ a) (n : ℕ) : '.' ∉ a ++ positional 0 n := by
  rw [positional_zero]
  exact List.not_mem_append ha (not_mem_toDigits rfl n)

/-- A text with a fraction ends in its last digit. -/
theorem append_positional_succ (a : List Char) (places n : ℕ) :
    a ++ positional (places + 1) n =
      (a ++ (Nat.toDigits 10 (n / 10 / 10 ^ places) ++ '.' :: lowDigits places (n / 10))) ++
        [Nat.digitChar (n % 10)] := by
  rw [positional_succ, Nat.div_div_eq_div_mul, Nat.pow_succ', List.append_assoc,
    List.append_assoc, List.cons_append]

/-- A zero at the end of a fraction is dropped. -/
theorem trimFraction_append_positional_of_eq_zero (ha : '.' ∉ a) (places : ℕ)
    (hn : n % 10 = 0) :
    trimFraction (a ++ positional (places + 1) n) =
      trimFraction (a ++ positional places (n / 10)) := by
  rw [trimFraction, if_pos (point_mem_append_positional_succ a places n), append_positional_succ,
    hn, Nat.digitChar_eq_zero.2 rfl, withoutTrailing_concat_self]
  cases places with
  | zero =>
    -- The point goes with the last place, and the zeros before it stay.
    have hfree := not_mem_append_positional_zero ha (n / 10)
    rw [trimFraction, if_neg hfree]
    rw [positional_zero] at hfree ⊢
    rw [lowDigits, pow_zero, Nat.div_one, ← List.append_assoc,
      withoutTrailing_concat_of_ne (by decide), withoutTrailing_concat_self,
      withoutTrailing_of_not_mem hfree]
  | succ places =>
    rw [trimFraction, if_pos (point_mem_append_positional_succ a places (n / 10))]
    rfl

/-- A digit other than zero at the end of a fraction stays, and all places before it. -/
theorem trimFraction_append_positional_of_ne_zero (a : List Char) (places : ℕ)
    (hn : n % 10 ≠ 0) :
    trimFraction (a ++ positional (places + 1) n) = a ++ positional (places + 1) n := by
  have hzero : Nat.digitChar (n % 10) ≠ '0' := by simpa using hn
  have hpoint : Nat.digitChar (n % 10) ≠ '.' := by
    intro heq
    have hdigit := isDigit_digitChar (Nat.mod_lt n (by decide : 10 > 0))
    rw [heq] at hdigit
    exact absurd hdigit (by decide)
  rw [trimFraction, if_pos (point_mem_append_positional_succ a places n), append_positional_succ,
    withoutTrailing_concat_of_ne hzero, withoutTrailing_concat_of_ne hpoint]

/-- Trimming a positional notation reduces it. What stands before it has no point and stays. -/
theorem exists_trimFraction_positional (ha : '.' ∉ a) (places n : ℕ) :
    ∃ q m, trimFraction (a ++ positional places n) = a ++ positional q m ∧ Reduced q m ∧
      (n : ℚ) / 10 ^ places = m / 10 ^ q := by
  -- One place after another is dropped as long as the last digit is a zero.
  induction places generalizing n with
  | zero =>
    exact ⟨0, n, if_neg (not_mem_append_positional_zero ha n), Or.inl rfl, rfl⟩
  | succ places ih =>
    by_cases hlast : n % 10 = 0
    · obtain ⟨q, m, htrim, hreduced, hvalue⟩ := ih (n / 10)
      refine ⟨q, m, ?_, hreduced, ?_⟩
      · rw [trimFraction_append_positional_of_eq_zero ha places hlast, htrim]
      · have hn : ((n / 10 : ℕ) : ℚ) * 10 = n := by
          exact_mod_cast Nat.div_mul_cancel (Nat.dvd_of_mod_eq_zero hlast)
        rw [← hvalue, ← hn, pow_succ, mul_div_mul_right _ _ (by norm_num)]
    · exact ⟨places + 1, n, trimFraction_append_positional_of_ne_zero a places hlast,
        Or.inr hlast, rfl⟩

/-- Trimming a positional notation leads to the plain form of its number. -/
theorem exists_isPlain_trimFraction (negative : Bool) (places n : ℕ) :
    ∃ body, trimFraction (sign negative ++ positional places n) = sign negative ++ body ∧
      IsPlain body (n / 10 ^ places) := by
  have hsign : '.' ∉ sign negative := by cases negative <;> decide
  obtain ⟨q, m, htrim, hreduced, hvalue⟩ := exists_trimFraction_positional hsign places n
  exact ⟨positional q m, htrim, isPlain_iff.2 ⟨q, m, rfl, hreduced, hvalue⟩⟩

end Telemetry.Decimal
