import Telemetry.Decimal.Digits
/-!
# Laws of decimal digits

The digits of a number are digit characters, they read back as the number, and none of the
spellings starts with a superfluous zero.
-/

namespace Telemetry.Decimal

/-- The digits of a number are digit characters. -/
theorem isDigit_of_mem_toDigits {n : Nat} {c : Char} (h : c ∈ Nat.toDigits 10 n) :
    c.isDigit = true :=
  Nat.isDigit_of_mem_toDigits (by decide) (by decide) h

theorem isDigit_digitChar {d : Nat} (h : d < 10) : (Nat.digitChar d).isDigit = true := by
  simp [h]

/-- The last digits of a number are digit characters. -/
theorem isDigit_of_mem_lowDigits {places n : Nat} {c : Char} (h : c ∈ lowDigits places n) :
    c.isDigit = true := by
  induction places with
  | zero => exact absurd h List.not_mem_nil
  | succ places ih =>
    rcases List.mem_cons.1 h with h | h
    · rw [h]
      exact isDigit_digitChar (Nat.mod_lt _ (by decide))
    · exact ih h

@[simp] theorem length_lowDigits (places n : Nat) : (lowDigits places n).length = places := by
  induction places with
  | zero => rfl
  | succ places ih => exact congrArg (· + 1) ih

/-- The last digits of a number, read behind other digits. -/
theorem ofDigitChars_lowDigits (places n before : Nat) :
    Nat.ofDigitChars 10 (lowDigits places n) before = before * 10 ^ places + n % 10 ^ places := by
  induction places generalizing before with
  | zero => simp [lowDigits, Nat.mod_one]
  | succ places ih =>
    have hdigit : n / 10 ^ places % 10 < 10 := Nat.mod_lt _ (by decide)
    have hmod : n % 10 ^ (places + 1) = n / 10 ^ places % 10 * 10 ^ places + n % 10 ^ places := by
      rw [Nat.pow_succ, Nat.mod_mul, Nat.mul_comm (10 ^ places), Nat.add_comm]
    rw [lowDigits, Nat.ofDigitChars_cons_digitChar_of_lt_ten hdigit, ih, hmod, Nat.pow_succ]
    rw [Nat.add_mul, Nat.add_assoc]
    congr 1
    rw [Nat.mul_comm 10 before, Nat.mul_assoc, Nat.mul_comm 10]

/-- The digits around a point read back as the number of units of the last place. -/
theorem ofDigitChars_positional (places n : Nat) :
    Nat.ofDigitChars 10 (Nat.toDigits 10 (n / 10 ^ places) ++ lowDigits places n) 0 = n := by
  rw [Nat.ofDigitChars_append, Nat.ofDigitChars_ten_toDigits, ofDigitChars_lowDigits]
  exact Nat.div_add_mod' n (10 ^ places)

/-- A positive number does not start with a zero. -/
theorem head?_toDigits_ne_zero {n : Nat} (h : 0 < n) : (Nat.toDigits 10 n).head? ≠ some '0' := by
  induction n using Nat.strongRecOn with
  | ind n ih =>
    rw [Nat.toDigits_eq_if (by decide)]
    split
    · next hlt =>
      intro hzero
      have hchar : Nat.digitChar n = '0' := Option.some.inj hzero
      have hall : ∀ d < 10, Nat.digitChar d = '0' → d = 0 := by decide
      exact absurd (hall n hlt hchar) (Nat.ne_of_gt h)
    · -- The digits of a tenth come first, so its first digit is the first one.
      next hge =>
      have hdiv : 0 < n / 10 := Nat.div_pos (by omega) (by decide)
      have hne : Nat.toDigits 10 (n / 10) ≠ [] := Nat.toDigits_ne_nil
      obtain ⟨c, rest, hcons⟩ := List.exists_cons_of_ne_nil hne
      have hhead := ih (n / 10) (by omega) hdiv
      rw [hcons] at hhead ⊢
      exact hhead

/-- No number but zero starts with a zero. -/
theorem toDigits_eq_zero_or_head? (n : Nat) :
    Nat.toDigits 10 n = ['0'] ∨ (Nat.toDigits 10 n).head? ≠ some '0' := by
  rcases Nat.eq_zero_or_pos n with rfl | h
  · exact Or.inl (Nat.toDigits_zero 10)
  · exact Or.inr (head?_toDigits_ne_zero h)

/-- Positional notation without places consists of the digits. -/
theorem positional_zero (n : Nat) : positional 0 n = Nat.toDigits 10 n := by
  simp [positional, lowDigits, pointed]

/-! ### Digits as those of their number -/

/-- A digit character is that of its value. -/
theorem digitChar_of_isDigit {c : Char} (h : c.isDigit = true) :
    c.toNat - '0'.toNat < 10 ∧ Nat.digitChar (c.toNat - '0'.toNat) = c := by
  have hall : ∀ n < 58, (Char.ofNat n).isDigit = true →
      n - '0'.toNat < 10 ∧ Nat.digitChar (n - '0'.toNat) = Char.ofNat n := by decide +kernel
  have hlt : c.toNat < 58 := by
    have hle : c.toNat ≤ 57 := by simpa using (Char.isDigit_iff_toNat.1 h).2
    omega
  have hdigit := hall c.toNat hlt
  rw [Char.ofNat_toNat] at hdigit
  exact hdigit h

/-- Digits behind those of a positive number. -/
theorem toDigits_ofDigitChars_append {before : Nat} (hbefore : 0 < before) {digits : List Char}
    (hdigits : ∀ c ∈ digits, c.isDigit = true) :
    Nat.toDigits 10 (Nat.ofDigitChars 10 digits before) = Nat.toDigits 10 before ++ digits := by
  induction digits generalizing before with
  | nil => exact (List.append_nil _).symm
  | cons c digits ih =>
    obtain ⟨hlt, hchar⟩ := digitChar_of_isDigit (hdigits c List.mem_cons_self)
    have hnext : Nat.toDigits 10 (10 * before + (c.toNat - '0'.toNat)) =
        Nat.toDigits 10 before ++ [c] := by
      have hdiv : (10 * before + (c.toNat - '0'.toNat)) / 10 = before := by omega
      have hmod : (10 * before + (c.toNat - '0'.toNat)) % 10 = c.toNat - '0'.toNat := by omega
      rw [Nat.toDigits_of_base_le (by decide) (by omega), hdiv, hmod, hchar]
    rw [Nat.ofDigitChars_cons, ih (by omega) fun d hd => hdigits d (List.mem_cons_of_mem _ hd),
      hnext, List.append_assoc, List.singleton_append]

/-- Digits without a superfluous zero are those of their number. -/
theorem toDigits_ofDigitChars {digits : List Char} (hne : digits ≠ [])
    (hdigits : ∀ c ∈ digits, c.isDigit = true) (hzero : digits = ['0'] ∨ digits.head? ≠ some '0') :
    Nat.toDigits 10 (Nat.ofDigitChars 10 digits 0) = digits := by
  rcases hzero with rfl | hhead
  · rfl
  · obtain ⟨c, rest, rfl⟩ := List.exists_cons_of_ne_nil hne
    obtain ⟨hlt, hchar⟩ := digitChar_of_isDigit (hdigits c List.mem_cons_self)
    have hpos : 0 < c.toNat - '0'.toNat := by
      refine Nat.pos_of_ne_zero fun hnil => hhead ?_
      rw [hnil] at hchar
      exact congrArg some hchar.symm
    rw [Nat.ofDigitChars_cons, Nat.mul_zero, Nat.zero_add,
      toDigits_ofDigitChars_append hpos fun d hd => hdigits d (List.mem_cons_of_mem _ hd),
      Nat.toDigits_of_lt_base hlt, hchar, List.singleton_append]

/-- Digits denote a number that has no more places than there are digits. -/
theorem ofDigitChars_lt {digits : List Char} (hdigits : ∀ c ∈ digits, c.isDigit = true) :
    Nat.ofDigitChars 10 digits 0 < 10 ^ digits.length := by
  induction digits with
  | nil => decide
  | cons c rest ih =>
    have hlt := (digitChar_of_isDigit (hdigits c List.mem_cons_self)).1
    have hrest := ih fun d hd => hdigits d (List.mem_cons_of_mem _ hd)
    have hfirst : 10 ^ rest.length * (c.toNat - '0'.toNat) ≤ 10 ^ rest.length * 9 :=
      Nat.mul_le_mul_left _ (Nat.le_of_lt_succ hlt)
    rw [Nat.ofDigitChars_cons, Nat.mul_zero, Nat.zero_add, Nat.ofDigitChars_eq_ofDigitChars_zero,
      List.length_cons, Nat.pow_succ]
    omega

/-- The number in front of some digits is what remains when these are dropped. -/
theorem ofDigitChars_div {digits : List Char} (hdigits : ∀ c ∈ digits, c.isDigit = true)
    (before : Nat) :
    Nat.ofDigitChars 10 digits before / 10 ^ digits.length = before := by
  rw [Nat.ofDigitChars_eq_ofDigitChars_zero, Nat.mul_add_div (Nat.pow_pos (by decide)),
    Nat.div_eq_of_lt (ofDigitChars_lt hdigits), Nat.add_zero]

/-- Digits read behind a number are the last digits of what they are read as. -/
theorem lowDigits_ofDigitChars {digits : List Char} (hdigits : ∀ c ∈ digits, c.isDigit = true)
    (before : Nat) :
    lowDigits digits.length (Nat.ofDigitChars 10 digits before) = digits := by
  induction digits generalizing before with
  | nil => rfl
  | cons c rest ih =>
    obtain ⟨hlt, hchar⟩ := digitChar_of_isDigit (hdigits c List.mem_cons_self)
    have hrest : ∀ d ∈ rest, d.isDigit = true := fun d hd => hdigits d (List.mem_cons_of_mem _ hd)
    have hdigit : (10 * before + (c.toNat - '0'.toNat)) % 10 = c.toNat - '0'.toNat := by omega
    rw [List.length_cons, lowDigits, Nat.ofDigitChars_cons, ofDigitChars_div hrest, hdigit, hchar,
      ih hrest]

/-! ### Digits that fill a width -/

/-- Decimal digits of a number, at least as many as the width asks for. Zeros stand in front of
  them only as far as the width asks for zeros. -/
structure IsDigits (width n : Nat) (digits : List Char) : Prop where
  isDigit : ∀ c ∈ digits, c.isDigit = true
  width_le : width ≤ digits.length
  head_ne_zero : width < digits.length → digits.head? ≠ some '0'
  value : Nat.ofDigitChars 10 digits 0 = n

/-- Without a width to fill, a number is written with its own digits. -/
theorem isDigits_toDigits (n : Nat) : IsDigits 1 n (Nat.toDigits 10 n) where
  isDigit _ := isDigit_of_mem_toDigits
  width_le := List.length_pos_iff.2 Nat.toDigits_ne_nil
  head_ne_zero h := by
    rcases toDigits_eq_zero_or_head? n with hzero | hhead
    · rw [hzero] at h
      exact absurd h (by decide)
    · exact hhead
  value := Nat.ofDigitChars_ten_toDigits

/-- Nothing is put in front of what fills the width. -/
theorem leftpad_of_le {width : Nat} {digits : List Char} (h : width ≤ digits.length) :
    digits.leftpad width '0' = digits := by
  rw [List.leftpad, Nat.sub_eq_zero_of_le h, List.replicate_zero, List.nil_append]

/-- The digits of a number fill a width when zeros are put in front of them. -/
theorem isDigits_leftpad {width : Nat} (hwidth : 0 < width) (n : Nat) :
    IsDigits width n ((Nat.toDigits 10 n).leftpad width '0') where
  isDigit c hc := by
    rcases List.mem_append.1 hc with hc | hc
    · rw [List.eq_of_mem_replicate hc]
      rfl
    · exact isDigit_of_mem_toDigits hc
  width_le := by
    rw [List.length_leftpad]
    exact Nat.le_max_left _ _
  head_ne_zero h := by
    rw [List.length_leftpad] at h
    rw [leftpad_of_le (by omega)]
    exact (isDigits_toDigits n).head_ne_zero (by omega)
  value := by
    rw [List.leftpad, Nat.ofDigitChars_append, Nat.ofDigitChars_replicate_zero, Nat.mul_zero,
      Nat.ofDigitChars_ten_toDigits]

namespace IsDigits

variable {width n : Nat} {digits others : List Char}

/-- Digits without a superfluous zero are those that the number has of itself. -/
theorem toDigits_eq (h : IsDigits width n digits) (hne : digits ≠ [])
    (hzero : digits = ['0'] ∨ digits.head? ≠ some '0') : Nat.toDigits 10 n = digits := by
  rw [← h.value]
  exact toDigits_ofDigitChars hne h.isDigit hzero

/-- There is one way to fill a width. -/
theorem eq_leftpad (hwidth : 0 < width) (h : IsDigits width n digits) :
    digits = (Nat.toDigits 10 n).leftpad width '0' := by
  induction digits generalizing width with
  | nil => exact absurd h.width_le (Nat.not_le_of_gt hwidth)
  | cons c rest ih =>
    by_cases hzero : c = '0' ∧ rest ≠ []
    · -- Behind a zero in front, the other digits fill the width less one.
      obtain ⟨rfl, hrest⟩ := hzero
      have hlength : rest.length + 1 = width := by
        have hle := h.width_le
        have hlt := mt h.head_ne_zero (by simp)
        rw [List.length_cons] at hle hlt
        omega
      have htail : IsDigits rest.length n rest := by
        refine ⟨fun d hd => h.isDigit d (List.mem_cons_of_mem _ hd), Nat.le_refl _,
          fun hlt => absurd hlt (Nat.lt_irrefl _), ?_⟩
        rw [← h.value, Nat.ofDigitChars_cons]
        rfl
      have hpad := ih (List.length_pos_iff.2 hrest) htail
      have hle : (Nat.toDigits 10 n).length ≤ rest.length := by
        have hmax := congrArg List.length hpad
        rw [List.length_leftpad] at hmax
        omega
      have hsucc : rest.length + 1 - (Nat.toDigits 10 n).length =
          rest.length - (Nat.toDigits 10 n).length + 1 := by omega
      rw [← hlength, List.leftpad, hsucc, List.replicate_succ, List.cons_append]
      exact congrArg ('0' :: ·) hpad
    · have hdigits : c :: rest = ['0'] ∨ (c :: rest).head? ≠ some '0' := by
        by_cases hc : c = '0'
        · have hnil : rest = [] := Decidable.not_not.1 fun hne => hzero ⟨hc, hne⟩
          exact Or.inl (by rw [hc, hnil])
        · exact Or.inr (by simpa using hc)
      rw [h.toDigits_eq (List.cons_ne_nil _ _) hdigits, leftpad_of_le h.width_le]

/-- Without a width to fill, there are only the digits that the number has of itself. -/
theorem eq_toDigits (h : IsDigits 1 n digits) : digits = Nat.toDigits 10 n := by
  rw [h.eq_leftpad Nat.one_pos, leftpad_of_le (isDigits_toDigits n).width_le]

/-- Two ways to fill a width with one number are the same. -/
theorem unique (hwidth : 0 < width) (h : IsDigits width n digits)
    (h' : IsDigits width n others) : digits = others := by
  rw [h.eq_leftpad hwidth, h'.eq_leftpad hwidth]

/-- The digits that fill a positive width are not empty. -/
theorem ne_nil (hwidth : 0 < width) (h : IsDigits width n digits) : digits ≠ [] :=
  List.length_pos_iff.1 (Nat.lt_of_lt_of_le hwidth h.width_le)

/-- A text that starts with digits does not start with a minus. -/
theorem head?_append_ne_minus (hwidth : 0 < width) (h : IsDigits width n digits)
    (rest : List Char) : (digits ++ rest).head? ≠ some '-' := by
  obtain ⟨first, others, rfl⟩ := List.exists_cons_of_ne_nil (h.ne_nil hwidth)
  intro hhead
  have hfirst := h.isDigit first List.mem_cons_self
  rw [show first = '-' from Option.some.inj hhead] at hfirst
  exact absurd hfirst (by decide)

/-- Digits without a superfluous zero are all that a single place asks for. -/
theorem of_canonical (hne : digits ≠ []) (hdigits : ∀ c ∈ digits, c.isDigit = true)
    (hzero : digits = ['0'] ∨ digits.head? ≠ some '0') (hvalue : Nat.ofDigitChars 10 digits 0 = n) :
    IsDigits 1 n digits := by
  rw [← hvalue, ← toDigits_ofDigitChars hne hdigits hzero, Nat.ofDigitChars_ten_toDigits]
  exact isDigits_toDigits _

end IsDigits

/-! ### Numerals of integers -/

/-- A text behind a minus, if one is asked for. -/
def signed (negative : Bool) (body : List Char) : List Char :=
  if negative then '-' :: body else body

/-- The sign in front of a text makes it a signed one. -/
theorem sign_append (negative : Bool) (body : List Char) :
    sign negative ++ body = signed negative body := by
  cases negative <;> rfl

/-- A minus stands at the front exactly if it is asked for, unless the text has one of its own. -/
theorem head?_signed_eq_minus_iff {negative : Bool} {body : List Char}
    (h : body.head? ≠ some '-') : (signed negative body).head? = some '-' ↔ negative = true := by
  cases negative with
  | false => simpa [signed] using h
  | true => simp [signed]

/-- The decimal numeral of an integer: a minus before a negative one, and the digits of its
  magnitude without a superfluous zero. -/
def IsNumeral (text : List Char) (n : Int) : Prop :=
  ∃ digits, IsDigits 1 n.natAbs digits ∧ text = signed (decide (n < 0)) digits

/-- The text of an integer is its numeral. -/
theorem isNumeral_integer (n : Int) : IsNumeral (integer n) n :=
  ⟨Nat.toDigits 10 n.natAbs, isDigits_toDigits _, sign_append _ _⟩

/-- An integer has one numeral. -/
theorem isNumeral_iff {text : List Char} {n : Int} : IsNumeral text n ↔ text = integer n := by
  constructor
  · rintro ⟨digits, hdigits, rfl⟩
    rw [integer, hdigits.eq_toDigits, sign_append]
  · rintro rfl
    exact isNumeral_integer n

end Telemetry.Decimal
