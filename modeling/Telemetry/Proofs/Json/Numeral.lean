import Telemetry.Json.Scanner
import Telemetry.Proofs.Decimal.Digits
/-!
# Numerals are read as they are written

Every number is read from its own spelling, down to the zeros of its fraction and the presence of
an exponent. Whatever spells a number consists of a sign, a whole part, a fraction and an exponent,
all of them made of numeric characters, and an integer has one spelling.
-/

namespace Telemetry.Json.Number

/-! ### Digits in front of a rest -/

/-- A rest that does not go on with a digit. -/
def StopsDigits (rest : List Char) : Prop := ∀ c ∈ rest.head?, c.isDigit = false

theorem stopsDigits_nil : StopsDigits [] := fun _ h => nomatch h

/-- A character that is no digit stops digits. -/
theorem stopsDigits_cons {c : Char} (hc : c.isDigit = false) (rest : List Char) :
    StopsDigits (c :: rest) := by
  rintro _ ⟨rfl⟩
  exact hc

/-- The digits in front of a rest can be taken. -/
theorem takeWhile_isDigit_append {digits rest : List Char}
    (hdigits : ∀ c ∈ digits, c.isDigit = true)
    (hrest : StopsDigits rest) : (digits ++ rest).takeWhile Char.isDigit = digits := by
  rw [List.takeWhile_append_of_pos hdigits]
  cases rest with
  | nil => exact List.append_nil digits
  | cons c rest => simp [hrest c rfl]

/-- The rest behind digits is left. -/
theorem dropWhile_isDigit_append {digits rest : List Char}
    (hdigits : ∀ c ∈ digits, c.isDigit = true)
    (hrest : StopsDigits rest) : (digits ++ rest).dropWhile Char.isDigit = rest := by
  rw [List.dropWhile_append_of_pos hdigits]
  cases rest with
  | nil => rfl
  | cons c rest => simp [hrest c rfl]

/-- Digits are split off from a rest that does not go on with them. -/
theorem digits?_append {digits rest : List Char} (hne : digits ≠ [])
    (hdigits : ∀ c ∈ digits, c.isDigit = true) (hrest : StopsDigits rest) :
    digits? (digits ++ rest) = some (digits, rest) := by
  rw [digits?, takeWhile_isDigit_append hdigits hrest, dropWhile_isDigit_append hdigits hrest]
  cases digits with
  | nil => exact absurd rfl hne
  | cons c digits => rfl

/-! ### The parts of a number -/

/-- The digits of a number are a whole part. -/
theorem whole?_append (n : Nat) {rest : List Char} (hrest : StopsDigits rest) :
    whole? (Nat.toDigits 10 n ++ rest) = some (Nat.toDigits 10 n, rest) := by
  have hdigits : ∀ c ∈ Nat.toDigits 10 n, c.isDigit = true := fun c =>
    Decimal.isDigit_of_mem_toDigits
  rw [whole?, digits?_append Nat.toDigits_ne_nil hdigits hrest, Option.filter_some]
  rw [if_pos (decide_eq_true (Decimal.toDigits_eq_zero_or_head? n))]

/-- A rest that goes on neither with a digit nor with a point. -/
def StopsPositional (rest : List Char) : Prop := StopsDigits rest ∧ rest.head? ≠ some '.'

theorem stopsPositional_nil : StopsPositional [] := ⟨stopsDigits_nil, by decide⟩

/-- A character that is neither a digit nor a point stops a positional notation. -/
theorem stopsPositional_cons {c : Char} (hdigit : c.isDigit = false) (hpoint : c ≠ '.')
    (rest : List Char) : StopsPositional (c :: rest) :=
  ⟨stopsDigits_cons hdigit rest, fun h => hpoint (Option.some.inj h)⟩

/-- An exponent stops a positional notation, even if it is absent. -/
theorem stopsPositional_exponentSpelling (e : Option Int) :
    StopsPositional (exponentSpelling e) := by
  cases e with
  | none => exact stopsPositional_nil
  | some e => exact stopsPositional_cons rfl (by decide) _

/-- A fraction is split off, even if it is empty. -/
theorem fraction?_pointed {digits rest : List Char} (hdigits : ∀ c ∈ digits, c.isDigit = true)
    (hrest : StopsPositional rest) :
    fraction? (Decimal.pointed digits ++ rest) = some (digits, rest) := by
  cases digits with
  | nil =>
    cases rest with
    | nil => rfl
    | cons c rest =>
      have hpoint : c ≠ '.' := fun hc => hrest.2 (congrArg some hc)
      simp [fraction?, Decimal.pointed, hpoint]
  | cons c digits => exact digits?_append (List.cons_ne_nil c digits) hdigits hrest.1

/-- The magnitude of an exponent is read whatever width its digits fill. -/
theorem magnitude?_of_isDigits {width n : Nat} {digits : List Char} (hwidth : 0 < width)
    (h : Decimal.IsDigits width n digits) : magnitude? digits = some n := by
  have hread := digits?_append (h.ne_nil hwidth) h.isDigit stopsDigits_nil
  rw [List.append_nil] at hread
  rw [magnitude?, hread]
  exact congrArg some h.value

/-- The sign of an exponent is read with it, even if it is a plus. -/
theorem signedExponent?_of_isDigits {width : Nat} {e : Int} {digits : List Char}
    (hwidth : 0 < width) (h : Decimal.IsDigits width e.natAbs digits) :
    signedExponent? ((if e < 0 then '-' else '+') :: digits) = some e := by
  by_cases he : e < 0
  · have habs : -(e.natAbs : Int) = e := by omega
    rw [if_pos he, signedExponent?, magnitude?_of_isDigits hwidth h]
    exact congrArg some habs
  · have habs : (e.natAbs : Int) = e := by omega
    rw [if_neg he, signedExponent?, magnitude?_of_isDigits hwidth h]
    exact congrArg some habs

/-- An exponent is read from its own spelling. -/
theorem exponent?_exponentSpelling (e : Option Int) : exponent? (exponentSpelling e) = some e := by
  cases e with
  | none => rfl
  | some e =>
    rw [exponentSpelling, exponent?,
      signedExponent?_of_isDigits Nat.one_pos (Decimal.isDigits_toDigits _)]
    rfl

/-! ### Whole numbers with fraction and exponent -/

/-- A fraction stops digits. -/
theorem stopsDigits_pointed_append (digits : List Char) {rest : List Char}
    (hrest : StopsPositional rest) : StopsDigits (Decimal.pointed digits ++ rest) := by
  cases digits with
  | nil => exact hrest.1
  | cons c digits => exact stopsDigits_cons rfl _

/-- The number behind a sign is read. -/
theorem unsigned?_positional (negative : Bool) (coefficient places : Nat) {rest : List Char}
    {e : Option Int} (hrest : StopsPositional rest) (he : exponent? rest = some e) :
    unsigned? negative (Decimal.positional places coefficient ++ rest) =
      some ⟨negative, coefficient, places, e⟩ := by
  have hdigits : ∀ c ∈ Decimal.lowDigits places coefficient, c.isDigit = true := fun c =>
    Decimal.isDigit_of_mem_lowDigits
  rw [unsigned?, Decimal.positional, List.append_assoc,
    whole?_append _ (stopsDigits_pointed_append _ hrest)]
  simp only [Option.bind_eq_bind, Option.bind_some, fraction?_pointed hdigits hrest, he,
    Decimal.ofDigitChars_positional, Decimal.length_lowDigits, Option.pure_def]

/-- A positional notation starts with a digit. -/
theorem exists_digit_cons_positional (places coefficient : Nat) :
    ∃ c rest, Decimal.positional places coefficient = c :: rest ∧ c.isDigit = true := by
  have hne : Nat.toDigits 10 (coefficient / 10 ^ places) ≠ [] := Nat.toDigits_ne_nil
  obtain ⟨c, rest, hcons⟩ := List.exists_cons_of_ne_nil hne
  refine ⟨c, rest ++ Decimal.pointed (Decimal.lowDigits places coefficient), ?_, ?_⟩
  · rw [Decimal.positional, hcons, List.cons_append]
  · exact Decimal.isDigit_of_mem_toDigits (hcons ▸ List.mem_cons_self)

/-- A positional notation with a sign before it and an exponent behind it is read, whatever the
  spelling of the exponent. -/
theorem ofSpelling?_positional (negative : Bool) (coefficient places : Nat) {rest : List Char}
    {e : Option Int} (hrest : StopsPositional rest) (he : exponent? rest = some e) :
    ofSpelling? (Decimal.sign negative ++ (Decimal.positional places coefficient ++ rest)) =
      some ⟨negative, coefficient, places, e⟩ := by
  have hread := unsigned?_positional negative coefficient places hrest he
  cases negative with
  | true => exact hread
  | false =>
    obtain ⟨c, digits, hcons, hc⟩ := exists_digit_cons_positional places coefficient
    -- Without a sign, the first character is a digit and not taken for a minus.
    have hminus : c ≠ '-' := by
      rintro rfl
      exact absurd hc (by decide)
    rw [hcons] at hread
    rw [Decimal.sign, if_neg Bool.false_ne_true, List.nil_append, hcons, List.cons_append,
      ofSpelling?]
    · exact hread
    · exact fun rest heq => hminus (List.cons.inj heq).1

/-- A number is read from its spelling. -/
theorem ofSpelling?_spelling (n : Number) : ofSpelling? n.spelling = some n := by
  rw [spelling, List.append_assoc]
  exact ofSpelling?_positional n.negative n.coefficient n.places
    (stopsPositional_exponentSpelling n.exponent) (exponent?_exponentSpelling n.exponent)

/-! ### The parts of what is read -/

/-- Digits that are split off are some digits and stand at the front. -/
theorem digits?_eq_some {text digits rest : List Char} (h : digits? text = some (digits, rest)) :
    text = digits ++ rest ∧ digits ≠ [] ∧ ∀ c ∈ digits, c.isDigit = true := by
  unfold digits? at h
  split at h
  · cases h
  · next hne =>
    obtain ⟨rfl, rfl⟩ := Prod.mk.inj (Option.some.inj h)
    exact ⟨List.takeWhile_append_dropWhile.symm, hne, List.all_eq_true.1 List.all_takeWhile⟩

/-- A whole part that is split off has no superfluous zero. -/
theorem whole?_eq_some {text whole rest : List Char} (h : whole? text = some (whole, rest)) :
    text = whole ++ rest ∧ whole ≠ [] ∧ (∀ c ∈ whole, c.isDigit = true) ∧
      (whole = ['0'] ∨ whole.head? ≠ some '0') := by
  obtain ⟨h, hzero⟩ := Option.filter_eq_some_iff.1 h
  obtain ⟨htext, hne, hdigits⟩ := digits?_eq_some h
  exact ⟨htext, hne, hdigits, of_decide_eq_true hzero⟩

/-- A fraction that is split off consists of digits behind a point, or it is empty. -/
theorem fraction?_eq_some {text fraction rest : List Char}
    (h : fraction? text = some (fraction, rest)) :
    text = Decimal.pointed fraction ++ rest ∧ ∀ c ∈ fraction, c.isDigit = true := by
  unfold fraction? at h
  split at h
  · obtain ⟨rfl, hne, hdigits⟩ := digits?_eq_some h
    obtain ⟨c, digits, rfl⟩ := List.exists_cons_of_ne_nil hne
    exact ⟨rfl, hdigits⟩
  · obtain ⟨rfl, rfl⟩ := Prod.mk.inj (Option.some.inj h)
    exact ⟨rfl, List.forall_mem_nil _⟩

/-- A magnitude consists of digits. -/
theorem isDigit_of_magnitude? {text : List Char} {e : Nat} (h : magnitude? text = some e) :
    ∀ c ∈ text, c.isDigit = true := by
  unfold magnitude? at h
  split at h
  · next digits hdigits =>
    obtain ⟨rfl, -, hall⟩ := digits?_eq_some hdigits
    rwa [List.append_nil]
  · cases h

/-- Behind the mark of an exponent. -/
theorem isDigit_or_sign_of_signedExponent? {text : List Char} {e : Int}
    (h : signedExponent? text = some e) :
    ∀ c ∈ text, c.isDigit = true ∨ c = '-' ∨ c = '+' := by
  unfold signedExponent? at h
  split at h
  all_goals
    obtain ⟨n, hn, -⟩ := Option.map_eq_some_iff.1 h
    obtain ⟨m, hm, -⟩ := Option.bind_eq_some_iff.1 hn
    have hdigits : ∀ c ∈ _, c.isDigit = true ∨ c = '-' ∨ c = '+' :=
      fun c hc => Or.inl (isDigit_of_magnitude? hm c hc)
  · exact List.forall_mem_cons.2 ⟨by decide, hdigits⟩
  · exact List.forall_mem_cons.2 ⟨by decide, hdigits⟩
  · exact hdigits

/-- An exponent is absent, or it has a mark of either case. -/
theorem exponent?_eq_some {text : List Char} {e : Option Int} (h : exponent? text = some e) :
    (text = [] ∧ e = none) ∨ ∃ mark rest, text = mark :: rest ∧ (mark = 'e' ∨ mark = 'E') ∧
      e ≠ none ∧ ∀ c ∈ rest, c.isDigit = true ∨ c = '-' ∨ c = '+' := by
  unfold exponent? at h
  split at h
  · exact Or.inl ⟨rfl, (Option.some.inj h).symm⟩
  · obtain ⟨n, hn, rfl⟩ := Option.map_eq_some_iff.1 h
    exact Or.inr ⟨_, _, rfl, Or.inl rfl, by simp, isDigit_or_sign_of_signedExponent? hn⟩
  · obtain ⟨n, hn, rfl⟩ := Option.map_eq_some_iff.1 h
    exact Or.inr ⟨_, _, rfl, Or.inr rfl, by simp, isDigit_or_sign_of_signedExponent? hn⟩
  · cases h

/-- The parts of a numeral: a sign, a whole part without a superfluous zero, a fraction that may be
  empty, and what spells the exponent. -/
structure HasParts (text : List Char) (n : Number) (whole fraction tail : List Char) : Prop where
  text_eq : text = Decimal.sign n.negative ++ (whole ++ (Decimal.pointed fraction ++ tail))
  whole_ne_nil : whole ≠ []
  whole_digits : ∀ c ∈ whole, c.isDigit = true
  whole_canonical : whole = ['0'] ∨ whole.head? ≠ some '0'
  fraction_digits : ∀ c ∈ fraction, c.isDigit = true
  coefficient_eq : n.coefficient = Nat.ofDigitChars 10 (whole ++ fraction) 0
  places_eq : n.places = fraction.length
  exponent_eq : exponent? tail = some n.exponent

/-- The number behind a sign has parts. -/
theorem exists_hasParts_of_unsigned? {negative : Bool} {text : List Char} {n : Number}
    (h : unsigned? negative text = some n) :
    ∃ whole fraction tail,
      HasParts (Decimal.sign negative ++ text) n whole fraction tail := by
  obtain ⟨⟨whole, behind⟩, hwhole, hbehind⟩ := Option.bind_eq_some_iff.1 h
  obtain ⟨⟨fraction, tail⟩, hfraction, htail⟩ := Option.bind_eq_some_iff.1 hbehind
  obtain ⟨e, he, hn⟩ := Option.bind_eq_some_iff.1 htail
  obtain ⟨rfl, hne, hdigits, hzero⟩ := whole?_eq_some hwhole
  obtain ⟨rfl, hfractionDigits⟩ := fraction?_eq_some hfraction
  obtain rfl := Option.some.inj hn
  exact ⟨whole, fraction, tail, rfl, hne, hdigits, hzero, hfractionDigits, rfl, rfl, he⟩

/-- What is read as a number has the parts of a numeral. -/
theorem exists_hasParts {text : List Char} {n : Number} (h : ofSpelling? text = some n) :
    ∃ whole fraction tail, HasParts text n whole fraction tail := by
  unfold ofSpelling? at h
  split at h
  · exact exists_hasParts_of_unsigned? h
  · exact exists_hasParts_of_unsigned? h

/-! ### Characters of what is read -/

namespace HasParts

variable {text whole fraction tail : List Char} {n : Number}

/-- All parts consist of numeric characters. -/
theorem isNumeric_of_mem (h : HasParts text n whole fraction tail) : ∀ c ∈ text, IsNumeric c := by
  have hsign : ∀ c ∈ Decimal.sign n.negative, IsNumeric c := by
    cases n.negative with
    | false => exact List.forall_mem_nil _
    | true => exact List.forall_mem_singleton.2 (Or.inr (Or.inl rfl))
  have hpointed : ∀ c ∈ Decimal.pointed fraction, IsNumeric c := by
    cases hfraction : fraction with
    | nil => exact List.forall_mem_nil _
    | cons d digits =>
      have hdigits := h.fraction_digits
      rw [hfraction] at hdigits
      exact List.forall_mem_cons.2 ⟨by decide, fun c hc => Or.inl (hdigits c hc)⟩
  have htail : ∀ c ∈ tail, IsNumeric c := by
    rcases exponent?_eq_some h.exponent_eq with ⟨rfl, -⟩ | ⟨mark, rest, rfl, hmark, -, hrest⟩
    · exact List.forall_mem_nil _
    · refine List.forall_mem_cons.2 ⟨by rcases hmark with rfl | rfl <;> decide, ?_⟩
      intro c hc
      rcases hrest c hc with hdigit | hminus | hplus
      · exact Or.inl hdigit
      · exact Or.inr (Or.inl hminus)
      · exact Or.inr (Or.inr (Or.inl hplus))
  rw [h.text_eq]
  simp only [List.forall_mem_append]
  exact ⟨hsign, fun c hc => Or.inl (h.whole_digits c hc), hpointed, htail⟩

/-- A numeral is not empty, since it has a whole part. -/
theorem ne_nil (h : HasParts text n whole fraction tail) : text ≠ [] := by
  rw [h.text_eq]
  simp [h.whole_ne_nil]

/-- Only a fraction has a point, and only an exponent has a mark. -/
theorem mem_iff (h : HasParts text n whole fraction tail) {c : Char} (hdigit : c.isDigit = false)
    (hminus : c ≠ '-') : c ∈ text ↔ c ∈ Decimal.pointed fraction ∨ c ∈ tail := by
  have hsign : c ∉ Decimal.sign n.negative := by
    cases n.negative <;> simp [Decimal.sign, hminus]
  have hwhole : c ∉ whole := fun hc => by simp [h.whole_digits c hc] at hdigit
  rw [h.text_eq]
  simp only [List.mem_append, hsign, hwhole, false_or]

/-- Only a fraction has a point. -/
theorem mem_pointed_iff (h : HasParts text n whole fraction tail) {c : Char}
    (hdigit : c.isDigit = false) : c ∈ Decimal.pointed fraction ↔ c = '.' ∧ n.places ≠ 0 := by
  have hdigits := h.fraction_digits
  rw [h.places_eq]
  cases fraction with
  | nil => simp [Decimal.pointed]
  | cons d digits =>
    have hc : c ∉ d :: digits := fun hc => by simp [hdigits c hc] at hdigit
    simp [Decimal.pointed, hc]

/-- Behind the fraction, a character is the mark of an exponent or belongs to what follows it. -/
theorem of_mem_tail (h : HasParts text n whole fraction tail) {c : Char}
    (hdigit : c.isDigit = false) (hminus : c ≠ '-') (hplus : c ≠ '+') :
    c ∈ tail → (c = 'e' ∨ c = 'E') ∧ n.exponent ≠ none := by
  rcases exponent?_eq_some h.exponent_eq with ⟨rfl, -⟩ | ⟨mark, rest, rfl, hmark, hsome, hrest⟩
  · exact fun hc => absurd hc List.not_mem_nil
  · intro hc
    rcases List.mem_cons.1 hc with rfl | hc
    · exact ⟨hmark, hsome⟩
    · rcases hrest c hc with h | h | h
      · simp [h] at hdigit
      · exact absurd h hminus
      · exact absurd h hplus

end HasParts

/-- A number has a fraction if a point is written. -/
theorem places_ne_zero_iff {text : List Char} {n : Number} (h : ofSpelling? text = some n) :
    n.places ≠ 0 ↔ '.' ∈ text := by
  obtain ⟨whole, fraction, tail, hparts⟩ := exists_hasParts h
  have htail : '.' ∉ tail := fun hc =>
    absurd (hparts.of_mem_tail rfl (by decide) (by decide) hc).1 (by decide)
  rw [hparts.mem_iff rfl (by decide), hparts.mem_pointed_iff rfl]
  simp [htail]

/-- A number has an exponent if its mark is written. -/
theorem exponent_ne_none_iff {text : List Char} {n : Number} (h : ofSpelling? text = some n) :
    n.exponent ≠ none ↔ 'e' ∈ text ∨ 'E' ∈ text := by
  obtain ⟨whole, fraction, tail, hparts⟩ := exists_hasParts h
  rw [hparts.mem_iff rfl (by decide), hparts.mem_iff rfl (by decide), hparts.mem_pointed_iff rfl,
    hparts.mem_pointed_iff rfl]
  rcases exponent?_eq_some hparts.exponent_eq with ⟨rfl, hnone⟩ | ⟨mark, rest, rfl, hmark, hsome, -⟩
  · simp [hnone]
  · rcases hmark with rfl | rfl <;> simp [hsome]

/-! ### Integers -/

/-- An integer is read from its decimal text. -/
theorem ofSpelling?_integer (i : Int) : ofSpelling? (Decimal.integer i) = some (ofInt i) := by
  have hread := ofSpelling?_positional (decide (i < 0)) i.natAbs 0 stopsPositional_nil rfl
  rwa [List.append_nil, Decimal.positional_zero] at hread

/-- An integer has one spelling, the digits of its magnitude behind its sign. -/
theorem ofSpelling?_eq_some_ofInt_iff {text : List Char} {i : Int} :
    ofSpelling? text = some (ofInt i) ↔ text = Decimal.integer i := by
  constructor
  · intro h
    obtain ⟨whole, fraction, tail, hparts⟩ := exists_hasParts h
    obtain rfl : fraction = [] := List.eq_nil_of_length_eq_zero hparts.places_eq.symm
    -- The mark of an exponent would leave one in the number.
    obtain rfl : tail = [] := by
      rcases exponent?_eq_some hparts.exponent_eq with ⟨htail, -⟩ | ⟨-, -, -, -, hsome, -⟩
      · exact htail
      · exact absurd rfl hsome
    have htext : text = Decimal.signed (decide (i < 0)) whole := by
      rw [← Decimal.sign_append]
      simpa [Decimal.pointed, ofInt] using hparts.text_eq
    have hcoefficient : i.natAbs = Nat.ofDigitChars 10 whole 0 := by
      rw [← List.append_nil whole]
      exact hparts.coefficient_eq
    -- No superfluous zero makes the digits canonical.
    have hwhole := Decimal.IsDigits.of_canonical hparts.whole_ne_nil hparts.whole_digits
      hparts.whole_canonical hcoefficient.symm
    exact Decimal.isNumeral_iff.1 ⟨whole, hwhole, htext⟩
  · rintro rfl
    exact ofSpelling?_integer i

/-! ### Characters of a spelling -/

/-- Spellings consist of numeric characters. -/
theorem isNumeric_of_mem_spelling {n : Number} {c : Char} (h : c ∈ n.spelling) : IsNumeric c := by
  obtain ⟨whole, fraction, tail, hparts⟩ := exists_hasParts n.ofSpelling?_spelling
  exact hparts.isNumeric_of_mem c h

/-- No number is spelled by nothing. -/
theorem spelling_ne_nil (n : Number) : n.spelling ≠ [] := by
  obtain ⟨whole, fraction, tail, hparts⟩ := exists_hasParts n.ofSpelling?_spelling
  exact hparts.ne_nil

end Telemetry.Json.Number
