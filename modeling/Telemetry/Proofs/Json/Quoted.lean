import Mathlib.Data.List.Forall2
import Telemetry.Json.Scanner
/-!
# Quoted texts are read whatever their spelling

A character has many spellings: it may stand for itself, it may have an escape of two characters,
and it has escapes in hexadecimal, whose digits may be of either case and which come in pairs
beyond the first plane. A scanner inside a quoted text reads every one of them as that character,
and the closing quote as the end of the text.
-/

namespace Telemetry.Json

/-! ### Runs of the scanner -/

namespace Scanner

theorem run_cons (s : Scanner) (c : Char) (text : List Char) :
    s.run (c :: text) = (s.step c).bind fun s => s.run text := rfl

theorem run_append (s : Scanner) (before after : List Char) :
    s.run (before ++ after) = (s.run before).bind fun s => s.run after :=
  List.foldlM_append

/-- Inside a quoted text, the scanner does what its reader does, up to the closing quote. -/
theorem step_quoted (read : List Token) {q : Quoted} {c : Char}
    (hopen : ¬ (q.phase = .plain ∧ c = '"')) :
    step ⟨read, .quoted q⟩ c = (q.step c).map fun q => ⟨read, .quoted q⟩ :=
  if_neg hopen

end Scanner

namespace Quoted

/-! ### Hexadecimal digits -/

/-- A hexadecimal digit of either case. -/
def IsHexDigit (c : Char) (d : ℕ) : Prop :=
  d < 16 ∧ (c = Nat.digitChar d ∨ c = (Nat.digitChar d).toUpper)

/-- A character has at most one value as a hexadecimal digit. -/
theorem hexDigit?_eq_some_iff {c : Char} {d : ℕ} : hexDigit? c = some d ↔ IsHexDigit c d := by
  constructor
  · have hsmall : ∀ n < 128, ∀ d ∈ hexDigit? (Char.ofNat n),
        d < 16 ∧ (Char.ofNat n = Nat.digitChar d ∨ Char.ofNat n = (Nat.digitChar d).toUpper) := by
      decide +kernel
    intro h
    have hc : c.toNat < 128 := by
      unfold hexDigit? at h
      split at h
      · next hrange => exact Nat.lt_of_le_of_lt hrange.2 (by decide)
      · split at h
        · next hrange => exact Nat.lt_of_le_of_lt hrange.2 (by decide)
        · split at h
          · next hrange => exact Nat.lt_of_le_of_lt hrange.2 (by decide)
          · cases h
    have hdigit := hsmall c.toNat hc d
    rw [Char.ofNat_toNat] at hdigit
    exact hdigit h
  · have hdigits : ∀ d < 16, hexDigit? (Nat.digitChar d) = some d ∧
        hexDigit? (Nat.digitChar d).toUpper = some d := by decide +kernel
    rintro ⟨hd, rfl | rfl⟩
    · exact (hdigits d hd).1
    · exact (hdigits d hd).2

/-- The digit of a number below sixteen has its value. -/
theorem isHexDigit_digitChar {d : ℕ} (h : d < 16) : IsHexDigit (Nat.digitChar d) d :=
  ⟨h, Or.inl rfl⟩

/-- The number whose digits in base sixteen are those of another number and then the given ones. -/
def hexValue (before : ℕ) (values : List ℕ) : ℕ :=
  values.foldl (fun value d => value * 16 + d) before

/-- Four hexadecimal digits, which make up a code unit. -/
def IsUnit (digits : List Char) (unit : ℕ) : Prop :=
  ∃ values : List ℕ, values.length = 4 ∧ List.Forall₂ IsHexDigit digits values ∧
    unit = hexValue 0 values

/-- Code units by computation. -/
theorem isUnit_of_map_hexDigit? {digits : List Char} {unit : ℕ} (values : List ℕ)
    (hlength : values.length = 4) (h : digits.map hexDigit? = values.map some)
    (hunit : unit = hexValue 0 values) : IsUnit digits unit := by
  have hread : List.Forall₂ Eq (digits.map hexDigit?) (values.map some) := by
    rw [h, List.forall₂_eq_eq_eq]
  rw [List.forall₂_map_left_iff, List.forall₂_map_right_iff] at hread
  exact ⟨values, hlength, hread.imp fun _ _ => hexDigit?_eq_some_iff.1, hunit⟩

/-! ### Spellings -/

/-- The letters that stand behind a backslash, with the characters for which they stand. -/
def shortEscapes : List (Char × Char) :=
  [('"', '"'), ('\\', '\\'), ('/', '/'), ('b', '\x08'), ('f', '\x0c'), ('n', '\n'), ('r', '\r'),
    ('t', '\t')]

/-- The code units of a character beyond the first plane. -/
def highUnit (c : Char) : ℕ := 0xd800 + (c.toNat - 0x10000) / 0x400

/-- The second unit of a character beyond the first plane. -/
def lowUnit (c : Char) : ℕ := 0xdc00 + (c.toNat - 0x10000) % 0x400

/-- The spellings of a character inside a quoted text. -/
inductive Spells : List Char → Char → Prop
  | self {c : Char} (hquote : c ≠ '"') (hescape : c ≠ '\\') (hcontrol : 0x20 ≤ c.toNat) :
    Spells [c] c
  | short {letter c : Char} (h : (letter, c) ∈ shortEscapes) : Spells ['\\', letter] c
  | unit {digits : List Char} {c : Char} (h : IsUnit digits c.toNat) :
    Spells (['\\', 'u'] ++ digits) c
  | pair {high low : List Char} {c : Char} (hc : 0x10000 ≤ c.toNat)
    (hhigh : IsUnit high (highUnit c)) (hlow : IsUnit low (lowUnit c)) :
    Spells (['\\', 'u'] ++ high ++ (['\\', 'u'] ++ low)) c

/-- The spellings of a text: one for each of its characters. -/
inductive SpellsAll : List Char → List Char → Prop
  | nil : SpellsAll [] []
  | cons {spelled body text : List Char} {c : Char} (h : Spells spelled c)
    (hbody : SpellsAll body text) : SpellsAll (spelled ++ body) (c :: text)

/-- A control character is spelled by its hexadecimal escape. -/
theorem spells_hexEscape {c : Char} (hcontrol : c.toNat < 0x20) : Spells (hexEscape c) c := by
  have hvalue : c.toNat = ((0 * 16 + 0) * 16 + c.toNat / 16) * 16 + c.toNat % 16 := by omega
  refine Spells.unit ⟨[0, 0, c.toNat / 16, c.toNat % 16], rfl, ?_, ?_⟩
  · exact .cons (isHexDigit_digitChar (by decide)) (.cons (isHexDigit_digitChar (by decide))
      (.cons (isHexDigit_digitChar (by omega)) (.cons (isHexDigit_digitChar (by omega)) .nil)))
  · simpa [hexValue] using hvalue

/-- What is written for a character is one of its spellings. -/
theorem spells_escape (c : Char) : Spells (escape c) c := by
  unfold escape
  split
  case h_8 hquote hescape _ _ _ _ _ =>
    by_cases hcontrol : c.toNat < 0x20
    · rw [if_pos hcontrol]
      exact spells_hexEscape hcontrol
    · rw [if_neg hcontrol]
      exact .self hquote hescape (Nat.le_of_not_lt hcontrol)
  all_goals exact .short (by decide)

/-- What is written for a text is one of its spellings. -/
theorem spellsAll_flatMap_escape (text : List Char) : SpellsAll (text.flatMap escape) text := by
  induction text with
  | nil => exact .nil
  | cons c text ih => exact .cons (spells_escape c) ih

/-! ### Reading code units -/

/-- What a unit comes to does not depend on the phase. -/
theorem complete_eq_complete (q : Quoted) (high : Option ℕ) (unit : ℕ) :
    q.complete high unit = complete ⟨q.read, .plain⟩ high unit := by
  cases high <;> rfl

/-- A hexadecimal digit that is not the last one is collected. -/
theorem step_hex_succ (read : List Token) (chars : List Char) (high : Option ℕ)
    (missing value : ℕ) {c : Char} {d : ℕ} (hd : IsHexDigit c d) :
    Scanner.step ⟨read, .quoted ⟨chars, .hex high (missing + 1) value⟩⟩ c =
      some ⟨read, .quoted ⟨chars, .hex high missing (value * 16 + d)⟩⟩ := by
  rw [Scanner.step_quoted read fun h => Phase.noConfusion h.1]
  simp [step, hexDigit?_eq_some_iff.2 hd]

/-- The last of the awaited digits completes a code unit. -/
theorem run_hex (read : List Token) (chars : List Char) (high : Option ℕ) {missing value : ℕ}
    {digits : List Char} {values : List ℕ} (h : List.Forall₂ IsHexDigit digits values)
    (hlength : values.length = missing + 1) :
    Scanner.run ⟨read, .quoted ⟨chars, .hex high missing value⟩⟩ digits =
      (complete ⟨chars, .plain⟩ high (hexValue value values)).map
        fun q => ⟨read, .quoted q⟩ := by
  induction missing generalizing value digits values with
  | zero =>
    obtain ⟨d, rfl⟩ := List.length_eq_one_iff.1 hlength
    obtain ⟨c, _, hd, hnil, rfl⟩ := List.forall₂_cons_right_iff.1 h
    obtain rfl := List.forall₂_nil_right_iff.1 hnil
    have hstep : step ⟨chars, .hex high 0 value⟩ c =
        complete ⟨chars, .plain⟩ high (value * 16 + d) := by
      simp only [step, hexDigit?_eq_some_iff.2 hd, Option.bind_eq_bind, Option.bind_some]
      exact complete_eq_complete _ _ _
    rw [Scanner.run_cons, Scanner.step_quoted read fun h => Phase.noConfusion h.1, hstep]
    exact Option.bind_fun_some _
  | succ missing ih =>
    obtain ⟨d, values, rfl⟩ := List.exists_cons_of_length_eq_add_one hlength
    obtain ⟨c, digits, hd, hdigits, rfl⟩ := List.forall₂_cons_right_iff.1 h
    rw [Scanner.run_cons, step_hex_succ read chars high missing value hd, Option.bind_some,
      ih hdigits (Nat.succ.inj hlength), hexValue, hexValue, List.foldl_cons]

/-- Four hexadecimal digits are completed to a unit. -/
theorem run_unit (read : List Token) (chars : List Char) {digits : List Char} {unit : ℕ}
    (h : IsUnit digits unit) :
    Scanner.run ⟨read, .quoted ⟨chars, .plain⟩⟩ (['\\', 'u'] ++ digits) =
      (complete ⟨chars, .plain⟩ none unit).map fun q => ⟨read, .quoted q⟩ := by
  obtain ⟨values, hlength, hdigits, rfl⟩ := h
  exact run_hex read chars none hdigits hlength

/-- The four digits of the second unit of a pair are completed as well. -/
theorem run_secondUnit (read : List Token) (chars : List Char) (high : ℕ) {digits : List Char}
    {unit : ℕ} (h : IsUnit digits unit) :
    Scanner.run ⟨read, .quoted ⟨chars, .pair high⟩⟩ (['\\', 'u'] ++ digits) =
      (complete ⟨chars, .plain⟩ (some high) unit).map fun q => ⟨read, .quoted q⟩ := by
  obtain ⟨values, hlength, hdigits, rfl⟩ := h
  exact run_hex read chars (some high) hdigits hlength

/-! ### Reading spellings -/

/-- Inside a quoted text, the given characters are read as one character. -/
def Reads (spelled : List Char) (c : Char) : Prop :=
  ∀ read chars, Scanner.run ⟨read, .quoted ⟨chars, .plain⟩⟩ spelled =
    some ⟨read, .quoted ⟨c :: chars, .plain⟩⟩

/-- A character is no surrogate, so its code unit stands alone if it is the only one. -/
theorem not_isHigh_and_not_isLow (c : Char) : ¬ IsHigh c.toNat ∧ ¬ IsLow c.toNat := by
  have hvalid : c.toNat < 0xd800 ∨ 0xdfff < c.toNat ∧ c.toNat < 0x110000 := c.valid
  omega

theorem isHigh_highUnit (c : Char) : IsHigh (highUnit c) := by
  have hvalid : c.toNat < 0xd800 ∨ 0xdfff < c.toNat ∧ c.toNat < 0x110000 := c.valid
  rw [highUnit]
  omega

theorem isLow_lowUnit (c : Char) : IsLow (lowUnit c) := by
  rw [lowUnit]
  omega

/-- A character beyond the first plane is that of its two units. -/
theorem ofPair_units {c : Char} (hc : 0x10000 ≤ c.toNat) :
    ofPair (highUnit c) (lowUnit c) = c := by
  have hvalue : 0x10000 + (highUnit c - 0xd800) * 0x400 + (lowUnit c - 0xdc00) = c.toNat := by
    rw [highUnit, lowUnit]
    omega
  rw [ofPair, hvalue, Char.ofNat_toNat]

/-- A character that needs no escape is read as it is. -/
theorem reads_self {c : Char} (hquote : c ≠ '"') (hescape : c ≠ '\\') (hcontrol : 0x20 ≤ c.toNat) :
    Reads [c] c := by
  intro read chars
  have hstep : step ⟨chars, .plain⟩ c = some ⟨c :: chars, .plain⟩ := by
    rw [step, if_neg hescape, if_neg (Nat.not_lt.2 hcontrol)]
    rfl
  rw [Scanner.run_cons, Scanner.step_quoted read fun h => hquote h.2, hstep]
  rfl

/-- A pair of units is read as the character that it stands for. -/
theorem reads_pair {high low : List Char} {c : Char} (hc : 0x10000 ≤ c.toNat)
    (hhigh : IsUnit high (highUnit c)) (hlow : IsUnit low (lowUnit c)) :
    Reads (['\\', 'u'] ++ high ++ (['\\', 'u'] ++ low)) c := by
  intro read chars
  have hfirst : complete ⟨chars, .plain⟩ none (highUnit c) = some ⟨chars, .pair (highUnit c)⟩ :=
    if_pos (isHigh_highUnit c)
  have hsecond : complete ⟨chars, .plain⟩ (some (highUnit c)) (lowUnit c) =
      some ⟨c :: chars, .plain⟩ := by
    rw [complete, if_pos (isLow_lowUnit c), ofPair_units hc]
    rfl
  rw [Scanner.run_append, run_unit read chars hhigh, hfirst, Option.map_some, Option.bind_some,
    run_secondUnit read chars _ hlow, hsecond, Option.map_some]

/-- Every spelling of a character reads as it. -/
theorem Spells.reads {spelled : List Char} {c : Char} (h : Spells spelled c) : Reads spelled c := by
  cases h with
  | self hquote hescape hcontrol => exact reads_self hquote hescape hcontrol
  | short h =>
    -- The short escapes are read by evaluation.
    simp only [shortEscapes, List.mem_cons, Prod.mk.injEq, List.not_mem_nil, or_false] at h
    rcases h with ⟨rfl, rfl⟩ | ⟨rfl, rfl⟩ | ⟨rfl, rfl⟩ | ⟨rfl, rfl⟩ | ⟨rfl, rfl⟩ | ⟨rfl, rfl⟩ |
      ⟨rfl, rfl⟩ | ⟨rfl, rfl⟩ <;> exact fun _ _ => rfl
  | unit h =>
    intro read chars
    obtain ⟨hhigh, hlow⟩ := not_isHigh_and_not_isLow c
    rw [run_unit read chars h, complete, if_neg hhigh, if_neg hlow, Char.ofNat_toNat]
    rfl
  | pair hc hhigh hlow => exact reads_pair hc hhigh hlow

end Quoted

/-! ### Whole texts -/

namespace Scanner

/-- Every spelling of a text reads as it. -/
theorem run_spellsAll {body text : List Char} (h : Quoted.SpellsAll body text) (read : List Token)
    (chars : List Char) :
    run ⟨read, .quoted ⟨chars, .plain⟩⟩ body =
      some ⟨read, .quoted ⟨text.reverse ++ chars, .plain⟩⟩ := by
  induction h generalizing chars with
  | nil => rfl
  | @cons spelled body text c h _ ih =>
    rw [run_append, h.reads read chars, Option.bind_some, ih, List.reverse_cons,
      List.append_assoc, List.singleton_append]

/-- A quoted text is read as a token, however its characters are spelled. -/
theorem run_quoted (read : List Token) {body : List Char} {s : String}
    (h : Quoted.SpellsAll body s.toList) :
    run ⟨read, .between⟩ ('"' :: (body ++ ['"'])) = some ⟨.string s :: read, .between⟩ := by
  have hopen : step ⟨read, .between⟩ '"' = some ⟨read, .quoted ⟨[], .plain⟩⟩ := rfl
  rw [run_cons, hopen, Option.bind_some, run_append, run_spellsAll h, Option.bind_some,
    List.append_nil]
  change some (push read (.string (String.ofList s.toList.reverse.reverse))) = _
  rw [List.reverse_reverse, String.ofList_toList]
  rfl

end Scanner

end Telemetry.Json
