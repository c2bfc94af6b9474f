import Telemetry.Proofs.Json.Quoted
/-!
# Misspelled texts are rejected

Whatever stands behind an opening quote either goes on with spellings of characters up to a closing
quote, or with spellings of characters up to a fault. A fault is a raw control character, an escape
that is unknown or cut, a surrogate that has no partner, or the end of everything. No reader gets
beyond a fault.
-/

namespace Telemetry.Json

namespace Quoted

/-! ### Faults -/

/-- What a text goes on with if it is no spelling of a character and no closing quote. -/
inductive Misspelled : List Char → Prop
  | unclosed : Misspelled []
  | control {c : Char} {rest : List Char} (h : c.toNat < 0x20) : Misspelled (c :: rest)
  | cutEscape : Misspelled ['\\']
  | unknownEscape {letter : Char} {rest : List Char} (hunit : letter ≠ 'u')
    (h : ∀ c, (letter, c) ∉ shortEscapes) : Misspelled ('\\' :: letter :: rest)
  | cutUnit {rest : List Char}
    (h : ∀ digits unit more, IsUnit digits unit → rest ≠ digits ++ more) :
    Misspelled (['\\', 'u'] ++ rest)
  | unpairedLow {digits rest : List Char} {unit : ℕ} (h : IsUnit digits unit)
    (hlow : IsLow unit) : Misspelled (['\\', 'u'] ++ digits ++ rest)
  | unpairedHigh {digits rest : List Char} {unit : ℕ} (h : IsUnit digits unit)
    (hhigh : IsHigh unit)
    (hrest : ∀ low unit more, IsUnit low unit → IsLow unit → rest ≠ ['\\', 'u'] ++ low ++ more) :
    Misspelled (['\\', 'u'] ++ digits ++ rest)

/-! ### Well spelled up to a fault -/

/-- Four hexadecimal digits stay below `2 ^ 16`. -/
theorem IsUnit.lt {digits : List Char} {unit : ℕ} (h : IsUnit digits unit) : unit < 0x10000 := by
  obtain ⟨values, hlength, hdigits, rfl⟩ := h
  have hboth : List.Forall₂ (fun d c => d < 16 ∧ True) values digits :=
    hdigits.flip.imp fun d c hd => ⟨hd.1, trivial⟩
  have hvalues : ∀ d ∈ values, d < 16 := ((List.forall₂_and_left _ _).1 hboth).1
  obtain ⟨i, j, k, l, rfl⟩ := List.length_eq_four.1 hlength
  simp only [List.forall_mem_cons, hexValue, List.foldl_cons, List.foldl_nil] at hvalues ⊢
  omega

/-- A number that is no surrogate is that of its character. -/
theorem toNat_ofNat {n : ℕ} (h : n.isValidChar) : (Char.ofNat n).toNat = n := by
  rw [Char.ofNat, dif_pos h]
  rfl

/-- A code unit that is no surrogate is a character. -/
theorem spells_unit {digits : List Char} {unit : ℕ} (h : IsUnit digits unit)
    (hhigh : ¬ IsHigh unit) (hlow : ¬ IsLow unit) :
    Spells (['\\', 'u'] ++ digits) (Char.ofNat unit) := by
  have hlt := h.lt
  have hvalid : unit.isValidChar := by
    rw [Nat.isValidChar]
    omega
  refine .unit ?_
  rwa [toNat_ofNat hvalid]

/-- Two surrogates in their order are a character. -/
theorem spells_pair {high low : List Char} {unit unit' : ℕ} (h : IsUnit high unit)
    (hhigh : IsHigh unit) (h' : IsUnit low unit') (hlow : IsLow unit') :
    Spells (['\\', 'u'] ++ high ++ (['\\', 'u'] ++ low)) (ofPair unit unit') := by
  have hvalid : (0x10000 + (unit - 0xd800) * 0x400 + (unit' - 0xdc00)).isValidChar := by
    rw [Nat.isValidChar]
    omega
  have hvalue : (ofPair unit unit').toNat = 0x10000 + (unit - 0xd800) * 0x400 + (unit' - 0xdc00) :=
    toNat_ofNat hvalid
  have hfirst : highUnit (ofPair unit unit') = unit := by
    rw [highUnit, hvalue]
    omega
  have hsecond : lowUnit (ofPair unit unit') = unit' := by
    rw [lowUnit, hvalue]
    omega
  exact .pair (by omega) (hfirst.symm ▸ h) (hsecond.symm ▸ h')

/-- Behind the mark of a hexadecimal escape. -/
theorem exists_spells_of_unit (rest : List Char) :
    (∃ spelled c more, Spells spelled c ∧ ['\\', 'u'] ++ rest = spelled ++ more) ∨
      Misspelled (['\\', 'u'] ++ rest) := by
  -- First the digits, then whether the unit is a surrogate, and which one.
  by_cases hunit : ∃ digits unit more, IsUnit digits unit ∧ rest = digits ++ more
  · obtain ⟨digits, unit, more, h, rfl⟩ := hunit
    rw [← List.append_assoc]
    by_cases hhigh : IsHigh unit
    · by_cases hlow : ∃ low unit' more', IsUnit low unit' ∧ IsLow unit' ∧
          more = ['\\', 'u'] ++ low ++ more'
      · obtain ⟨low, unit', more', h', hlow, rfl⟩ := hlow
        exact Or.inl ⟨_, _, more', spells_pair h hhigh h' hlow, by simp⟩
      · exact Or.inr (.unpairedHigh h hhigh fun low unit' more' h' hlow' heq =>
          hlow ⟨low, unit', more', h', hlow', heq⟩)
    · by_cases hlow : IsLow unit
      · exact Or.inr (.unpairedLow h hlow)
      · exact Or.inl ⟨_, _, more, spells_unit h hhigh hlow, rfl⟩
  · exact Or.inr (.cutUnit fun digits unit more h heq => hunit ⟨digits, unit, more, h, heq⟩)

/-- A text starts with a closing quote, with a spelling of a character, or with a fault. -/
theorem exists_spells (text : List Char) :
    (∃ rest, text = '"' :: rest) ∨
      (∃ spelled c rest, Spells spelled c ∧ text = spelled ++ rest) ∨ Misspelled text := by
  match text with
  | [] => exact Or.inr (Or.inr .unclosed)
  | c :: rest =>
    by_cases hquote : c = '"'
    · exact Or.inl ⟨rest, by rw [hquote]⟩
    refine Or.inr ?_
    by_cases hescape : c = '\\'
    · subst hescape
      match rest with
      | [] => exact Or.inr .cutEscape
      | letter :: rest =>
        by_cases hunit : letter = 'u'
        · subst hunit
          exact exists_spells_of_unit rest
        · by_cases hshort : ∃ c, (letter, c) ∈ shortEscapes
          · obtain ⟨c, hc⟩ := hshort
            exact Or.inl ⟨_, c, rest, .short hc, rfl⟩
          · exact Or.inr (.unknownEscape hunit (not_exists.1 hshort))
    · by_cases hcontrol : c.toNat < 0x20
      · exact Or.inr (.control hcontrol)
      · exact Or.inl ⟨[c], c, rest, .self hquote hescape (Nat.le_of_not_lt hcontrol), rfl⟩

/-- A character is not spelled by nothing. -/
theorem Spells.ne_nil {spelled : List Char} {c : Char} (h : Spells spelled c) : spelled ≠ [] := by
  cases h <;> simp

/-- A text is well spelled up to a closing quote or up to a fault. -/
theorem exists_spellsAll (text : List Char) :
    ∃ body chars rest, SpellsAll body chars ∧ text = body ++ rest ∧
      ((∃ more, rest = '"' :: more) ∨ Misspelled rest) := by
  -- A spelling may take several characters, so the induction is on the length.
  induction hn : text.length using Nat.strongRecOn generalizing text with
  | ind n ih =>
    rcases exists_spells text with hquote | ⟨spelled, c, rest, hc, rfl⟩ | hbad
    · exact ⟨[], [], text, .nil, rfl, Or.inl hquote⟩
    · have hpos := List.length_pos_iff.2 hc.ne_nil
      have hshorter : rest.length < n := by
        rw [← hn, List.length_append]
        omega
      obtain ⟨body, chars, more, hbody, rfl, hmore⟩ := ih _ hshorter rest rfl
      exact ⟨spelled ++ body, c :: chars, more, .cons hc hbody, (List.append_assoc ..).symm, hmore⟩
    · exact ⟨[], [], text, .nil, rfl, Or.inr hbad⟩

end Quoted

/-! ### Rejection -/

namespace Scanner

/-- A scanner reads no tokens from what follows. -/
def Rejects (s : Scanner) (text : List Char) : Prop := (s.run text).bind finish = none

variable {s s' : Scanner} {c : Char} {before rest : List Char}

/-- What stops the scanner is rejected, whatever follows. -/
theorem rejects_of_run_eq_none (h : s.run before = none) : s.Rejects (before ++ rest) := by
  rw [Rejects, run_append, h]
  rfl

/-- A fault behind a text that is read makes the whole rejected. -/
theorem Rejects.append (h : s'.Rejects rest) (hs : s.run before = some s') :
    s.Rejects (before ++ rest) := by
  rw [Rejects, run_append, hs]
  exact h

/-- A fault behind a single character makes the whole rejected. -/
theorem Rejects.cons (h : s'.Rejects rest) (hs : s.step c = some s') : s.Rejects (c :: rest) := by
  rw [Rejects, run_cons, hs]
  exact h

/-- A text without a closing quote is rejected. -/
theorem rejects_nil_quoted (read : List Token) (q : Quoted) : Rejects ⟨read, .quoted q⟩ [] := rfl

/-- A character on which the reader stops is rejected. -/
theorem rejects_quoted (read : List Token) {q : Quoted} (hopen : ¬ (q.phase = .plain ∧ c = '"'))
    (h : q.step c = none) : Rejects ⟨read, .quoted q⟩ (c :: rest) := by
  rw [Rejects, run_cons, step_quoted read hopen, h]
  rfl

end Scanner

namespace Quoted

open Scanner (Rejects)

variable (read : List Token) (chars : List Char)

/-- A further digit comes, or the text is rejected. -/
theorem exists_digit_or_rejects (high : Option ℕ) (missing value : ℕ) (rest : List Char) :
    (∃ c d more, IsHexDigit c d ∧ rest = c :: more) ∨
      Rejects ⟨read, .quoted ⟨chars, .hex high missing value⟩⟩ rest := by
  cases rest with
  | nil => exact Or.inr (Scanner.rejects_nil_quoted read _)
  | cons c more =>
    cases hdigit : hexDigit? c with
    | none =>
      refine Or.inr (Scanner.rejects_quoted read (fun h => Phase.noConfusion h.1) ?_)
      simp [step, hdigit]
    | some d => exact Or.inl ⟨c, d, more, hexDigit?_eq_some_iff.1 hdigit, rfl⟩

/-- The awaited digits come, or the text is rejected. -/
theorem exists_digits_or_rejects (high : Option ℕ) (missing value : ℕ) (rest : List Char) :
    (∃ digits values more, values.length = missing + 1 ∧
      List.Forall₂ IsHexDigit digits values ∧ rest = digits ++ more) ∨
      Rejects ⟨read, .quoted ⟨chars, .hex high missing value⟩⟩ rest := by
  induction missing generalizing value rest with
  | zero =>
    refine (exists_digit_or_rejects read chars high 0 value rest).imp_left ?_
    rintro ⟨c, d, more, hd, rfl⟩
    exact ⟨[c], [d], more, rfl, .cons hd .nil, rfl⟩
  | succ missing ih =>
    rcases exists_digit_or_rejects read chars high (missing + 1) value rest with
      ⟨c, d, more, hd, rfl⟩ | hrejects
    · rcases ih (value * 16 + d) more with ⟨digits, values, rest, hlength, hdigits, rfl⟩ | hrejects
      · exact Or.inl ⟨c :: digits, d :: values, rest, congrArg Nat.succ hlength,
          .cons hd hdigits, rfl⟩
      · exact Or.inr (hrejects.cons (step_hex_succ read chars high missing value hd))
    · exact Or.inr hrejects

/-- A first surrogate is followed by a second one, or the text is rejected. -/
theorem rejects_pair {high : ℕ} {rest : List Char}
    (hrest : ∀ low unit more, IsUnit low unit → IsLow unit → rest ≠ ['\\', 'u'] ++ low ++ more) :
    Rejects ⟨read, .quoted ⟨chars, .pair high⟩⟩ rest := by
  match rest with
  | [] => exact Scanner.rejects_nil_quoted read _
  | c :: rest =>
    by_cases hescape : c = '\\'
    · subst hescape
      have hstep : Scanner.step ⟨read, .quoted ⟨chars, .pair high⟩⟩ '\\' =
          some ⟨read, .quoted ⟨chars, .pairEscape high⟩⟩ := rfl
      refine Rejects.cons ?_ hstep
      match rest with
      | [] => exact Scanner.rejects_nil_quoted read _
      | letter :: rest =>
        by_cases hunit : letter = 'u'
        · subst hunit
          rcases exists_digits_or_rejects read chars (some high) 3 0 rest with
            ⟨digits, values, more, hlength, hdigits, rfl⟩ | hrejects
          · -- Four digits are read, but they are no second surrogate.
            have hnotLow : ¬ IsLow (hexValue 0 values) := fun hlow =>
              hrest digits _ more ⟨values, hlength, hdigits, rfl⟩ hlow rfl
            have hrun :
                Scanner.run ⟨read, .quoted ⟨chars, .hex (some high) 3 0⟩⟩ digits = none := by
              rw [run_hex read chars (some high) hdigits hlength, complete, if_neg hnotLow]
              rfl
            exact Rejects.cons (Scanner.rejects_of_run_eq_none hrun) rfl
          · exact hrejects.cons rfl
        · exact Scanner.rejects_quoted read (fun h => Phase.noConfusion h.1) (if_neg hunit)
    · exact Scanner.rejects_quoted read (fun h => Phase.noConfusion h.1) (if_neg hescape)

/-- The short escapes are the ones in the table. -/
theorem mem_shortEscapes_of_letter? {letter c : Char} (h : letter? letter = some c) :
    (letter, c) ∈ shortEscapes := by
  unfold letter? at h
  split at h
  case h_9 => cases h
  all_goals exact Option.some.inj h ▸ by decide

/-- Inside a quoted text, every fault is rejected. -/
theorem Misspelled.rejects {text : List Char} (h : Misspelled text) :
    Rejects ⟨read, .quoted ⟨chars, .plain⟩⟩ text := by
  cases h with
  | unclosed => exact Scanner.rejects_nil_quoted read _
  | @control c rest h =>
    have hquote : c ≠ '"' := by
      rintro rfl
      exact absurd h (by decide)
    have hescape : c ≠ '\\' := by
      rintro rfl
      exact absurd h (by decide)
    exact Scanner.rejects_quoted read (fun h => hquote h.2) ((if_neg hescape).trans (if_pos h))
  | cutEscape => exact Rejects.cons (Scanner.rejects_nil_quoted read _) rfl
  | @unknownEscape letter rest hunit h =>
    -- The table lists all letters that the reader knows.
    have hletter : letter? letter = none :=
      Option.eq_none_iff_forall_ne_some.2 fun c hc => h c (mem_shortEscapes_of_letter? hc)
    have hstep : Scanner.step ⟨read, .quoted ⟨chars, .plain⟩⟩ '\\' =
        some ⟨read, .quoted ⟨chars, .escape⟩⟩ := rfl
    refine Rejects.cons (Scanner.rejects_quoted read (fun h => Phase.noConfusion h.1) ?_) hstep
    exact (if_neg hunit).trans (congrArg (Option.map _) hletter)
  | @cutUnit rest h =>
    have hrejects : Rejects ⟨read, .quoted ⟨chars, .hex none 3 0⟩⟩ rest := by
      refine (exists_digits_or_rejects read chars none 3 0 rest).resolve_left ?_
      rintro ⟨digits, values, more, hlength, hdigits, hrest⟩
      exact h digits _ more ⟨values, hlength, hdigits, rfl⟩ hrest
    exact hrejects.append rfl
  | unpairedLow h hlow =>
    -- The ranges of the two surrogates do not meet.
    have hhigh : ¬ IsHigh _ := fun hhigh => Nat.not_lt.2 hlow.1 hhigh.2
    refine Scanner.rejects_of_run_eq_none ?_
    rw [run_unit read chars h, complete, if_neg hhigh, if_pos hlow]
    rfl
  | @unpairedHigh digits rest unit h hhigh hrest =>
    have hrun : Scanner.run ⟨read, .quoted ⟨chars, .plain⟩⟩ (['\\', 'u'] ++ digits) =
        some ⟨read, .quoted ⟨chars, .pair unit⟩⟩ := by
      rw [run_unit read chars h, complete, if_pos hhigh]
      rfl
    exact (rejects_pair read chars hrest).append hrun

end Quoted

/-! ### Behind an opening quote -/

/-- Wherever the text could end, a quote opens a quoted text. -/
theorem Scanner.step_quote_of_finish {s : Scanner} {ts : List Token} (h : s.finish = some ts) :
    s.step '"' = some ⟨ts.reverse, .quoted .start⟩ := by
  obtain ⟨read, mode⟩ := s
  cases mode with
  | between =>
    obtain rfl := Option.some.inj h
    rw [List.reverse_reverse]
    rfl
  | number chars =>
    obtain ⟨n, hn, rfl⟩ := Option.map_eq_some_iff.1 h
    change (Number.ofSpelling? chars.reverse).bind _ = _
    rw [hn, Option.bind_some, List.reverse_reverse]
    rfl
  | word | quoted => cases h

variable {before : List Char} {ts : List Token}

/-- Behind tokens and an opening quote, the rest is read as a quoted text. -/
theorem tokens?_quote_append (hbefore : tokens? before = some ts) (rest : List Char) :
    tokens? (before ++ '"' :: rest) =
      (Scanner.run ⟨ts.reverse, .quoted ⟨[], .plain⟩⟩ rest).bind Scanner.finish := by
  obtain ⟨s, hs, hfinish⟩ := Option.bind_eq_some_iff.1 hbefore
  rw [tokens?, Scanner.run_append, hs, Option.bind_some, Scanner.run_cons,
    Scanner.step_quote_of_finish hfinish]
  rfl

/-- A fault behind an opening quote spoils the whole text. -/
theorem tokens?_eq_none_of_misspelled (hbefore : tokens? before = some ts)
    {body chars bad : List Char} (hbody : Quoted.SpellsAll body chars)
    (hbad : Quoted.Misspelled bad) : tokens? (before ++ '"' :: (body ++ bad)) = none := by
  rw [tokens?_quote_append hbefore]
  exact (hbad.rejects _ _).append (Scanner.run_spellsAll hbody _ _)

end Telemetry.Json
