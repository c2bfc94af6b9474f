import Telemetry.Proofs.Json.Numeral
import Telemetry.Proofs.Json.Quoted
/-!
# Tokens are read as they are written

A scanner splits a text into the tokens that were written one behind another, whatever blanks lie
around them and whatever spelling of its characters a quoted text has. Two numbers need something
between them, and the tokens of a document never bring two numbers together.
-/

namespace Telemetry.Json

/-! ### Separated tokens -/

/-- Tokens that do not start with a number may follow a number. -/
def StartsApart (ts : List Token) : Prop := ∀ n, ts.head? ≠ some (.number n)

/-- No number stands directly behind another one. -/
inductive Separated : List Token → Prop
  | nil : Separated []
  | cons {t : Token} {ts : List Token} (ht : ∀ n, t ≠ .number n) (hts : Separated ts) :
    Separated (t :: ts)
  | number {n : Number} {ts : List Token} (hapart : StartsApart ts) (hts : Separated ts) :
    Separated (.number n :: ts)

theorem startsApart_nil : StartsApart [] := fun _ h => absurd h (by simp)

/-- Whatever is no number may follow one. -/
theorem startsApart_cons {t : Token} (ht : ∀ n, t ≠ .number n) (ts : List Token) :
    StartsApart (t :: ts) := fun n h => ht n (Option.some.inj h)

mutual

/-- The tokens of a document may stand in front of separated tokens that do not start with a
  number. -/
theorem separated_tokens_append : ∀ (j : Json) {rest : List Token}, Separated rest →
    StartsApart rest → Separated (j.tokens ++ rest)
  | .null, _, hrest, _ => .cons (by simp) hrest
  | .bool _, _, hrest, _ => .cons (by simp) hrest
  | .number _, _, hrest, hapart => .number hapart hrest
  | .string _, _, hrest, _ => .cons (by simp) hrest
  | .array [], _, hrest, _ => .cons (by simp) (.cons (by simp) hrest)
  | .array (j :: items), rest, hrest, _ => by
    have hclose : Separated (.closeBracket :: rest) := .cons (by simp) hrest
    obtain ⟨hitems, hapart⟩ := separated_moreItems_append items hclose
      (startsApart_cons (by simp) rest)
    have h := separated_tokens_append j hitems hapart
    simp only [tokens, List.cons_append, List.append_assoc, List.nil_append]
    exact .cons (by simp) h
  | .object [], _, hrest, _ => .cons (by simp) (.cons (by simp) hrest)
  | .object ((name, j) :: members), rest, hrest, _ => by
    have hclose : Separated (.closeBrace :: rest) := .cons (by simp) hrest
    obtain ⟨hmembers, hapart⟩ := separated_moreMembers_append members hclose
      (startsApart_cons (by simp) rest)
    have h := separated_tokens_append j hmembers hapart
    simp only [tokens, List.cons_append, List.append_assoc, List.nil_append]
    exact .cons (by simp) (.cons (by simp) (.cons (by simp) h))

/-- The elements of an array keep tokens separated. -/
theorem separated_moreItems_append : ∀ (items : List Json) {rest : List Token}, Separated rest →
    StartsApart rest → Separated (moreItems items ++ rest) ∧ StartsApart (moreItems items ++ rest)
  | [], _, hrest, hapart => ⟨hrest, hapart⟩
  | j :: items, rest, hrest, hapart => by
    obtain ⟨hitems, hitemsApart⟩ := separated_moreItems_append items hrest hapart
    have h := separated_tokens_append j hitems hitemsApart
    simp only [moreItems, List.cons_append, List.append_assoc]
    exact ⟨.cons (by simp) h, startsApart_cons (by simp) _⟩

/-- The members of an object keep tokens separated. -/
theorem separated_moreMembers_append : ∀ (members : List (String × Json)) {rest : List Token},
    Separated rest → StartsApart rest →
      Separated (moreMembers members ++ rest) ∧ StartsApart (moreMembers members ++ rest)
  | [], _, hrest, hapart => ⟨hrest, hapart⟩
  | (name, j) :: members, rest, hrest, hapart => by
    obtain ⟨hmembers, hmembersApart⟩ := separated_moreMembers_append members hrest hapart
    have h := separated_tokens_append j hmembers hmembersApart
    simp only [moreMembers, List.cons_append, List.append_assoc]
    exact ⟨.cons (by simp) (.cons (by simp) (.cons (by simp) h)), startsApart_cons (by simp) _⟩

end

/-- The tokens of a document are separated. -/
theorem separated_tokens (j : Json) : Separated j.tokens := by
  have h := separated_tokens_append j .nil startsApart_nil
  rwa [List.append_nil] at h

/-! ### Tokens among blanks -/

/-- The spellings of a token. Those of a quoted text differ in the spellings of its characters,
  those of a number in the spelling of its exponent, and all other tokens have one. -/
inductive Token.Spells : List Char → Token → Prop
  | string {body : List Char} {s : String} (h : Quoted.SpellsAll body s.toList) :
    Spells ('"' :: (body ++ ['"'])) (.string s)
  | number {spelled : List Char} {n : Number} (h : Number.ofSpelling? spelled = some n) :
    Spells spelled (.number n)
  | other {t : Token} (hstring : ∀ s, t ≠ .string s) (hnumber : ∀ n, t ≠ .number n) :
    Spells t.spelling t

/-- A token is spelled by its characters. -/
theorem Token.spells_spelling (t : Token) : Spells t.spelling t := by
  cases t with
  | string s => exact .string (Quoted.spellsAll_flatMap_escape s.toList)
  | number n => exact .number n.ofSpelling?_spelling
  | openBrace | closeBrace | openBracket | closeBracket | colon | comma | null | bool =>
    exact .other (by simp) (by simp)

/-- A number is read from whatever spells it. -/
theorem Token.Spells.ofSpelling?_eq {spelled : List Char} {n : Number}
    (h : (Token.number n).Spells spelled) : Number.ofSpelling? spelled = some n := by
  cases h with
  | number h => exact h
  | other _ hnumber => exact absurd rfl (hnumber n)

/-- A text spells tokens one behind another, with any blanks before, between and behind them. -/
inductive Written : List Token → List Char → Prop
  | nil {blanks : List Char} (hblanks : ∀ c ∈ blanks, IsBlank c) : Written [] blanks
  | cons {blanks spelled rest : List Char} {t : Token} {ts : List Token}
    (hblanks : ∀ c ∈ blanks, IsBlank c) (ht : t.Spells spelled) (hrest : Written ts rest) :
    Written (t :: ts) (blanks ++ (spelled ++ rest))

/-- A text spells tokens as they are written, with any blanks before, between and behind them. -/
inductive Spread : List Token → List Char → Prop
  | nil {blanks : List Char} (hblanks : ∀ c ∈ blanks, IsBlank c) : Spread [] blanks
  | cons {blanks : List Char} {t : Token} {ts : List Token} {rest : List Char}
    (hblanks : ∀ c ∈ blanks, IsBlank c) (hrest : Spread ts rest) :
    Spread (t :: ts) (blanks ++ (t.spelling ++ rest))

/-- Spread tokens are written ones. -/
theorem Spread.written {ts : List Token} {text : List Char} (h : Spread ts text) :
    Written ts text := by
  induction h with
  | nil hblanks => exact .nil hblanks
  | cons hblanks _ ih => exact .cons hblanks (Token.spells_spelling _) ih

/-- Tokens one after another are spread without any blank. -/
theorem spread_flatMap_spelling (ts : List Token) : Spread ts (ts.flatMap Token.spelling) := by
  induction ts with
  | nil => exact .nil (List.forall_mem_nil _)
  | cons t ts ih => exact .cons (List.forall_mem_nil _) ih

/-! ### The scanner between tokens -/

namespace Scanner

/-- The scanner has read the given tokens and may go on with a further one. A number that is still
  being read counts as read. -/
inductive Ready : Scanner → List Token → Prop
  | between (read : List Token) : Ready ⟨read, .between⟩ read
  | number (read : List Token) {chars : List Char} {n : Number}
    (h : Number.ofSpelling? chars.reverse = some n) :
    Ready ⟨read, .number chars⟩ (.number n :: read)

/-- A ready scanner ends with the tokens that were read. -/
theorem Ready.finish_eq {s : Scanner} {read : List Token} (h : s.Ready read) :
    s.finish = some read.reverse := by
  cases h with
  | between => rfl
  | number read h =>
    change (Number.ofSpelling? _).map _ = _
    rw [h, Option.map_some]

/-- A ready scanner begins a token, whether or not a number is being read. -/
theorem Ready.step_eq {s : Scanner} {read : List Token} (h : s.Ready read) {c : Char}
    (hc : ¬ IsNumeric c) : s.step c = first read c := by
  cases h with
  | between => rfl
  | number read h =>
    change (if IsNumeric c then _ else (Number.ofSpelling? _).bind _) = _
    rw [if_neg hc, h, Option.bind_some]

theorem not_isBlank_of_isNumeric {c : Char} (h : IsNumeric c) : ¬ IsBlank c := by
  rintro (rfl | rfl | rfl | rfl) <;> exact absurd h (by decide)

/-- Numeric characters are collected. -/
theorem run_numeric (read : List Token) (chars : List Char) {text : List Char}
    (htext : ∀ c ∈ text, IsNumeric c) :
    run ⟨read, .number chars⟩ text = some ⟨read, .number (text.reverse ++ chars)⟩ := by
  induction text generalizing chars with
  | nil => rfl
  | cons c text ih =>
    have hstep : step ⟨read, .number chars⟩ c = some ⟨read, .number (c :: chars)⟩ :=
      if_pos (htext c List.mem_cons_self)
    rw [run_cons, hstep, Option.bind_some, ih _ fun d hd => htext d (List.mem_cons_of_mem _ hd),
      List.reverse_cons, List.append_assoc, List.singleton_append]

/-- The spelling of a number is collected as a whole. -/
theorem run_number (read : List Token) {text : List Char} {n : Number}
    (h : Number.ofSpelling? text = some n) :
    run ⟨read, .between⟩ text = some ⟨read, .number text.reverse⟩ := by
  obtain ⟨whole, fraction, tail, hparts⟩ := Number.exists_hasParts h
  obtain ⟨c, rest, rfl⟩ := List.exists_cons_of_ne_nil hparts.ne_nil
  have hnumeric := hparts.isNumeric_of_mem
  have hc : IsNumeric c := hnumeric c List.mem_cons_self
  have hfirst : step ⟨read, .between⟩ c = some ⟨read, .number [c]⟩ :=
    (if_neg (not_isBlank_of_isNumeric hc)).trans (if_pos hc)
  rw [run_cons, hfirst, Option.bind_some,
    run_numeric read [c] fun d hd => hnumeric d (List.mem_cons_of_mem _ hd), List.reverse_cons]

/-- A token that is no number starts with a character that belongs to none. -/
theorem exists_cons_of_spells {t : Token} (ht : ∀ n, t ≠ .number n) {spelled : List Char}
    (h : t.Spells spelled) : ∃ c rest, spelled = c :: rest ∧ ¬ IsNumeric c := by
  cases h with
  | string => exact ⟨_, _, rfl, by decide⟩
  | number => exact absurd rfl (ht _)
  | other hstring =>
    cases t with
    | string s => exact absurd rfl (hstring s)
    | number n => exact absurd rfl (ht n)
    | bool b => cases b <;> exact ⟨_, _, rfl, by decide⟩
    | openBrace | closeBrace | openBracket | closeBracket | colon | comma | null =>
      exact ⟨_, _, rfl, by decide⟩

/-- The spelling of any other token completes it. -/
theorem run_token (read : List Token) {t : Token} (ht : ∀ n, t ≠ .number n) {spelled : List Char}
    (h : t.Spells spelled) : run ⟨read, .between⟩ spelled = some ⟨t :: read, .between⟩ := by
  cases h with
  | string hbody => exact run_quoted read hbody
  | number => exact absurd rfl (ht _)
  | other hstring =>
    cases t with
    | string s => exact absurd rfl (hstring s)
    | number n => exact absurd rfl (ht n)
    | bool b => cases b <;> rfl
    | openBrace | closeBrace | openBracket | closeBracket | colon | comma | null => rfl

/-- Behind a number, the spelling of any other token completes it as well. -/
theorem Ready.run_token {s : Scanner} {read : List Token} (h : s.Ready read) {t : Token}
    (ht : ∀ n, t ≠ .number n) {spelled : List Char} (hspelled : t.Spells spelled) :
    s.run spelled = some ⟨t :: read, .between⟩ := by
  obtain ⟨c, rest, rfl, hc⟩ := exists_cons_of_spells ht hspelled
  rw [← Scanner.run_token read ht hspelled, run_cons, run_cons, h.step_eq hc]
  rfl

/-- Blanks are skipped. -/
theorem run_blanks (read : List Token) {blanks : List Char} (h : ∀ c ∈ blanks, IsBlank c) :
    run ⟨read, .between⟩ blanks = some ⟨read, .between⟩ := by
  induction blanks with
  | nil => rfl
  | cons c blanks ih =>
    have hstep : step ⟨read, .between⟩ c = some ⟨read, .between⟩ :=
      if_pos (h c List.mem_cons_self)
    rw [run_cons, hstep, Option.bind_some, ih fun d hd => h d (List.mem_cons_of_mem _ hd)]

/-- Blanks end a number and have no other effect. -/
theorem Ready.run_blanks {s : Scanner} {read : List Token} (h : s.Ready read) {blanks : List Char}
    (hblanks : ∀ c ∈ blanks, IsBlank c) :
    s.run blanks = some s ∨ s.run blanks = some ⟨read, .between⟩ := by
  cases blanks with
  | nil => exact Or.inl rfl
  | cons c blanks =>
    have hc : IsBlank c := hblanks c List.mem_cons_self
    have hstep : s.step c = some ⟨read, .between⟩ :=
      (h.step_eq fun hnumeric => not_isBlank_of_isNumeric hnumeric hc).trans (if_pos hc)
    rw [run_cons, hstep, Option.bind_some]
    exact Or.inr (Scanner.run_blanks read fun d hd => hblanks d (List.mem_cons_of_mem _ hd))

/-- Separated tokens are read one after another, whatever blanks lie around them. Only a scanner
  between two tokens may start with a number. -/
theorem Ready.run_written {s : Scanner} {read ts : List Token} (h : s.Ready read)
    (hts : Separated ts) (hstart : s = ⟨read, .between⟩ ∨ StartsApart ts) {text : List Char}
    (hwritten : Written ts text) :
    ∃ s' : Scanner, s.run text = some s' ∧ s'.Ready (ts.reverse ++ read) := by
  induction hwritten generalizing s read with
  | nil hblanks =>
    rcases h.run_blanks hblanks with hs | hs
    · exact ⟨s, hs, h⟩
    · exact ⟨_, hs, .between read⟩
  | @cons blanks spelled rest t ts hblanks hspelled hrest ih =>
    -- Behind the blanks a scanner is still ready, and between two tokens if it was so before.
    obtain ⟨mid, hmid, hready, hbetween⟩ : ∃ mid : Scanner, s.run blanks = some mid ∧
        mid.Ready read ∧ (s = ⟨read, .between⟩ → mid = ⟨read, .between⟩) := by
      rcases h.run_blanks hblanks with hs | hs
      · exact ⟨s, hs, h, id⟩
      · exact ⟨_, hs, .between read, fun _ => rfl⟩
    rw [run_append, hmid, Option.bind_some, run_append, List.reverse_cons, List.append_assoc,
      List.singleton_append]
    cases hts with
    | cons ht hts =>
      rw [hready.run_token ht hspelled, Option.bind_some]
      exact ih (.between (t :: read)) hts (Or.inl rfl)
    | @number n _ hapart hts =>
      have hn := hspelled.ofSpelling?_eq
      have hnumber : mid.run spelled = some ⟨read, .number spelled.reverse⟩ := by
        rcases hstart with hs | hstart
        · rw [hbetween hs]
          exact run_number read hn
        · exact absurd rfl (hstart n)
      rw [hnumber, Option.bind_some]
      exact ih (.number read (by rwa [List.reverse_reverse])) hts (Or.inr hapart)

end Scanner

/-- Separated tokens are read from whatever spells them. -/
theorem tokens?_of_written {ts : List Token} (h : Separated ts) {text : List Char}
    (hwritten : Written ts text) : tokens? text = some ts := by
  obtain ⟨s, hs, hready⟩ := (Scanner.Ready.between []).run_written h (Or.inl rfl) hwritten
  rw [tokens?, Scanner.start, hs, Option.bind_some, hready.finish_eq, List.append_nil,
    List.reverse_reverse]

/-- Separated tokens are read with blanks around them. -/
theorem tokens?_of_spread {ts : List Token} (h : Separated ts) {text : List Char}
    (hspread : Spread ts text) : tokens? text = some ts :=
  tokens?_of_written h hspread.written

/-- Separated tokens are read without any blank. -/
theorem tokens?_flatMap_spelling {ts : List Token} (h : Separated ts) :
    tokens? (ts.flatMap Token.spelling) = some ts :=
  tokens?_of_spread h (spread_flatMap_spelling ts)

end Telemetry.Json
