import Telemetry.Proofs.Json.RoundTrip
/-!
# Texts that show their own end

Once a document that is no number is complete, a scanner stands between two tokens and a builder
takes no further token. So the text of such a document can only be continued by blanks, and since
it does not end with a blank, nothing shorter is the text of a document that is no number. A number
has no such end of its own: `1` is the start of `12`.
-/

namespace Telemetry.Json

/-! ### Scanners beyond a token -/

namespace Scanner

/-- Behind the given tokens, a further one has been read or begun. -/
def Past (read : List Token) (s : Scanner) : Prop :=
  ∃ more, s.read = more ++ read ∧ (more = [] → s.mode ≠ .between)

/-- A scanner that has completed a token is past the earlier ones. -/
theorem past_push (read : List Token) (t : Token) : (push read t).Past read :=
  ⟨[t], rfl, fun h => absurd h (List.cons_ne_nil t [])⟩

/-- A scanner that has begun a token is past the earlier ones. -/
theorem past_of_mode {read : List Token} {mode : Mode} (h : mode ≠ .between) :
    Past read ⟨read, mode⟩ :=
  ⟨[], rfl, fun _ => h⟩

/-- What is past a later state is past an earlier one. -/
theorem Past.trans {read : List Token} {s s' : Scanner} (h : s.Past read)
    (hs : s'.Past s.read) : s'.Past read := by
  obtain ⟨more, hread, hmore⟩ := h
  obtain ⟨next, hnext, hmode⟩ := hs
  refine ⟨next ++ more, by rw [hnext, hread, List.append_assoc], ?_⟩
  intro hnil
  exact hmode (List.append_eq_nil_iff.1 hnil).1

/-- The first character of a token begins it, unless it is a blank. -/
theorem first_cases {read : List Token} {s : Scanner} {c : Char} (h : first read c = some s) :
    (s = ⟨read, .between⟩ ∧ IsBlank c) ∨ s.Past read := by
  unfold first at h
  split at h
  · next hc => exact Or.inl ⟨(Option.some.inj h).symm, hc⟩
  · refine Or.inr ?_
    split at h
    · exact Option.some.inj h ▸ past_of_mode Mode.noConfusion
    · split at h
      -- A quote or a letter begins a token, and a sign of its own is one.
      case h_7 | h_8 | h_9 | h_10 => exact Option.some.inj h ▸ past_of_mode Mode.noConfusion
      case h_11 => cases h
      all_goals exact Option.some.inj h ▸ past_push read _

/-- A character leaves a scanner as it is only if it is a blank between two tokens. -/
theorem step_cases {s s' : Scanner} {c : Char} (h : s.step c = some s') :
    (s' = s ∧ IsBlank c) ∨ s'.Past s.read := by
  obtain ⟨read, mode⟩ := s
  cases mode with
  | between => exact first_cases h
  | word next rest token =>
    change (if c = next then _ else none) = some s' at h
    split at h
    · cases rest with
      | nil => exact Or.inr (Option.some.inj h ▸ past_push read token)
      | cons next rest => exact Or.inr (Option.some.inj h ▸ past_of_mode Mode.noConfusion)
    · cases h
  | number chars =>
    change (if IsNumeric c then _ else _) = some s' at h
    split at h
    · exact Or.inr (Option.some.inj h ▸ past_of_mode Mode.noConfusion)
    · obtain ⟨n, -, h⟩ := Option.bind_eq_some_iff.1 h
      rcases first_cases h with ⟨rfl, -⟩ | hpast
      · exact Or.inr (past_push read (.number n))
      · exact Or.inr ((past_push read (.number n)).trans hpast)
  | quoted q =>
    change (if q.phase = .plain ∧ c = '"' then _ else _) = some s' at h
    split at h
    · exact Or.inr (Option.some.inj h ▸ past_push read _)
    · obtain ⟨q', -, rfl⟩ := Option.map_eq_some_iff.1 h
      exact Or.inr (past_of_mode Mode.noConfusion)

/-- A step does not lead back. -/
theorem Past.step {read : List Token} {s s' : Scanner} {c : Char} (h : s.Past read)
    (hs : s.step c = some s') : s'.Past read := by
  rcases step_cases hs with ⟨rfl, -⟩ | hpast
  · exact h
  · exact h.trans hpast

/-- No text leads back. -/
theorem Past.run {read : List Token} {s s' : Scanner} {text : List Char} (h : s.Past read)
    (hs : s.run text = some s') : s'.Past read := by
  induction text generalizing s with
  | nil => exact Option.some.inj hs ▸ h
  | cons c text ih =>
    rw [run_cons] at hs
    obtain ⟨mid, hmid, hs⟩ := Option.bind_eq_some_iff.1 hs
    exact ih (h.step hmid) hs

/-- A scanner between two tokens stays where it is if there is nothing but blanks, and begins a
  further token otherwise. -/
theorem run_between_cases {read : List Token} {s : Scanner} {text : List Char}
    (h : run ⟨read, .between⟩ text = some s) :
    ((∀ c ∈ text, IsBlank c) ∧ s = ⟨read, .between⟩) ∨ s.Past read := by
  -- The scanner does not move on while it reads blanks, so nothing is generalised.
  induction text with
  | nil => exact Or.inl ⟨List.forall_mem_nil _, (Option.some.inj h).symm⟩
  | cons c text ih =>
    rw [run_cons] at h
    obtain ⟨mid, hmid, h⟩ := Option.bind_eq_some_iff.1 h
    rcases step_cases hmid with ⟨rfl, hc⟩ | hpast
    · exact (ih h).imp_left fun hblanks => ⟨List.forall_mem_cons.2 ⟨hc, hblanks.1⟩, hblanks.2⟩
    · exact Or.inr (hpast.run h)

/-- A text that ends past some tokens has a further one. -/
theorem Past.finish {read ts : List Token} {s : Scanner} (h : s.Past read)
    (hs : s.finish = some ts) : ∃ t more, ts = read.reverse ++ t :: more := by
  obtain ⟨more, hread, hmore⟩ := h
  obtain ⟨tokens, mode⟩ := s
  obtain rfl : tokens = more ++ read := hread
  -- The tokens behind the given ones are those in between and a number that is still being read.
  have hextend {behind : List Token} (hne : behind ≠ []) :
      ∃ t more, (behind ++ read).reverse = read.reverse ++ t :: more := by
    obtain ⟨t, rest, hcons⟩ :=
      List.exists_cons_of_ne_nil fun hnil => hne (List.reverse_eq_nil_iff.1 hnil)
    exact ⟨t, rest, by rw [List.reverse_append, hcons]⟩
  cases mode with
  | between =>
    obtain rfl := Option.some.inj hs
    exact hextend fun hnil => hmore hnil rfl
  -- A number ends with the text.
  | number chars =>
    obtain ⟨n, -, rfl⟩ := Option.map_eq_some_iff.1 hs
    exact hextend (List.cons_ne_nil (Token.number n) more)
  | word | quoted => cases hs

end Scanner

/-! ### Complete documents -/

namespace Builder

/-- Nothing follows a complete document. -/
theorem step_complete (j : Json) (t : Token) : (complete j []).step t = none := by
  cases t <;> rfl

/-- A number is complete at once, so a document that ends with one is that number. -/
theorem step_number {b : Builder} {n : Number} {j : Json}
    (h : b.step (.number n) = some (complete j [])) : j = .number n := by
  cases b with
  | document path =>
    injection Option.some.inj h with hj _
    exact hj.symm
  | firstItem path =>
    injection Option.some.inj h with _ hpath
    exact absurd hpath (List.cons_ne_nil _ _)
  | complete j' path =>
    cases path with
    | nil => cases h
    | cons f path => cases f <;> cases h
  | firstMember | member | colon => cases h

/-- A document is read by a builder that is complete at the end. -/
theorem run_start_of_ofTokens? {ts : List Token} {j : Json} (h : ofTokens? ts = some j) :
    start.run ts = some (complete j []) := by
  obtain ⟨b, hb, hfinish⟩ := Option.bind_eq_some_iff.1 h
  cases b with
  | complete j' path =>
    cases path with
    | nil =>
      obtain rfl := Option.some.inj hfinish
      exact hb
    | cons => cases hfinish
  | document | firstItem | firstMember | member | colon => cases hfinish

end Builder

/-! ### What may follow a document -/

/-- Behind a document that is no number, the scanner stands between two tokens. -/
theorem exists_read_of_parse? {text : String} {j : Json} (h : parse? text = some j)
    (hj : ∀ n, j ≠ .number n) :
    ∃ read, Scanner.start.run text.toList = some ⟨read, .between⟩ ∧
      Builder.start.run read.reverse = some (.complete j []) := by
  obtain ⟨ts, hts, hj'⟩ := Option.bind_eq_some_iff.1 h
  obtain ⟨⟨read, mode⟩, hs, hfinish⟩ := Option.bind_eq_some_iff.1 hts
  have hrun := Builder.run_start_of_ofTokens? hj'
  cases mode with
  | between =>
    obtain rfl := Option.some.inj hfinish
    exact ⟨read, hs, hrun⟩
  | number chars =>
    -- The last token would be a number, and a number is a document of its own.
    obtain ⟨n, -, rfl⟩ := Option.map_eq_some_iff.1 hfinish
    rw [List.reverse_cons, Builder.run_append] at hrun
    obtain ⟨b, -, hb⟩ := Option.bind_eq_some_iff.1 hrun
    obtain ⟨b', hb', hlast⟩ := Option.bind_eq_some_iff.1 hb
    obtain rfl := Option.some.inj hlast
    exact absurd (Builder.step_number hb') (hj n)
  | word | quoted => cases hfinish

/-- Behind a document that is no number, nothing but blanks may follow. -/
theorem parse?_append {text more : String} {j j' : Json} (h : parse? text = some j)
    (hj : ∀ n, j ≠ .number n) :
    parse? (text ++ more) = some j' ↔ (∀ c ∈ more.toList, IsBlank c) ∧ j = j' := by
  obtain ⟨read, hscan, hbuild⟩ := exists_read_of_parse? h hj
  have hcomplete : ofTokens? read.reverse = some j := by
    rw [ofTokens?, hbuild]
    rfl
  rw [parse?, tokens?, String.toList_append, Scanner.run_append, hscan, Option.bind_some]
  constructor
  · intro hmore
    obtain ⟨ts, hts, hj'⟩ := Option.bind_eq_some_iff.1 hmore
    obtain ⟨s, hs, hfinish⟩ := Option.bind_eq_some_iff.1 hts
    rcases Scanner.run_between_cases hs with ⟨hblanks, rfl⟩ | hpast
    · obtain rfl := Option.some.inj hfinish
      exact ⟨hblanks, Option.some.inj (hcomplete.symm.trans hj')⟩
    · -- A further token has been read, which a complete document does not take.
      obtain ⟨t, next, rfl⟩ := hpast.finish hfinish
      have hrun := Builder.run_start_of_ofTokens? hj'
      rw [Builder.run_append, hbuild, Option.bind_some, Builder.run_cons,
        Builder.step_complete] at hrun
      cases hrun
  · rintro ⟨hblanks, rfl⟩
    rw [Scanner.run_blanks read hblanks]
    exact hcomplete

/-! ### What stands at the end of a document -/

/-- No token ends with a blank. -/
theorem exists_getLast?_spelling (t : Token) :
    ∃ c, t.spelling.getLast? = some c ∧ ¬ IsBlank c := by
  cases t with
  | number n =>
    have hne : n.spelling ≠ [] := n.spelling_ne_nil
    exact ⟨_, List.getLast?_eq_some_getLast hne,
      Scanner.not_isBlank_of_isNumeric (Number.isNumeric_of_mem_spelling (List.getLast_mem hne))⟩
  | string s =>
    refine ⟨'"', ?_, by decide⟩
    change (('"' :: s.toList.flatMap Quoted.escape) ++ ['"']).getLast? = _
    rw [List.getLast?_concat]
  | bool b => cases b <;> exact ⟨'e', rfl, by decide⟩
  | openBrace | closeBrace | openBracket | closeBracket | colon | comma | null =>
    exact ⟨_, rfl, by decide⟩

/-- No document ends with a blank. -/
theorem not_isBlank_of_getLast? {j : Json} {c : Char} (h : j.spelling.getLast? = some c) :
    ¬ IsBlank c := by
  obtain ⟨t, ts, htokens, -⟩ := Builder.entered j []
  have hne : j.tokens ≠ [] := htokens ▸ List.cons_ne_nil t ts
  obtain ⟨before, hbefore⟩ := List.getLast?_eq_some_iff.1 (List.getLast?_eq_some_getLast hne)
  obtain ⟨d, hd, hblank⟩ := exists_getLast?_spelling (j.tokens.getLast hne)
  rw [spelling, hbefore, List.flatMap_append, List.flatMap_singleton, List.getLast?_append, hd,
    Option.some_or] at h
  exact Option.some.inj h ▸ hblank

/-- What is read from the text of a document without its end is a number, if it is anything. -/
theorem isNumber_of_parse?_cut {j j' : Json} {start rest : String} (hcut : j.render = start ++ rest)
    (hrest : rest ≠ "") (h : parse? start = some j') : ∃ n, j' = .number n := by
  refine Classical.byContradiction fun hj' => ?_
  have happend := parse?_render j
  rw [hcut, parse?_append h (not_exists.1 hj')] at happend
  -- What is cut off consists of blanks, but the text does not end with one.
  have hne : rest.toList ≠ [] := fun hnil => hrest (String.toList_eq_nil_iff.1 hnil)
  have hlast : j.spelling.getLast? = some (rest.toList.getLast hne) := by
    have htext : j.spelling = start.toList ++ rest.toList := by
      rw [← String.toList_append, ← hcut, render, String.toList_ofList]
    rw [htext, List.getLast?_append, List.getLast?_eq_some_getLast hne, Option.some_or]
  exact not_isBlank_of_getLast? hlast (happend.1 _ (List.getLast_mem hne))

/-! ### Main statement -/

/-- A text that shows its own end. A reader rejects it when it is cut anywhere and when anything but
  blanks is put behind it, and any blanks around its tokens make no difference. -/
structure Delimited {α : Type} (read : String → Option α) (text : String) : Prop where
  cut : ∀ start rest : String, text = start ++ rest → rest ≠ "" → read start = none
  continued : ∀ rest : String, (∃ c ∈ rest.toList, ¬ IsBlank c) → read (text ++ rest) = none
  spread : ∃ ts, tokens? text.toList = some ts ∧ text.toList = ts.flatMap Token.spelling ∧
    ∀ other : String, Spread ts other.toList → read other = read text

/-- The text of a document other than a number shows its own end to all readers that take no
  numbers. -/
theorem delimited_render {α : Type} (read : Json → Option α)
    (hread : ∀ n, read (.number n) = none) {j : Json} (hj : ∀ n, j ≠ .number n) :
    Delimited (fun text => (parse? text).bind read) j.render where
  cut := by
    intro start rest hcut hrest
    -- Something may be read from the start of a text, but it is a number.
    cases h : parse? start with
    | none => rfl
    | some j' =>
      obtain ⟨n, rfl⟩ := isNumber_of_parse?_cut hcut hrest h
      exact hread n
  continued := by
    intro rest hrest
    have hnone : parse? (j.render ++ rest) = none := by
      rw [Option.eq_none_iff_forall_ne_some]
      intro j' h
      obtain ⟨c, hc, hblank⟩ := hrest
      exact hblank (((parse?_append (parse?_render j) hj).1 h).1 c hc)
    rw [hnone]
    rfl
  spread := by
    have htext : j.render.toList = j.tokens.flatMap Token.spelling := String.toList_ofList
    refine ⟨j.tokens, ?_, htext, ?_⟩
    · rw [htext, tokens?_flatMap_spelling (separated_tokens j)]
    · intro other hspread
      rw [parse?_of_written hspread.written, parse?_render]

end Telemetry.Json
