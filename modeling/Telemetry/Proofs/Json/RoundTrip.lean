import Telemetry.Json.Text
import Telemetry.Proofs.Json.Tokens
/-!
# Documents are read as they are written

A builder that reads the tokens of a document ends with this document, whatever unfinished parts
lie around it. With the scanner this makes reading the inverse of writing.
-/

namespace Telemetry.Json

namespace Builder

theorem run_cons (b : Builder) (t : Token) (ts : List Token) :
    b.run (t :: ts) = (b.step t).bind fun b => b.run ts := rfl

theorem run_append (b : Builder) (before after : List Token) :
    b.run (before ++ after) = (b.run before).bind fun b => b.run after :=
  List.foldlM_append

/-- The first element of an array is entered like a document. -/
theorem step_firstItem {t : Token} (ht : t ≠ .closeBracket) (path : List Frame) :
    (firstItem path).step t = enter (.array [] :: path) t := by
  cases t with
  | closeBracket => exact absurd rfl ht
  | openBrace | closeBrace | openBracket | colon | comma | null | bool | number | string => rfl

/-- The tokens of a document start with a token that enters it, and the others complete it. The
  first token is no closing bracket, which would end an array. -/
def Entered (j : Json) (path : List Frame) : Prop :=
  ∃ t ts, j.tokens = t :: ts ∧ t ≠ .closeBracket ∧
    ((enter path t).bind fun b => b.run ts) = some (.complete j path)

/-- A document that is entered is completed by its tokens. -/
theorem Entered.run_document {j : Json} {path : List Frame} (h : Entered j path) :
    (document path).run j.tokens = some (.complete j path) := by
  obtain ⟨t, ts, htokens, -, hrun⟩ := h
  rw [htokens, run_cons]
  exact hrun

/-- A document that is entered as the first element of an array is completed by its tokens. -/
theorem Entered.run_firstItem {j : Json} {path : List Frame} (h : Entered j (.array [] :: path)) :
    (firstItem path).run j.tokens = some (.complete j (.array [] :: path)) := by
  obtain ⟨t, ts, htokens, ht, hrun⟩ := h
  rw [htokens, run_cons, step_firstItem ht, hrun]

mutual

/-- Every document is entered by its first token and completed by the others. -/
theorem entered : ∀ (j : Json) (path : List Frame), Entered j path
  | .null, _ => ⟨_, _, rfl, by simp, rfl⟩
  | .bool _, _ => ⟨_, _, rfl, by simp, rfl⟩
  | .number _, _ => ⟨_, _, rfl, by simp, rfl⟩
  | .string _, _ => ⟨_, _, rfl, by simp, rfl⟩
  | .array [], _ => ⟨_, _, rfl, by simp, rfl⟩
  | .array (j :: items), path => by
    refine ⟨.openBracket, _, rfl, by simp, ?_⟩
    change (firstItem path).run (j.tokens ++ (moreItems items ++ [.closeBracket])) = _
    rw [run_append, (entered j (.array [] :: path)).run_firstItem]
    exact run_moreItems items [] j path
  | .object [], _ => ⟨_, _, rfl, by simp, rfl⟩
  | .object ((name, j) :: members), path => by
    refine ⟨.openBrace, _, rfl, by simp, ?_⟩
    change (document (.object [] name :: path)).run
      (j.tokens ++ (moreMembers members ++ [.closeBrace])) = _
    rw [run_append, (entered j (.object [] name :: path)).run_document]
    exact run_moreMembers members [] name j path

/-- Behind an item, the tokens of further items and the closing bracket complete the array. -/
theorem run_moreItems : ∀ (items before : List Json) (j : Json) (path : List Frame),
    (complete j (.array before :: path)).run (moreItems items ++ [.closeBracket]) =
      some (.complete (.array ((j :: before).reverse ++ items)) path)
  | [], before, j, path => by
    rw [List.append_nil]
    rfl
  | next :: items, before, j, path => by
    change (document (.array (j :: before) :: path)).run
      ((next.tokens ++ moreItems items) ++ [.closeBracket]) = _
    rw [List.append_assoc, run_append, (entered next (.array (j :: before) :: path)).run_document,
      Option.bind_some, run_moreItems items (j :: before) next path]
    rw [List.reverse_cons (a := next), List.append_assoc, List.singleton_append]

/-- The members behind the first one complete an object. -/
theorem run_moreMembers : ∀ (members before : List (String × Json)) (name : String) (j : Json)
    (path : List Frame),
    (complete j (.object before name :: path)).run (moreMembers members ++ [.closeBrace]) =
      some (.complete (.object (((name, j) :: before).reverse ++ members)) path)
  | [], before, name, j, path => by
    rw [List.append_nil]
    rfl
  | (nextName, next) :: members, before, name, j, path => by
    change (document (.object ((name, j) :: before) nextName :: path)).run
      ((next.tokens ++ moreMembers members) ++ [.closeBrace]) = _
    rw [List.append_assoc, run_append,
      (entered next (.object ((name, j) :: before) nextName :: path)).run_document,
      Option.bind_some, run_moreMembers members ((name, j) :: before) nextName next path]
    rw [List.reverse_cons (a := (nextName, next)), List.append_assoc, List.singleton_append]

end

/-- The tokens of a document complete it, wherever it stands. -/
theorem run_tokens (j : Json) (path : List Frame) :
    (document path).run j.tokens = some (.complete j path) :=
  (entered j path).run_document

end Builder

/-- A document is read from its tokens. -/
theorem ofTokens?_tokens (j : Json) : ofTokens? j.tokens = some j := by
  rw [ofTokens?, Builder.start, Builder.run_tokens]
  rfl

/-- A document is read from its tokens in any spelling and with any blanks around them. -/
theorem parse?_of_written {j : Json} {text : String} (h : Written j.tokens text.toList) :
    parse? text = some j := by
  rw [parse?, tokens?_of_written (separated_tokens j) h, Option.bind_some, ofTokens?_tokens]

/-- The text of a document spells its tokens. -/
theorem written_render (j : Json) : Written j.tokens j.render.toList := by
  rw [render, String.toList_ofList]
  exact (spread_flatMap_spelling j.tokens).written

/-- A document is read from its own text. -/
theorem parse?_render (j : Json) : parse? j.render = some j :=
  parse?_of_written (written_render j)

/-! ### Texts of objects -/

/-- A member as it is written: its name between quotes, a colon and the text of its document. -/
def memberSpelling (member : String × String) : List Char :=
  Quoted.spelling member.1.toList ++ ':' :: member.2.toList

/-- The text of an object whose members have the given names and texts: the members in their
  order, with commas between them. -/
def objectText (members : List (String × String)) : String :=
  String.ofList
    ('\x7b' :: ([','].intercalate (members.map memberSpelling) ++ ['\x7d']))

/-- The tokens of a member spell its text. -/
theorem flatMap_spelling_member (name : String) (j : Json) (rest : List Token) :
    (Token.string name :: .colon :: (j.tokens ++ rest)).flatMap Token.spelling =
      memberSpelling (name, j.render) ++ rest.flatMap Token.spelling := by
  simp [memberSpelling, render, spelling, Token.spelling]

/-- The tokens of further members spell their texts with a comma before each of them. -/
theorem flatMap_spelling_moreMembers (members : List (String × Json)) :
    (moreMembers members).flatMap Token.spelling =
      (members.map fun m => memberSpelling (m.1, m.2.render)).flatMap ([','] ++ ·) := by
  induction members with
  | nil => rfl
  | cons m rest ih =>
    obtain ⟨name, j⟩ := m
    rw [moreMembers, List.flatMap_cons, flatMap_spelling_member, ih, List.map_cons,
      List.flatMap_cons, List.append_assoc]
    rfl

/-- Texts with separators between them have one before each text but the first. -/
theorem intercalate_cons (separator first : List Char) (rest : List (List Char)) :
    separator.intercalate (first :: rest) = first ++ rest.flatMap (separator ++ ·) := by
  induction rest generalizing first with
  | nil => simp
  | cons next rest ih =>
    rw [List.intercalate_cons_cons, ih, List.flatMap_cons, List.append_assoc, List.append_assoc]

/-- The text of an object. -/
theorem render_object (members : List (String × Json)) :
    (object members).render = objectText (members.map fun m => (m.1, m.2.render)) := by
  rw [render, spelling, objectText, List.map_map]
  cases members with
  | nil => rfl
  | cons m rest =>
    obtain ⟨name, j⟩ := m
    rw [tokens, List.flatMap_cons, flatMap_spelling_member, List.flatMap_append,
      flatMap_spelling_moreMembers, List.map_cons, intercalate_cons, List.append_assoc]
    rfl

/-- The text of an object with one member: what comes before the text of the member's value does
  not depend on that value. -/
theorem render_singleton (name : String) (j : Json) :
    (object [(name, j)]).render =
      String.ofList ('\x7b' :: (Quoted.spelling name.toList ++ [':'])) ++ j.render ++
        String.ofList ['\x7d'] := by
  rw [render_object, List.map_singleton, objectText, List.map_singleton,
    List.intercalate_singleton, memberSpelling, ← String.toList_inj]
  simp

/-- The text of a number is its spelling. -/
theorem render_number (n : Number) : (number n).render = String.ofList n.spelling :=
  congrArg String.ofList (List.append_nil _)

end Telemetry.Json
