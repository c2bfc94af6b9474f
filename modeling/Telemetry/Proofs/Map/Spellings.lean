import Telemetry.Proofs.Json.Misspelled
import Telemetry.Proofs.Map.RoundTrip
/-!
# Texts are read in every spelling

Names, tags, keys and texts are all read by one scanner, which knows a quoted text by its characters
and not by their spellings. So a value, a kind or a map is read from any spelling of its quoted
texts, two spellings of a key are one key, and a fault in a quoted text spoils everything, wherever
it stands.
-/

namespace Telemetry

open Binary64 (reread)
open Json (Written)
open Json.Quoted (SpellsAll Misspelled isUnit_of_map_hexDigit?)

/-! ### Values and kinds -/

namespace StoredValue

/-- A value is read from every spelling of its document. -/
theorem decode?_of_written {v w : StoredValue} {text : String}
    (h : Written v.toJson.tokens text.toList) :
    decode? text = some w ↔ (∀ x ∈ v.doubles, x.IsFinite) ∧ w = v.mapDoubles reread := by
  rw [decode?, Json.parse?_of_written h, Option.bind_some, ofJson?_toJson_eq_some_iff, eq_comm]

/-- A value that holds texts is read from any spelling of them. -/
theorem decode?_eq_self_of_written {v : StoredValue} {text : String}
    (h : Written v.toJson.tokens text.toList) (hv : v.doubles = []) : decode? text = some v := by
  have hall {p : Binary64 → Prop} : ∀ x ∈ v.doubles, p x := hv ▸ List.forall_mem_nil p
  rw [decode?_of_written h, eq_comm, mapDoubles_eq_self_iff]
  exact ⟨hall, hall⟩

end StoredValue

/-- A kind is read from every spelling of its name, alone or as the name of a member that holds
  null. -/
theorem Kind.decode?_of_written {kind : Kind} {text : String}
    (h : Written kind.toJson.tokens text.toList ∨
      Written (Json.object [(kind.name, .null)]).tokens text.toList) :
    decode? text = some kind := by
  rcases h with h | h <;> rw [decode?, Json.parse?_of_written h] <;> exact kind.ofName?_name

/-! ### Maps -/

namespace AttributeMap

variable {k : MapKind}

/-- Entries are read alike from every spelling of their object. -/
theorem decode?_of_written {entries : List (String × k.Held)} {text : String}
    (h : Written (Json.object (entries.map fun e => (e.1, k.heldToJson e.2))).tokens text.toList) :
    (decode? text : Option (AttributeMap k)) = decode? (textOf entries) := by
  rw [decode?, decode?, Json.parse?_of_written h, parse?_textOf]

/-- Texts are written into a map as they are. -/
theorem decode?_textOf_texts (entries : List (String × MapKind.text.Held)) :
    decode? (textOf entries) = some (SortedMap.ofList entries : AttributeMap .text) := by
  have hself : mapDoubles reread (SortedMap.ofList entries : AttributeMap .text) =
      SortedMap.ofList entries := by
    rw [mapDoubles_eq_self_iff, forall_mem_doubles]
    exact fun _ _ => List.forall_mem_nil _
  exact decode?_textOf_eq_some_iff.2 ⟨fun _ _ => List.forall_mem_nil _, hself.symm⟩

/-! ### Faults -/

/-- Nothing can be read from a text: no document, and so no value, no kind and no map. -/
def Undecodable (text : String) : Prop :=
  Json.parse? text = none ∧ StoredValue.decode? text = none ∧ Kind.decode? text = none ∧
    ∀ k : MapKind, (decode? text : Option (AttributeMap k)) = none

/-- What is no JSON text is read as nothing. -/
theorem undecodable_of_parse?_eq_none {text : String} (h : Json.parse? text = none) :
    Undecodable text := by
  refine ⟨h, ?_, ?_, fun k => ?_⟩
  · rw [StoredValue.decode?, h, Option.bind_none]
  · rw [Kind.decode?, h, Option.bind_none]
  · rw [decode?, h, Option.bind_none]

variable {before : List Char} {ts : List Json.Token}

/-- A fault in a quoted text makes the whole text unreadable. -/
theorem undecodable_of_misspelled (hbefore : Json.tokens? before = some ts)
    {body chars bad : List Char} (hbody : SpellsAll body chars) (hbad : Misspelled bad) :
    Undecodable (String.ofList (before ++ '"' :: (body ++ bad))) := by
  apply undecodable_of_parse?_eq_none
  rw [Json.parse?, String.toList_ofList, Json.tokens?_eq_none_of_misspelled hbefore hbody hbad,
    Option.bind_none]

/-- Behind an opening quote stand spellings and a closing quote, or nothing can be read. -/
theorem exists_spellsAll_or_undecodable (hbefore : Json.tokens? before = some ts)
    (rest : List Char) :
    (∃ body chars more, SpellsAll body chars ∧ rest = body ++ '"' :: more) ∨
      Undecodable (String.ofList (before ++ '"' :: rest)) := by
  obtain ⟨body, chars, more, hbody, rfl, ⟨more, rfl⟩ | hbad⟩ := Json.Quoted.exists_spellsAll rest
  · exact Or.inl ⟨body, chars, more, hbody, rfl⟩
  · exact Or.inr (undecodable_of_misspelled hbefore hbody hbad)

/-! ### Main statement -/

/-- Any document is read from any spelling of its quoted texts. So are texts alone and in
  sequences, values of all kinds with their tags, kinds in both of their forms, and maps with their
  keys, where entries are written under the keys themselves and not under spellings of them. Behind
  an opening quote, a fault spoils everything, whatever is well spelled before it; and without a
  fault there is a closing quote. -/
theorem decode?_every_spelling :
    (∀ (j : Json) (text : String), Written j.tokens text.toList → Json.parse? text = some j) ∧
    (∀ (s : String) (text : String),
      Written (StoredValue.scalar .text s).toJson.tokens text.toList →
        StoredValue.decode? text = some (.scalar .text s)) ∧
    (∀ (ss : List String) (text : String),
      Written (StoredValue.sequence .text ss).toJson.tokens text.toList →
        StoredValue.decode? text = some (.sequence .text ss)) ∧
    (∀ (v w : StoredValue) (text : String), Written v.toJson.tokens text.toList →
      (StoredValue.decode? text = some w ↔
        (∀ x ∈ v.doubles, x.IsFinite) ∧ w = v.mapDoubles reread)) ∧
    (∀ (kind : Kind) (text : String), Written kind.toJson.tokens text.toList ∨
      Written (Json.object [(kind.name, .null)]).tokens text.toList →
        Kind.decode? text = some kind) ∧
    (∀ (entries : List (String × String)) (text : String),
      Written (Json.object (entries.map fun e => (e.1, .string e.2))).tokens text.toList →
        (decode? text : Option (AttributeMap .text)) = some (SortedMap.ofList entries)) ∧
    (∀ (k : MapKind) (entries : List (String × k.Held)) (text : String),
      Written (Json.object (entries.map fun e => (e.1, k.heldToJson e.2))).tokens text.toList →
        ∀ m : AttributeMap k, decode? text = some m ↔
          (∀ e ∈ entries, ∀ x ∈ k.doubles e.2, x.IsFinite) ∧
            m = mapDoubles reread (SortedMap.ofList entries)) ∧
    ∀ (before : List Char) (ts : List Json.Token), Json.tokens? before = some ts →
      (∀ body chars bad : List Char, SpellsAll body chars → Misspelled bad →
        Undecodable (String.ofList (before ++ '"' :: (body ++ bad)))) ∧
      ∀ rest : List Char,
        (∃ body chars more, SpellsAll body chars ∧ rest = body ++ '"' :: more) ∨
          Undecodable (String.ofList (before ++ '"' :: rest)) := by
  refine ⟨fun _ _ => Json.parse?_of_written, ?_, ?_, fun _ _ _ => StoredValue.decode?_of_written,
    fun _ _ => Kind.decode?_of_written, ?_, ?_, ?_⟩
  · -- A text and a list of texts hold no doubles.
    intro s text h
    exact StoredValue.decode?_eq_self_of_written h rfl
  · intro ss text h
    exact StoredValue.decode?_eq_self_of_written h (by simp [StoredValue.doubles, Scalar.doubles])
  · -- Maps of texts hold none either.
    intro entries text h
    rw [@decode?_of_written .text entries text h, decode?_textOf_texts]
  · intro k entries text h m
    rw [decode?_of_written h, decode?_textOf_eq_some_iff]
  · -- Behind an opening quote.
    intro before ts hbefore
    exact ⟨fun _ _ _ => undecodable_of_misspelled hbefore,
      exists_spellsAll_or_undecodable hbefore⟩

/-- The tag has an escaped letter, and its text an emoji as a pair with digits of both cases and an
  escaped slash. Two spellings of a key are one key. The first half of a pair has no partner. -/
theorem decode?_every_spelling_of_pair :
    StoredValue.decode? "\x7b\"\\u0053tring\":\"\\uD83d\\uDe00\\/\"\x7d" =
      some (.scalar .text "😀/") ∧
    (decode? "\x7b\"a\":\"1\",\"\\u0061\":\"2\"\x7d" : Option (AttributeMap .text)) =
      some (SortedMap.ofList [("a", "1"), ("a", "2")]) ∧
    Undecodable "[\"a\\ud83d\"]" := by
  obtain ⟨-, htexts, -, -, -, hmaps, -, hfaults⟩ := decode?_every_spelling
  have hself {c : Char} (hquote : c ≠ '"') (hescape : c ≠ '\\') (hcontrol : 0x20 ≤ c.toNat)
      {body text : List Char} (h : SpellsAll body text) : SpellsAll (c :: body) (c :: text) :=
    .cons (.self hquote hescape hcontrol) h
  have htag : SpellsAll (['\\', 'u', '0', '0', '5', '3'] ++ ['t', 'r', 'i', 'n', 'g'])
      "String".toList :=
    .cons (.unit (isUnit_of_map_hexDigit? [0, 0, 5, 3] rfl (by decide) (by decide)))
      (hself (by decide) (by decide) (by decide) (hself (by decide) (by decide) (by decide)
        (hself (by decide) (by decide) (by decide) (hself (by decide) (by decide) (by decide)
          (hself (by decide) (by decide) (by decide) .nil)))))
  have hemoji : SpellsAll (['\\', 'u'] ++ ['D', '8', '3', 'd'] ++ (['\\', 'u'] ++
      ['D', 'e', '0', '0']) ++ ['\\', '/']) "😀/".toList :=
    .cons (.pair (by decide) (isUnit_of_map_hexDigit? [13, 8, 3, 13] rfl (by decide) (by decide))
      (isUnit_of_map_hexDigit? [13, 14, 0, 0] rfl (by decide) (by decide)))
      (.cons (.short (by decide)) .nil)
  have hkey : SpellsAll (['\\', 'u', '0', '0', '6', '1'] ++ []) "a".toList :=
    .cons (.unit (isUnit_of_map_hexDigit? [0, 0, 6, 1] rfl (by decide) (by decide))) .nil
  have htoken {spelled rest : List Char} {t : Json.Token} {ts : List Json.Token}
      (ht : t.Spells spelled) (hrest : Written ts rest) : Written (t :: ts) (spelled ++ rest) :=
    .cons (List.forall_mem_nil _) ht hrest
  have hend : Written [] [] := .nil (List.forall_mem_nil _)
  refine ⟨?_, ?_, ?_⟩
  · exact htexts "😀/" _ (htoken (Json.Token.spells_spelling .openBrace)
      (htoken (.string htag) (htoken (Json.Token.spells_spelling .colon)
        (htoken (.string hemoji) (htoken (Json.Token.spells_spelling .closeBrace) hend)))))
  · exact hmaps [("a", "1"), ("a", "2")] _ (htoken (Json.Token.spells_spelling .openBrace)
      (htoken (Json.Token.spells_spelling (.string "a")) (htoken (Json.Token.spells_spelling .colon)
        (htoken (Json.Token.spells_spelling (.string "1"))
          (htoken (Json.Token.spells_spelling .comma) (htoken (.string hkey)
            (htoken (Json.Token.spells_spelling .colon)
              (htoken (Json.Token.spells_spelling (.string "2"))
                (htoken (Json.Token.spells_spelling .closeBrace) hend)))))))))
  · have hbad : Misspelled (['\\', 'u'] ++ ['d', '8', '3', 'd'] ++ ['"', ']']) :=
      .unpairedHigh (isUnit_of_map_hexDigit? [13, 8, 3, 13] rfl (by decide) rfl) (by decide)
        (by simp)
    exact (hfaults ['['] _ rfl).1 ['a'] ['a'] _
      (hself (by decide) (by decide) (by decide) .nil) hbad

end AttributeMap

end Telemetry
