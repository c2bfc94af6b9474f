import Telemetry.Proofs.Json.Delimited
import Telemetry.Proofs.Map.RoundTrip
/-!
# The texts of values, kinds and maps show their own end

Values and maps are written as objects and kinds as quoted texts, and none of them is read from a
number. So their texts show their own end: a text that is damaged at its end is never read as
something shorter or longer. Braces, brackets and quotes inside a quoted text end nothing.
-/

namespace Telemetry

open Json (Delimited)

/-- The text of a value shows its own end. -/
theorem StoredValue.delimited_encode (v : StoredValue) : Delimited decode? v.encode :=
  Json.delimited_render ofJson? (fun _ => rfl) fun _ => Json.noConfusion

/-- A value is read from its text if all of its doubles are finite. -/
theorem StoredValue.isSome_decode?_encode_iff (v : StoredValue) :
    (decode? v.encode).isSome ↔ ∀ x ∈ v.doubles, x.IsFinite := by
  rw [Option.isSome_iff_exists]
  simp only [decode?_encode_eq_some_iff]
  exact ⟨fun ⟨_, h, _⟩ => h, fun h => ⟨_, h, rfl⟩⟩

/-- The text of a kind shows its own end. -/
theorem Kind.delimited_encode (k : Kind) : Delimited decode? k.encode :=
  Json.delimited_render ofJson? (fun _ => rfl) fun _ => Json.noConfusion

/-- A kind is read from its own text. -/
theorem Kind.decode?_encode (k : Kind) : decode? k.encode = some k := by
  rw [decode?, encode, Json.parse?_render]
  exact k.ofName?_name

namespace AttributeMap

variable {k : MapKind}

/-- The text of entries shows its own end, in whatever order they are written. -/
theorem delimited_textOf (entries : List (String × k.Held)) :
    Delimited (decode? : String → Option (AttributeMap k)) (textOf entries) := by
  rw [textOf_eq_render]
  exact Json.delimited_render ofJson? (fun _ => rfl) fun _ => Json.noConfusion

/-- A map is read from the text of its entries, in any order, if all of its doubles are finite. -/
theorem isSome_decode?_textOf_iff {m : AttributeMap k} {entries : List (String × k.Held)}
    (h : entries.Perm m.entries) :
    (decode? (textOf entries) : Option (AttributeMap k)).isSome ↔ ∀ x ∈ m.doubles, x.IsFinite := by
  rw [Option.isSome_iff_exists]
  simp only [decode?_textOf_of_perm h]
  exact ⟨fun ⟨_, h, _⟩ => h, fun h => ⟨_, h, rfl⟩⟩

/-- The text of a value, of a kind, and of a map in any order of its entries is rejected when it is
  cut anywhere and when anything but blanks is put behind it, and blanks around its tokens make no
  difference. It is read exactly when all of its doubles are finite. -/
theorem encodings_delimited :
    (∀ v : StoredValue, Delimited StoredValue.decode? v.encode ∧
      ((StoredValue.decode? v.encode).isSome ↔ ∀ x ∈ v.doubles, x.IsFinite)) ∧
    (∀ kind : Kind, Delimited Kind.decode? kind.encode ∧
      Kind.decode? kind.encode = some kind) ∧
    ∀ (k : MapKind) (m : AttributeMap k), m.encode = textOf m.entries ∧
      ∀ entries : List (String × k.Held), entries.Perm m.entries →
        Delimited (decode? : String → Option (AttributeMap k)) (textOf entries) ∧
        ((decode? (textOf entries) : Option (AttributeMap k)).isSome ↔
          ∀ x ∈ m.doubles, x.IsFinite) := by
  refine ⟨?_, ?_, ?_⟩
  · intro v
    exact ⟨v.delimited_encode, v.isSome_decode?_encode_iff⟩
  · intro kind
    exact ⟨kind.delimited_encode, kind.decode?_encode⟩
  · intro k m
    refine ⟨m.encode_eq_textOf, ?_⟩
    intro entries hperm
    exact ⟨delimited_textOf entries, isSome_decode?_textOf_iff hperm⟩

/-- A text that holds a brace and a quote. It is rejected behind its brace, behind its escaped quote
  and with a further brace, and read with blanks around each of its tokens. A map whose entries are
  listed in the opposite order is read, and rejected with a further comma. -/
theorem encodings_delimited_of_brace :
    let v : StoredValue := .scalar .text "\x7d\" "
    let m : AttributeMap .unordered :=
      collect [("a", .scalar .bool true), ("\x7d", .rawText ⟨[], by decide⟩)]
    v.encode = "\x7b\"String\":\"\x7d\\\" \"\x7d" ∧
      StoredValue.decode? "\x7b\"String\":\"\x7d" = none ∧
      StoredValue.decode? "\x7b\"String\":\"\x7d\\\"" = none ∧
      StoredValue.decode? (v.encode ++ " \x7d") = none ∧
      StoredValue.decode? " \x7b\t\"String\" :\n\"\x7d\\\" \"\x7d\r" =
        StoredValue.decode? v.encode ∧
      (StoredValue.decode? v.encode).isSome ∧
      Kind.decode? "\"Int" = none ∧
      (decode? (textOf m.entries.reverse) : Option (AttributeMap .unordered)).isSome ∧
      (decode? (textOf m.entries.reverse ++ ",") : Option (AttributeMap .unordered)) = none := by
  intro v m
  obtain ⟨hvalues, hkinds, hmaps⟩ := encodings_delimited
  obtain ⟨hv, hsome⟩ := hvalues v
  obtain ⟨hm, hread⟩ := (hmaps .unordered m).2 m.entries.reverse (List.reverse_perm _)
  have htext : v.encode = "\x7b\"String\":\"\x7d\\\" \"\x7d" := by decide +kernel
  have hspread : StoredValue.decode? " \x7b\t\"String\" :\n\"\x7d\\\" \"\x7d\r" =
      StoredValue.decode? v.encode := by
    obtain ⟨ts, hts, -, hother⟩ := hv.spread
    have htokens : Json.tokens? v.encode.toList =
        some [.openBrace, .string "String", .colon, .string "\x7d\" ", .closeBrace] := by
      decide +kernel
    obtain rfl := Option.some.inj (hts.symm.trans htokens)
    have hone {c : Char} (hc : Json.IsBlank c) : ∀ d ∈ [c], Json.IsBlank d :=
      List.forall_mem_singleton.2 hc
    -- One character before each token and one at the end, but none before the last brace.
    have hblanks : Json.Spread
        [.openBrace, .string "String", .colon, .string "\x7d\" ", .closeBrace]
        ([' '] ++ (_ ++ (['\t'] ++ (_ ++ ([' '] ++ (_ ++ (['\n'] ++ (_ ++ ([] ++ (_ ++
          ['\r'])))))))))) :=
      .cons (hone (by decide)) (.cons (hone (by decide)) (.cons (hone (by decide))
        (.cons (hone (by decide)) (.cons (List.forall_mem_nil _) (.nil (hone (by decide)))))))
    exact hother _ hblanks
  refine ⟨htext, ?_, ?_, ?_, hspread, hsome.2 (by decide), ?_, hread.2 (by decide +kernel), ?_⟩
  · exact hv.cut _ "\\\" \"\x7d" (by decide +kernel) (by decide)
  · exact hv.cut _ " \"\x7d" (by decide +kernel) (by decide)
  · exact hv.continued " \x7d" ⟨'\x7d', by decide, by decide⟩
  · exact (hkinds (.scalar .int32)).1.cut _ "\"" (by decide +kernel) (by decide)
  · exact hm.continued "," ⟨',', by decide, by decide⟩

end AttributeMap

end Telemetry
