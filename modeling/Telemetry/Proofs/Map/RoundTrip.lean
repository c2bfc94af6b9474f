import Telemetry.Fingerprint
import Telemetry.Proofs.Hash.Doubles
import Telemetry.Proofs.Map.Values
import Telemetry.Proofs.Map.Writes
import Telemetry.Proofs.Value.RoundTrip
/-!
# Attribute maps are read as they are written

The members of an object are written into a map one by one. A text is rejected if a single one of
them cannot be read, whether or not a later member has the same name. So the text of a map is read
exactly when all of its doubles are finite, in whatever order its entries are enumerated, and the
map comes back with each double replaced by the one that is read from its own number.
-/

namespace Telemetry

open Binary64 (reread)

/-! ### Doubles of maps -/

namespace MapKind

/-- The doubles of what a map holds. A text has none. -/
def doubles : (k : MapKind) → k.Held → List Binary64
  | text, _ => []
  | unordered, v => v.doubles
  | ordered, v => v.doubles

/-- What a map of the kind holds, with other doubles in their places. -/
def mapDoubles (f : Binary64 → Binary64) : (k : MapKind) → k.Held → k.Held
  | text, t => t
  | unordered, v => v.mapDoubles f
  | ordered, v => v.mapDoubles f

/-- What is held stays the same if every double stays what it is. -/
theorem mapDoubles_eq_self_iff {f : Binary64 → Binary64} {k : MapKind} (held : k.Held) :
    k.mapDoubles f held = held ↔ ∀ x ∈ k.doubles held, f x = x := by
  cases k with
  | text => exact iff_of_true rfl (List.forall_mem_nil _)
  | unordered | ordered => exact StoredValue.mapDoubles_eq_self_iff held

/-- What a map holds is read from its document if all doubles are finite, with each of them read
  again. -/
theorem heldOfJson?_heldToJson_eq_some_iff {k : MapKind} {held other : k.Held} :
    k.heldOfJson? (k.heldToJson held) = some other ↔
      (∀ x ∈ k.doubles held, x.IsFinite) ∧ k.mapDoubles reread held = other := by
  cases k with
  | text =>
    change some held = some other ↔ (∀ x ∈ [], Binary64.IsFinite x) ∧ held = other
    rw [Option.some.injEq]
    exact (and_iff_right (List.forall_mem_nil _)).symm
  | unordered | ordered => exact StoredValue.ofJson?_toJson_eq_some_iff

end MapKind

namespace AttributeMap

variable {k : MapKind}

/-- The doubles of a map, entry by entry. -/
def doubles (m : AttributeMap k) : List Binary64 :=
  m.entries.flatMap fun e => k.doubles e.2

/-- The map with other doubles in their places. -/
def mapDoubles (f : Binary64 → Binary64) (m : AttributeMap k) : AttributeMap k :=
  m.mapValues (k.mapDoubles f)

/-- The doubles of a map are those of its entries. -/
theorem forall_mem_doubles {m : AttributeMap k} {p : Binary64 → Prop} :
    (∀ x ∈ m.doubles, p x) ↔ ∀ e ∈ m.entries, ∀ x ∈ k.doubles e.2, p x := by
  simp only [doubles, List.mem_flatMap]
  exact ⟨fun h e he x hx => h x ⟨e, he, hx⟩, fun h x ⟨e, he, hx⟩ => h e he x hx⟩

/-- A map stays the same if every double stays what it is. -/
theorem mapDoubles_eq_self_iff {f : Binary64 → Binary64} (m : AttributeMap k) :
    m.mapDoubles f = m ↔ ∀ x ∈ m.doubles, f x = x := by
  have hentries : m.mapDoubles f = m ↔ (m.mapDoubles f).entries = m.entries :=
    ⟨congrArg _, fun h => by cases m; exact (SortedMap.mk.injEq ..).mpr h⟩
  have hself :=
    List.map_inj_left (l := m.entries) (f := fun e => (e.1, k.mapDoubles f e.2)) (g := id)
  rw [List.map_id] at hself
  rw [hentries, forall_mem_doubles]
  refine hself.trans (forall₂_congr fun e _ => ?_)
  rw [← MapKind.mapDoubles_eq_self_iff, Prod.ext_iff]
  exact and_iff_right rfl

/-! ### Reading any text -/

/-- A member is read as an entry under its name. -/
theorem entryOfMember?_eq_some_iff {member : String × Json} {e : String × k.Held} :
    entryOfMember? member = some e ↔ e.1 = member.1 ∧ k.heldOfJson? member.2 = some e.2 := by
  rw [entryOfMember?, Option.map_eq_some_iff]
  constructor
  · rintro ⟨held, hheld, rfl⟩
    exact ⟨rfl, hheld⟩
  · rintro ⟨hname, hheld⟩
    exact ⟨e.2, hheld, Prod.ext hname.symm rfl⟩

/-- A text comes to writes if it is an object and every member is read as one of them. -/
theorem writes?_eq_some_iff {text : String} {writes : List (String × k.Held)} :
    writes? text = some writes ↔ ∃ members, Json.parse? text = some (.object members) ∧
      List.Forall₂ (fun member e => e.1 = member.1 ∧ k.heldOfJson? member.2 = some e.2)
        members writes := by
  simp only [← entryOfMember?_eq_some_iff, ← mapM_eq_some_iff]
  rw [writes?, Option.bind_eq_some_iff]
  constructor
  · rintro ⟨j, hj, h⟩
    cases j with
    | object members => exact ⟨members, hj, h⟩
    | null | bool | number | string | array => cases h
  · rintro ⟨members, hmembers, h⟩
    exact ⟨_, hmembers, h⟩

/-- A text is read as the map that its members fill one after another. -/
theorem decode?_eq_some_iff {text : String} {m : AttributeMap k} :
    decode? text = some m ↔ ∃ members writes, Json.parse? text = some (.object members) ∧
      List.Forall₂ (fun member e => e.1 = member.1 ∧ k.heldOfJson? member.2 = some e.2)
        members writes ∧ m = SortedMap.ofList writes := by
  rw [decode?_eq_map_writes?, Option.map_eq_some_iff]
  simp only [writes?_eq_some_iff]
  constructor
  · rintro ⟨writes, ⟨members, hparse, hread⟩, hm⟩
    exact ⟨members, writes, hparse, hread, hm.symm⟩
  · rintro ⟨members, writes, hparse, hread, hm⟩
    exact ⟨writes, ⟨members, hparse, hread⟩, hm.symm⟩

/-- One member that cannot be read spoils the whole text. -/
theorem decode?_eq_none_of_member {text : String} {members : List (String × Json)}
    (htext : Json.parse? text = some (.object members))
    (h : ∃ member ∈ members, k.heldOfJson? member.2 = none) :
    (decode? text : Option (AttributeMap k)) = none := by
  obtain ⟨member, hmember, hnone⟩ := h
  rw [Option.eq_none_iff_forall_ne_some]
  intro m hm
  obtain ⟨others, writes, hparse, hread, -⟩ := decode?_eq_some_iff.1 hm
  rw [htext, Option.some.injEq, Json.object.injEq] at hparse
  subst hparse
  have hall := hread.imp fun member e h => And.intro (Option.isSome_of_eq_some h.2) trivial
  have hsome := ((List.forall₂_and_left (R := fun _ _ => True) _ _).1 hall).1 member hmember
  rw [hnone] at hsome
  cases hsome

/-! ### Reading the text of entries -/

/-- The text of an object that lists entries in their order. -/
def textOf (entries : List (String × k.Held)) : String :=
  Json.objectText (entries.map fun e => (e.1, (k.heldToJson e.2).render))

/-- The text of entries is that of the object with their documents. -/
theorem textOf_eq_render (entries : List (String × k.Held)) :
    textOf entries = (Json.object (entries.map fun e => (e.1, k.heldToJson e.2))).render := by
  rw [Json.render_object, List.map_map]
  rfl

/-- A map is encoded as the text of its entries. -/
theorem encode_eq_textOf (m : AttributeMap k) : m.encode = textOf m.entries :=
  (textOf_eq_render m.entries).symm

/-- The text of entries is read as that object. -/
theorem parse?_textOf (entries : List (String × k.Held)) :
    Json.parse? (textOf entries) =
      some (.object (entries.map fun e => (e.1, k.heldToJson e.2))) := by
  rw [textOf_eq_render, Json.parse?_render]

/-- The text of entries comes to these entries with their doubles read again, if all of them are
  finite. -/
theorem writes?_textOf_eq_some_iff {entries writes : List (String × k.Held)} :
    writes? (textOf entries) = some writes ↔
      (∀ e ∈ entries, ∀ x ∈ k.doubles e.2, x.IsFinite) ∧
        (entries.map fun e => (e.1, k.mapDoubles reread e.2)) = writes := by
  have hmember (e e' : String × k.Held) :
      entryOfMember? (e.1, k.heldToJson e.2) = some e' ↔
        (∀ x ∈ k.doubles e.2, x.IsFinite) ∧ (e.1, k.mapDoubles reread e.2) = e' := by
    rw [entryOfMember?_eq_some_iff, MapKind.heldOfJson?_heldToJson_eq_some_iff, Prod.ext_iff,
      eq_comm, and_left_comm]
  rw [writes?, parse?_textOf, Option.bind_some]
  simp only [mapM_eq_some_iff, List.forall₂_map_left_iff, hmember, List.forall₂_and_left,
    forall₂_eq_iff]

/-- The text of entries is read as the map of these writes. -/
theorem decode?_textOf_eq_some_iff {entries : List (String × k.Held)} {m : AttributeMap k} :
    decode? (textOf entries) = some m ↔
      (∀ e ∈ entries, ∀ x ∈ k.doubles e.2, x.IsFinite) ∧
        m = mapDoubles reread (SortedMap.ofList entries) := by
  rw [decode?_eq_map_writes?, Option.map_eq_some_iff, mapDoubles, SortedMap.mapValues_ofList]
  simp only [writes?_textOf_eq_some_iff]
  constructor
  · rintro ⟨writes, ⟨hfinite, rfl⟩, rfl⟩
    exact ⟨hfinite, rfl⟩
  · rintro ⟨hfinite, rfl⟩
    exact ⟨_, ⟨hfinite, rfl⟩, rfl⟩

/-- The entries of a map may be written in any order. -/
theorem decode?_textOf_of_perm {m n : AttributeMap k} {entries : List (String × k.Held)}
    (h : entries.Perm m.entries) :
    decode? (textOf entries) = some n ↔
      (∀ x ∈ m.doubles, x.IsFinite) ∧ n = m.mapDoubles reread := by
  rw [decode?_textOf_eq_some_iff, m.ofList_of_perm_entries h, forall_mem_doubles]
  simp only [h.mem_iff]

end AttributeMap

/-! ### Fingerprints -/

/-- A scalar is hashed as before if its double rounds alike. -/
theorem Datum.hash_mapDouble {f : Binary64 → Binary64} {s : Scalar} {x : s.Carrier}
    (h : ∀ y ∈ s.doubles x, y.RoundsAlike (f y)) :
    (scalar s (s.mapDouble f x)).hash = (scalar s x).hash := by
  cases s with
  | double =>
    have htext := Binary64.generalText_eq_iff.2 (h x (List.mem_singleton_self x))
    rw [hash_eq_hash_hashedBytes, hash_eq_hash_hashedBytes]
    exact congrArg (Fnv1a.hash ∘ Utf8.encode) htext.symm
  | bool | int32 | uint32 | int64 | uint64 | text => rfl

/-- A value folds as before if each of its doubles rounds alike. -/
theorem StoredValue.foldInto_mapDoubles {f : Binary64 → Binary64} {v : StoredValue}
    (h : ∀ x ∈ v.doubles, x.RoundsAlike (f x)) (seed : UInt64) :
    (v.mapDoubles f).foldInto seed = v.foldInto seed := by
  cases v with
  | scalar s x => exact congrArg (Seed.mix seed) (Datum.hash_mapDouble h)
  | sequence s xs =>
    rw [forall_mem_doubles_sequence] at h
    rw [mapDoubles, foldInto, foldInto, List.foldl_map]
    apply List.foldl_ext
    intro seed x hx
    exact congrArg (Seed.mix seed) (Datum.hash_mapDouble (h x hx))
  | bytes bs => rfl

namespace AttributeMap

variable {k : MapKind}

/-- Doubles that round alike to six significant digits have no effect on a fingerprint. -/
theorem fingerprint_mapDoubles {f : Binary64 → Binary64} {m : AttributeMap k}
    (h : ∀ x ∈ m.doubles, x.RoundsAlike (f x)) :
    (m.mapDoubles f).fingerprint = m.fingerprint := by
  rw [forall_mem_doubles] at h
  rw [fingerprint, fingerprint, mapDoubles, SortedMap.mapValues, List.foldl_map]
  apply List.foldl_ext
  intro seed e he
  have hvalue := h e he
  cases k with
  | text => rfl
  | unordered | ordered => exact StoredValue.foldInto_mapDoubles hvalue _

/-! ### Main statement -/

/-- Reading objects into maps of a kind. A text is read exactly when it is an object all of whose
  members can be read, and then they are written into a map one after another. So the text of pairs
  is read as the map in which the pairs are set, and the text of a map as this map, in whatever
  order its entries come, if all doubles are finite; each double is replaced by the one that is
  read from its own number. Texts always come back, and the fingerprint of an ordered map stays the
  same if each double rounds like the one that replaces it. -/
theorem decode?_writes_members (k : MapKind) :
    (∀ text (m : AttributeMap k), decode? text = some m ↔
      ∃ members writes, Json.parse? text = some (.object members) ∧
        List.Forall₂ (fun member e => e.1 = member.1 ∧ k.heldOfJson? member.2 = some e.2)
          members writes ∧ m = SortedMap.ofList writes) ∧
    (∀ text members, Json.parse? text = some (.object members) →
      (∃ member ∈ members, k.heldOfJson? member.2 = none) →
        (decode? text : Option (AttributeMap k)) = none) ∧
    (∀ (pairs : List Pair) (m : AttributeMap k),
      decode? (textOf (k := k) (pairs.map writeOf)) = some m ↔
        (∀ p ∈ pairs, ∀ x ∈ k.doubles (k.hold p.2), x.IsFinite) ∧
          m = mapDoubles reread (collect pairs)) ∧
    (∀ m : AttributeMap k, m.encode = textOf m.entries ∧
      ∀ entries : List (String × k.Held), entries.Perm m.entries →
        (∀ n, decode? (textOf entries) = some n ↔
          (∀ x ∈ m.doubles, x.IsFinite) ∧ n = m.mapDoubles reread) ∧
        (decode? (textOf entries) = some m ↔ ∀ x ∈ m.doubles, x.IsFinite ∧ x.reread = x) ∧
        (k = .text → decode? (textOf entries) = some m)) ∧
    (∀ m n : AttributeMap .ordered, decode? m.encode = some n →
      (∀ x ∈ m.doubles, x.RoundsAlike x.reread) → n.fingerprint = m.fingerprint) ∧
    ∀ x : Binary64, x.IsFinite → x.ReadsNear x.reread := by
  refine ⟨fun _ _ => decode?_eq_some_iff, fun _ _ => decode?_eq_none_of_member, ?_, ?_, ?_,
    fun _ => Binary64.readsNear_reread⟩
  · -- The text of pairs.
    intro pairs m
    rw [decode?_textOf_eq_some_iff, collect_eq_ofList, List.forall_mem_map]
    rfl
  · -- The text of a map, with its entries in any order.
    intro m
    refine ⟨m.encode_eq_textOf, ?_⟩
    intro entries hperm
    -- The map itself comes back if no double is changed.
    have hself : decode? (textOf entries) = some m ↔
        ∀ x ∈ m.doubles, x.IsFinite ∧ x.reread = x := by
      rw [decode?_textOf_of_perm hperm, eq_comm, mapDoubles_eq_self_iff]
      constructor
      · intro h x hx
        exact ⟨h.1 x hx, h.2 x hx⟩
      · intro h
        exact ⟨fun x hx => (h x hx).1, fun x hx => (h x hx).2⟩
    refine ⟨fun n => decode?_textOf_of_perm hperm, hself, ?_⟩
    rintro rfl
    rw [hself, forall_mem_doubles]
    exact fun _ _ => List.forall_mem_nil _
  · -- The fingerprint of what is read.
    intro m n hread halike
    rw [encode_eq_textOf, decode?_textOf_of_perm (.refl _)] at hread
    rw [hread.2]
    exact fingerprint_mapDoubles halike

/-- A null is no text, although a later member of its name is one. A tenth may be overwritten by a
  truth value. The greatest integer below `2 ^ 53` comes back as the double below, which has the
  same six digits. -/
theorem decode?_of_overwritten_members :
    (decode? (Json.object [("a", .null), ("a", .string "b")]).render :
      Option (AttributeMap .text)) = none ∧
    (let pairs : List Pair := [("a", .scalar .double (.ofBits 0x3fb999999999999a)),
      ("b", .rawText ⟨[0xff], by decide⟩), ("a", .scalar .bool true)]
    decode? (textOf (k := .ordered) (pairs.map writeOf)) =
      some (collect pairs : AttributeMap .ordered)) ∧
    let m : AttributeMap .ordered := collect [("a", .scalar .double (.ofBits 0x433fffffffffffff))]
    decode? m.encode = some (m.mapDoubles reread) ∧
      (m.mapDoubles reread).fingerprint = m.fingerprint := by
  refine ⟨?_, ?_, ?_⟩
  · exact (decode?_writes_members .text).2.1 _ _ (Json.parse?_render _)
      ⟨("a", .null), List.mem_cons_self, rfl⟩
  · intro pairs
    refine ((decode?_writes_members .ordered).2.2.1 pairs _).2 ⟨by decide +kernel, ?_⟩
    exact ((mapDoubles_eq_self_iff _).2 (by decide +kernel)).symm
  · intro m
    obtain ⟨-, -, -, hmaps, hfingerprint, -⟩ := decode?_writes_members .ordered
    have hdoubles : m.doubles = [.ofBits 0x433fffffffffffff] := by decide +kernel
    have hread : decode? m.encode = some (m.mapDoubles reread) := by
      rw [(hmaps m).1]
      exact (((hmaps m).2 _ (.refl _)).1 _).2 ⟨by decide +kernel, rfl⟩
    have halike : ∀ x ∈ m.doubles, x.RoundsAlike x.reread := by
      rw [hdoubles, List.forall_mem_singleton]
      exact Binary64.generalText_eq_iff.1 (by decide +kernel)
    exact ⟨hread, hfingerprint m _ hread halike⟩

/-- The double written as `2.325055e29` is read as the one below. The two lie on both sides of a tie
  of the sixth digit, so the ordered map has another fingerprint afterwards. -/
theorem decode?_encode_ne_self_of_tie :
    ∃ m : AttributeMap .ordered,
      m = collect [("a", .scalar .double (.ofBits 0x46077a2055d5ee6f))] ∧
      (∀ x ∈ m.doubles, x.IsFinite) ∧
      m.encode = "\x7b\"a\":\x7b\"Double\":2.325055e+29\x7d\x7d" ∧
      (decode? (k := .ordered) m.encode).map SortedMap.entries =
        some [("a", .scalar .double (.ofBits 0x46077a2055d5ee6e))] ∧
      decode? m.encode ≠ some m ∧
      (decode? (k := .ordered) m.encode).map fingerprint ≠ some m.fingerprint := by
  refine ⟨_, rfl, by decide +kernel, by decide +kernel, by decide +kernel, ?_, by decide +kernel⟩
  intro h
  have hentries := congrArg (Option.map SortedMap.entries) h
  exact absurd hentries (by decide +kernel)

end AttributeMap

end Telemetry
