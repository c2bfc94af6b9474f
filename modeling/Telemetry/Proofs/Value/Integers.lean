import Telemetry.Proofs.Hash.Numbers
import Telemetry.Proofs.Value.RoundTrip
/-!
# Integers are read exactly or not at all

Each kind of integers has a range. A number is read as an integer of the kind if it is written
without a fraction and without an exponent and lies in the range, and then it is that very integer.
There is no accumulator that could overflow and no other number that could take its place. A
sequence is read if all of its elements are.
-/

namespace Telemetry

/-! ### Readers of integers -/

/-- A reader reads exactly the integers in a range, each as the one thing of that value. -/
structure ReadsRange {α : Type} (read : ℤ → Option α) (value : α → ℤ) (least beyond : ℤ) :
    Prop where
  eq_some_iff : ∀ n x, read n = some x ↔ value x = n
  isSome_iff : ∀ n, (read n).isSome ↔ least ≤ n ∧ n < beyond

/-- A reader that checks a range and converts what is in it reads the range. -/
theorem readsRange_of_eq {α : Type} {read : ℤ → Option α} {value : α → ℤ} {make : ℤ → α}
    {least beyond : ℤ}
    (hread : ∀ n, read n = if least ≤ n ∧ n < beyond then some (make n) else none)
    (hmake : ∀ n, least ≤ n → n < beyond → value (make n) = n)
    (hvalue : ∀ x, read (value x) = some x) : ReadsRange read value least beyond where
  eq_some_iff := by
    intro n x
    constructor
    · intro h
      rw [hread] at h
      split at h
      · next hn => rw [← Option.some.inj h, hmake n hn.1 hn.2]
      · cases h
    · rintro rfl
      exact hvalue x
  isSome_iff := by
    intro n
    rw [hread]
    split
    · next hn => exact iff_of_true rfl hn
    · next hn => exact iff_of_false Bool.false_ne_true hn

/-- Integers of 32 bits are read in their range. -/
theorem readsRange_int32 : ReadsRange int32? Int32.toInt (-2 ^ 31) (2 ^ 31) :=
  readsRange_of_eq (fun _ => rfl) (fun _ => Int32.toInt_ofInt_of_le) int32?_toInt

theorem readsRange_int64 : ReadsRange int64? Int64.toInt (-2 ^ 63) (2 ^ 63) :=
  readsRange_of_eq (fun _ => rfl) (fun _ => Int64.toInt_ofInt_of_le) int64?_toInt

/-- A reader of natural numbers. -/
theorem readsRange_of_natural {α : Type} {read : ℤ → Option α} {value : α → ℕ} {make : ℕ → α}
    {beyond : ℤ}
    (hread : ∀ n, read n = if 0 ≤ n ∧ n < beyond then some (make n.toNat) else none)
    (hmake : ∀ n : ℕ, (n : ℤ) < beyond → value (make n) = n)
    (hvalue : ∀ x, read (value x) = some x) :
    ReadsRange read (fun x => (value x : ℤ)) 0 beyond := by
  refine readsRange_of_eq hread ?_ hvalue
  intro n hlow hhigh
  have hn := Int.toNat_of_nonneg hlow
  rw [hmake n.toNat (hn.symm ▸ hhigh), hn]

/-- Natural numbers of 32 bits are read in their range. -/
theorem readsRange_uint32 : ReadsRange uint32? (fun x => (x.toNat : ℤ)) 0 (2 ^ 32) :=
  readsRange_of_natural (fun _ => rfl)
    (fun _ hn => UInt32.toNat_ofNat_of_lt (Int.ofNat_lt.1 hn)) uint32?_toNat

theorem readsRange_uint64 : ReadsRange uint64? (fun x => (x.toNat : ℤ)) 0 (2 ^ 64) :=
  readsRange_of_natural (fun _ => rfl)
    (fun _ hn => UInt64.toNat_ofNat_of_lt (Int.ofNat_lt.1 hn)) uint64?_toNat

/-- Bytes are read in their range. -/
theorem readsRange_byte : ReadsRange byte? (fun x => (x.toNat : ℤ)) 0 (2 ^ 8) :=
  readsRange_of_natural (fun _ => rfl)
    (fun _ hn => UInt8.toNat_ofNat_of_lt (Int.ofNat_lt.1 hn)) byte?_toNat

namespace ReadsRange

variable {α : Type} {read : ℤ → Option α} {value : α → ℤ} {least beyond : ℤ}

/-- The integers of the range are those that have a value. -/
theorem exists_value_eq_iff (h : ReadsRange read value least beyond) {n : ℤ} :
    (∃ x, value x = n) ↔ least ≤ n ∧ n < beyond := by
  rw [← h.isSome_iff, Option.isSome_iff_exists]
  exact exists_congr fun x => (h.eq_some_iff n x).symm

/-- Lists of integers in the range are those that have values. -/
theorem exists_map_value_eq_iff (h : ReadsRange read value least beyond) {is : List ℤ} :
    (∃ xs : List α, xs.map value = is) ↔ ∀ i ∈ is, least ≤ i ∧ i < beyond := by
  simp only [← h.exists_value_eq_iff]
  exact Set.ext_iff.1 (Set.range_list_map value) is

/-- What is read is the integer itself. -/
theorem bind_eq_some_iff (h : ReadsRange read value least beyond) {n? : Option ℤ} {x : α} :
    n?.bind read = some x ↔ some (value x) = n? := by
  simp only [Option.bind_eq_some_iff, h.eq_some_iff]
  exact ⟨fun ⟨n, hn, hx⟩ => hx ▸ hn.symm, fun hn => ⟨_, hn.symm, rfl⟩⟩

end ReadsRange

/-! ### Numbers that are no integers -/

/-- A fraction or an exponent makes a number something else than an integer. -/
theorem Json.Number.integer?_eq_none_of_fraction_or_exponent {n : Json.Number}
    (h : n.places ≠ 0 ∨ n.exponent ≠ none) : n.integer? = none := by
  rw [integer?, if_neg]
  rintro ⟨hplaces, hexponent, -⟩
  exact h.elim (absurd hplaces) (absurd hexponent)

/-! ### Scalars -/

namespace Scalar

/-- The range of the integers of a kind: from the first one on and below the second one. -/
def integerRange? : Scalar → Option (ℤ × ℤ)
  | int32 => some (-2 ^ 31, 2 ^ 31)
  | uint32 => some (0, 2 ^ 32)
  | int64 => some (-2 ^ 63, 2 ^ 63)
  | uint64 => some (0, 2 ^ 64)
  | bool => none
  | double => none
  | text => none

variable {s : Scalar} {least beyond : ℤ}

/-- Integers of the kind are read through a reader of its range. -/
theorem exists_readsRange (hs : s.integerRange? = some (least, beyond)) :
    ∃ (read : ℤ → Option s.Carrier) (value : s.Carrier → ℤ), ReadsRange read value least beyond ∧
      (∀ j, s.ofJson? j = j.integer?.bind read) ∧ ∀ x, s.integer? x = some (value x) := by
  cases s with
  | int32 =>
    obtain ⟨rfl, rfl⟩ := Prod.mk.inj (Option.some.inj hs)
    exact ⟨_, _, readsRange_int32, fun _ => rfl, fun _ => rfl⟩
  | uint32 =>
    obtain ⟨rfl, rfl⟩ := Prod.mk.inj (Option.some.inj hs)
    exact ⟨_, _, readsRange_uint32, fun _ => rfl, fun _ => rfl⟩
  | int64 =>
    obtain ⟨rfl, rfl⟩ := Prod.mk.inj (Option.some.inj hs)
    exact ⟨_, _, readsRange_int64, fun _ => rfl, fun _ => rfl⟩
  | uint64 =>
    obtain ⟨rfl, rfl⟩ := Prod.mk.inj (Option.some.inj hs)
    exact ⟨_, _, readsRange_uint64, fun _ => rfl, fun _ => rfl⟩
  | bool | double | text => cases hs

end Scalar

/-! ### Kinds -/

/-- The integer for which a datum stands. A byte is its number. -/
def Datum.integer? : Datum → Option ℤ
  | scalar s x => s.integer? x
  | byte b => some b.toNat

namespace Kind

/-- The range of the integers of a kind, which is that of its elements if it is a sequence. -/
def integerRange? : Kind → Option (ℤ × ℤ)
  | scalar s => s.integerRange?
  | sequence s => s.integerRange?
  | bytes => some (0, 2 ^ 8)

/-- A payload of a kind that consists of the given numbers. -/
inductive Lists : Kind → List Json.Number → Json → Prop
  | scalar (s : Scalar) (n : Json.Number) : Lists (.scalar s) [n] (.number n)
  | sequence (s : Scalar) (ns : List Json.Number) :
    Lists (.sequence s) ns (.array (ns.map .number))
  | bytes (ns : List Json.Number) : Lists .bytes ns (.array (ns.map .number))

end Kind

/-- Items are read one by one, each as the thing of its value. -/
theorem ReadsRange.items?_eq_some_iff {α : Type} {read : ℤ → Option α} {value : α → ℤ}
    {least beyond : ℤ} (h : ReadsRange read value least beyond) {ns : List Json.Number}
    {xs : List α} :
    (Json.array (ns.map .number)).items? (fun j => j.integer?.bind read) = some xs ↔
      xs.map (fun x => some (value x)) = ns.map Json.Number.integer? := by
  rw [Json.items?, mapM_eq_some_iff, List.forall₂_map_left_iff]
  simp only [h.bind_eq_some_iff, ← forall₂_eq_iff, List.forall₂_map_right_iff]
  exact ⟨fun h => h.flip, fun h => h.flip⟩

namespace StoredValue

variable {k : Kind} {least beyond : ℤ} {ns : List Json.Number} {j : Json}

/-- A value is of a kind if it is made from what the kind holds. -/
theorem kind_eq_iff {v : StoredValue} : v.kind = k ↔ ∃ payload, ofPayload k payload = v := by
  constructor
  · rintro rfl
    exact ⟨v.payload, by cases v <;> rfl⟩
  · rintro ⟨payload, rfl⟩
    cases k <;> rfl

/-- A payload that is read from numbers consists of these numbers. -/
theorem payloadOfJson?_eq_some_iff_of_lists (hk : k.integerRange? = some (least, beyond))
    (h : k.Lists ns j) {payload : k.Payload} :
    k.payloadOfJson? j = some payload ↔
      (ofPayload k payload).data.map Datum.integer? = ns.map Json.Number.integer? := by
  cases h with
  | scalar s n =>
    obtain ⟨read, value, hread, hofJson, hinteger⟩ := Scalar.exists_readsRange hk
    change s.ofJson? (.number n) = some payload ↔ [s.integer? payload] = [n.integer?]
    rw [hofJson, hinteger, List.singleton_inj]
    exact hread.bind_eq_some_iff
  | sequence s ns =>
    obtain ⟨read, value, hread, hofJson, hinteger⟩ := Scalar.exists_readsRange hk
    change (Json.array (ns.map .number)).items? s.ofJson? = some payload ↔
      (payload.map (Datum.scalar s)).map Datum.integer? = _
    -- Elements are read like single integers.
    have hitem : s.ofJson? = fun j => j.integer?.bind read := funext hofJson
    have hdatum : Datum.integer? ∘ Datum.scalar s = fun x => some (value x) := funext hinteger
    rw [hitem, hread.items?_eq_some_iff, List.map_map, hdatum]
  | bytes ns =>
    change (Json.array (ns.map .number)).items? (fun j => j.integer?.bind byte?) = some payload ↔
      (payload.map Datum.byte).map Datum.integer? = _
    have hdatum : Datum.integer? ∘ Datum.byte = fun b => some (b.toNat : ℤ) := rfl
    rw [readsRange_byte.items?_eq_some_iff, List.map_map, hdatum]

/-- What is read from numbers under the name of a kind is a value of the kind that consists of these
  numbers. -/
theorem decode?_eq_some_iff_of_lists (hk : k.integerRange? = some (least, beyond))
    (h : k.Lists ns j) {text : String}
    (htext : Json.Written (Json.object [(k.name, j)]).tokens text.toList) {v : StoredValue} :
    decode? text = some v ↔
      v.kind = k ∧ v.data.map Datum.integer? = ns.map Json.Number.integer? := by
  have hread : decode? text = (k.payloadOfJson? j).map (ofPayload k) := by
    rw [decode?, Json.parse?_of_written htext, Option.bind_some, ofJson?, Kind.ofName?_name,
      Option.map_eq_bind]
    rfl
  rw [hread, Option.map_eq_some_iff, kind_eq_iff]
  simp only [payloadOfJson?_eq_some_iff_of_lists hk h]
  constructor
  · rintro ⟨payload, hpayload, rfl⟩
    exact ⟨⟨payload, rfl⟩, hpayload⟩
  · rintro ⟨⟨payload, rfl⟩, hpayload⟩
    exact ⟨payload, hpayload, rfl⟩

/-! ### Values of given integers -/

/-- There is a value of given integers exactly if all of them lie in the range of the kind. -/
theorem exists_integers_iff (hk : k.integerRange? = some (least, beyond)) {is : List ℤ}
    (h : k.Lists (is.map .ofInt) j) :
    (∃ v : StoredValue, v.kind = k ∧ v.data.map Datum.integer? = is.map some) ↔
      ∀ i ∈ is, least ≤ i ∧ i < beyond := by
  -- The values of a kind are those that are made from payloads.
  have hpayload : (∃ v : StoredValue, v.kind = k ∧ v.data.map Datum.integer? = is.map some) ↔
      ∃ payload, (ofPayload k payload).data.map Datum.integer? = is.map some := by
    simp only [kind_eq_iff]
    constructor
    · rintro ⟨_, ⟨payload, rfl⟩, h⟩
      exact ⟨payload, h⟩
    · rintro ⟨payload, h⟩
      exact ⟨_, ⟨payload, rfl⟩, h⟩
  rw [hpayload]
  generalize hns : is.map Json.Number.ofInt = ns at h
  cases h with
  | scalar s n =>
    obtain ⟨read, value, hread, -, hinteger⟩ := Scalar.exists_readsRange hk
    obtain ⟨i, rfl, -⟩ := List.map_eq_singleton_iff.1 hns
    rw [List.forall_mem_singleton, ← hread.exists_value_eq_iff]
    refine exists_congr fun x => ?_
    change [s.integer? x] = [some i] ↔ _
    rw [hinteger, List.singleton_inj, Option.some.injEq]
  | sequence s ns =>
    obtain ⟨read, value, hread, -, hinteger⟩ := Scalar.exists_readsRange hk
    rw [← hread.exists_map_value_eq_iff]
    refine exists_congr fun xs => ?_
    have hdatum : Datum.integer? ∘ Datum.scalar s = some ∘ value := funext hinteger
    change (xs.map (Datum.scalar s)).map Datum.integer? = is.map some ↔ _
    rw [List.map_map, hdatum, ← List.map_map, (Option.some_injective ℤ).list_map.eq_iff]
  | bytes ns =>
    obtain ⟨rfl, rfl⟩ := Prod.mk.inj (Option.some.inj hk)
    rw [← readsRange_byte.exists_map_value_eq_iff]
    refine exists_congr fun bs => ?_
    have hdatum : Datum.integer? ∘ Datum.byte = some ∘ fun b => (b.toNat : ℤ) := rfl
    change (bs.map Datum.byte).map Datum.integer? = is.map some ↔ _
    rw [List.map_map, hdatum, ← List.map_map, (Option.some_injective ℤ).list_map.eq_iff]

/-- The data of a value of an integer kind are integers. -/
theorem integer?_ne_none_of_mem_data {v : StoredValue}
    (hk : v.kind.integerRange? = some (least, beyond)) : ∀ d ∈ v.data, d.integer? ≠ none := by
  have hscalar {s : Scalar} (hs : s.integerRange? = some (least, beyond)) (x : s.Carrier) :
      (Datum.scalar s x).integer? ≠ none := by
    obtain ⟨-, value, -, -, hinteger⟩ := Scalar.exists_readsRange hs
    exact Option.ne_none_iff_exists'.2 ⟨value x, hinteger x⟩
  cases v with
  | scalar s x => exact List.forall_mem_singleton.2 (hscalar hk x)
  | sequence s xs => exact List.forall_mem_map.2 fun x _ => hscalar hk x
  | bytes bs => exact List.forall_mem_map.2 fun b _ => Option.some_ne_none _

/-! ### Main statement -/

/-- Integers in decimal under the name of a kind of integers, or of a kind of sequences of them, are
  read exactly if all of them lie in the range of the kind, and what is read is a value of the kind
  that consists of these integers in their order. A number with a fraction or an exponent spoils the
  text, whatever its value. An integer has one spelling in decimal, a fraction shows by its point
  and an exponent by its mark. -/
theorem decode?_integers_exact :
    (∀ (k : Kind) (least beyond : ℤ), k.integerRange? = some (least, beyond) →
      ∀ (is : List ℤ) (j : Json) (text : String), k.Lists (is.map .ofInt) j →
        Json.Written (Json.object [(k.name, j)]).tokens text.toList →
          (∀ v, decode? text = some v ↔
            v.kind = k ∧ v.data.map Datum.integer? = is.map some) ∧
          ((decode? text).isSome ↔ ∀ i ∈ is, least ≤ i ∧ i < beyond)) ∧
    (∀ (k : Kind) (least beyond : ℤ), k.integerRange? = some (least, beyond) →
      ∀ (ns : List Json.Number) (j : Json) (text : String), k.Lists ns j →
        Json.Written (Json.object [(k.name, j)]).tokens text.toList →
          (∃ n ∈ ns, n.places ≠ 0 ∨ n.exponent ≠ none) → decode? text = none) ∧
    (∀ (spelled : List Char) (i : ℤ), Json.Number.ofSpelling? spelled = some (.ofInt i) ↔
      spelled = Decimal.integer i) ∧
    ∀ (spelled : List Char) (n : Json.Number), Json.Number.ofSpelling? spelled = some n →
      (n.places ≠ 0 ↔ '.' ∈ spelled) ∧ (n.exponent ≠ none ↔ 'e' ∈ spelled ∨ 'E' ∈ spelled) := by
  refine ⟨?_, ?_, fun _ _ => Json.Number.ofSpelling?_eq_some_ofInt_iff, ?_⟩
  · -- Integers in decimal.
    intro k least beyond hk is j text hj htext
    have hintegers : (is.map Json.Number.ofInt).map Json.Number.integer? = is.map some := by
      rw [List.map_map]
      exact List.map_congr_left fun i _ => Json.Number.integer?_ofInt i
    have hread {v : StoredValue} : decode? text = some v ↔
        v.kind = k ∧ v.data.map Datum.integer? = is.map some := by
      rw [decode?_eq_some_iff_of_lists hk hj htext, hintegers]
    refine ⟨fun v => hread, ?_⟩
    rw [Option.isSome_iff_exists, ← exists_integers_iff hk hj]
    exact exists_congr fun v => hread
  · -- A fraction or an exponent among the numbers.
    rintro k least beyond hk ns j text hj htext ⟨n, hn, hwritten⟩
    rw [Option.eq_none_iff_forall_ne_some]
    intro v hv
    obtain ⟨rfl, hdata⟩ := (decode?_eq_some_iff_of_lists hk hj htext).1 hv
    -- The number is no integer, but every datum is one.
    have hnone := List.mem_map_of_mem (f := Json.Number.integer?) hn
    rw [Json.Number.integer?_eq_none_of_fraction_or_exponent hwritten, ← hdata] at hnone
    obtain ⟨d, hd, hinteger⟩ := List.mem_map.1 hnone
    exact integer?_ne_none_of_mem_data hk d hd hinteger
  · intro spelled n h
    exact ⟨Json.Number.places_ne_zero_iff h, Json.Number.exponent_ne_none_iff h⟩

/-- The least and the greatest byte are read in their order. The least number above the range of
  its kind is not read, and neither is a hundred with an exponent. -/
theorem decode?_integers_exact_at_limits :
    decode? "\x7b\"ByteArray\":[0,255]\x7d" = some (bytes [0, 255]) ∧
    decode? "\x7b\"UInt\":4294967296\x7d" = none ∧
    decode? "\x7b\"Int64\":1E2\x7d" = none := by
  obtain ⟨hintegers, hnumbers, -⟩ := decode?_integers_exact
  have hbytes : "\x7b\"ByteArray\":[0,255]\x7d" = (Json.object [(Kind.bytes.name,
      .array [.number (.ofInt 0), .number (.ofInt 255)])]).render := by decide +kernel
  have huint : "\x7b\"UInt\":4294967296\x7d" = (Json.object [((Kind.scalar .uint32).name,
      .number (.ofInt 4294967296))]).render := by decide +kernel
  have hexponent : Json.Written
      [.openBrace, .string "Int64", .colon, .number ⟨false, 1, 0, some 2⟩, .closeBrace]
      ([] ++ (_ ++ ([] ++ (_ ++ ([] ++ (_ ++ ([] ++ (['1', 'E', '2'] ++ ([] ++ (_ ++ [])))))))))) :=
    .cons (List.forall_mem_nil _) (Json.Token.spells_spelling _)
      (.cons (List.forall_mem_nil _) (Json.Token.spells_spelling _)
        (.cons (List.forall_mem_nil _) (Json.Token.spells_spelling _)
          (.cons (List.forall_mem_nil _) (.number (by decide))
            (.cons (List.forall_mem_nil _) (Json.Token.spells_spelling _)
              (.nil (List.forall_mem_nil _))))))
  refine ⟨?_, ?_, ?_⟩
  · rw [hbytes]
    exact ((hintegers .bytes 0 (2 ^ 8) rfl [0, 255] _ _ (.bytes _)
      (Json.written_render _)).1 _).2 ⟨rfl, rfl⟩
  · rw [huint, ← Option.not_isSome_iff_eq_none]
    rw [(hintegers (.scalar .uint32) 0 (2 ^ 32) rfl [4294967296] _ _ (.scalar _ _)
      (Json.written_render _)).2]
    decide
  · exact hnumbers (.scalar .int64) (-2 ^ 63) (2 ^ 63) rfl [⟨false, 1, 0, some 2⟩] _ _
      (.scalar _ _) hexponent ⟨_, List.mem_cons_self, Or.inr (by decide)⟩

end StoredValue

end Telemetry
