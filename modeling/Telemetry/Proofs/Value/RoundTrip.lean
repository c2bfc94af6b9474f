import Mathlib.Data.List.Basic
import Telemetry.Proofs.Json.Double
import Telemetry.Proofs.Json.RoundTrip
import Telemetry.Value.Json
/-!
# Stored values are read as they are written

A value is read from its own text exactly when all of its doubles are finite. It comes back with
its kind, its order and its count, and with every datum as it was, except that each double is the
one that is read from its own number.
-/

namespace Telemetry

open Binary64 (reread)

/-! ### Integers -/

/-- An integer is read from its own number. -/
theorem Json.Number.integer?_ofInt (n : Int) : (Json.Number.ofInt n).integer? = some n := by
  rw [ofInt, integer?, if_pos ⟨rfl, rfl, by simp only [decide_eq_true_eq]; omega⟩]
  simp only [decide_eq_true_eq, Option.some.injEq]
  split <;> omega

/-- An integer is read from the document of its own number. -/
theorem Json.integer?_ofInt (n : Int) : (Json.number (.ofInt n)).integer? = some n :=
  Json.Number.integer?_ofInt n

/-- An integer of 32 bits is in range. -/
theorem int32?_toInt (n : Int32) : int32? n.toInt = some n := by
  rw [int32?, if_pos ⟨n.le_toInt, n.toInt_lt⟩, Int32.ofInt_toInt]

theorem uint32?_toNat (n : UInt32) : uint32? n.toNat = some n := by
  have h := n.toNat_lt
  rw [uint32?, if_pos (by omega), Int.toNat_natCast, UInt32.ofNat_toNat]

theorem int64?_toInt (n : Int64) : int64? n.toInt = some n := by
  rw [int64?, if_pos ⟨n.le_toInt, n.toInt_lt⟩, Int64.ofInt_toInt]

theorem uint64?_toNat (n : UInt64) : uint64? n.toNat = some n := by
  have h := n.toNat_lt
  rw [uint64?, if_pos (by omega), Int.toNat_natCast, UInt64.ofNat_toNat]

theorem byte?_toNat (n : UInt8) : byte? n.toNat = some n := by
  have h := n.toNat_lt
  rw [byte?, if_pos (by omega), Int.toNat_natCast, UInt8.ofNat_toNat]

/-! ### Items -/

/-- Reading a list reads each of its elements. -/
theorem mapM_eq_some_iff {α β : Type} {read : α → Option β} {xs : List α} {ys : List β} :
    xs.mapM read = some ys ↔ List.Forall₂ (fun x y => read x = some y) xs ys := by
  -- The elements are read from the left, and the first one that is not read stops everything.
  induction xs generalizing ys with
  | nil =>
    rw [List.mapM_nil, List.forall₂_nil_left_iff]
    exact ⟨fun h => (Option.some.inj h).symm, fun h => congrArg some h.symm⟩
  | cons x xs ih =>
    rw [List.mapM_cons]
    constructor
    · intro h
      obtain ⟨y, hy, h⟩ := Option.bind_eq_some_iff.1 h
      obtain ⟨zs, hzs, h⟩ := Option.bind_eq_some_iff.1 h
      rw [← Option.some.inj h]
      exact .cons hy (ih.1 hzs)
    · intro h
      cases h with
      | cons hy hzs =>
        rw [hy, ih.2 hzs]
        rfl

/-- Elements that are mapped to others one by one make up the mapped list. -/
theorem forall₂_eq_iff {α β : Type} {f : α → β} {xs : List α} {ys : List β} :
    List.Forall₂ (fun x y => f x = y) xs ys ↔ xs.map f = ys := by
  rw [← List.forall₂_map_left_iff (R := Eq), List.forall₂_eq_eq_eq]

/-! ### Doubles -/

namespace Scalar

/-- The double of a scalar, if it is one. -/
def doubles : (s : Scalar) → s.Carrier → List Binary64
  | double, x => [x]
  | bool, _ => []
  | int32, _ => []
  | uint32, _ => []
  | int64, _ => []
  | uint64, _ => []
  | text, _ => []

/-- The single value with another double in its place, if it is one. -/
def mapDouble (f : Binary64 → Binary64) : (s : Scalar) → s.Carrier → s.Carrier
  | double, x => f x
  | bool, b => b
  | int32, n => n
  | uint32, n => n
  | int64, n => n
  | uint64, n => n
  | text, t => t

/-- A scalar stays what it is if its double does. -/
theorem mapDouble_eq_self_iff {f : Binary64 → Binary64} (s : Scalar) (x : s.Carrier) :
    s.mapDouble f x = x ↔ ∀ y ∈ s.doubles x, f y = y := by
  cases s with
  | double => exact (List.forall_mem_singleton (p := fun y => f y = y)).symm
  | bool | int32 | uint32 | int64 | uint64 | text =>
    exact iff_of_true rfl (List.forall_mem_nil _)

/-- A scalar is read from its document with its double read again. -/
theorem ofJson?_toJson_of_isFinite {s : Scalar} {x : s.Carrier}
    (h : ∀ y ∈ s.doubles x, y.IsFinite) :
    s.ofJson? (s.toJson x) = some (s.mapDouble reread x) := by
  cases s with
  | bool | text => rfl
  | int32 =>
    change (Json.number (.ofInt x.toInt)).integer?.bind int32? = some x
    rw [Json.integer?_ofInt, Option.bind_some, int32?_toInt]
  | uint32 =>
    change (Json.number (.ofInt x.toNat)).integer?.bind uint32? = some x
    rw [Json.integer?_ofInt, Option.bind_some, uint32?_toNat]
  | int64 =>
    change (Json.number (.ofInt x.toInt)).integer?.bind int64? = some x
    rw [Json.integer?_ofInt, Option.bind_some, int64?_toInt]
  | uint64 =>
    change (Json.number (.ofInt x.toNat)).integer?.bind uint64? = some x
    rw [Json.integer?_ofInt, Option.bind_some, uint64?_toNat]
  | double =>
    have hx : Binary64.IsFinite x := h x (List.mem_singleton_self x)
    rw [toJson, if_pos hx, ofJson?, Json.number?, Option.bind_some]
    exact Json.Number.double?_ofDouble hx

/-- An infinity or a NaN is not read back. -/
theorem ofJson?_toJson_of_not_isFinite {s : Scalar} {x : s.Carrier}
    (h : ¬ ∀ y ∈ s.doubles x, y.IsFinite) : s.ofJson? (s.toJson x) = none := by
  cases s with
  | bool | int32 | uint32 | int64 | uint64 | text => exact absurd (List.forall_mem_nil _) h
  | double =>
    have hx : ¬ Binary64.IsFinite x := fun hx => h (List.forall_mem_singleton.2 hx)
    rw [toJson, if_neg hx]
    rfl

/-- A scalar is read from its document if its double is finite. -/
theorem ofJson?_toJson_eq_some_iff {s : Scalar} {x y : s.Carrier} :
    s.ofJson? (s.toJson x) = some y ↔
      (∀ d ∈ s.doubles x, d.IsFinite) ∧ s.mapDouble reread x = y := by
  by_cases h : ∀ d ∈ s.doubles x, d.IsFinite
  · rw [ofJson?_toJson_of_isFinite h, Option.some.injEq]
    exact ⟨fun hy => ⟨h, hy⟩, fun hy => hy.2⟩
  · rw [ofJson?_toJson_of_not_isFinite h]
    exact ⟨fun hy => (Option.some_ne_none _ hy.symm).elim, fun hy => absurd hy.1 h⟩

/-- Whatever is read as a scalar holds a finite double, if it holds one. -/
theorem isFinite_of_ofJson? {s : Scalar} {j : Json} {x : s.Carrier} (h : s.ofJson? j = some x) :
    ∀ y ∈ s.doubles x, y.IsFinite := by
  cases s with
  | bool | int32 | uint32 | int64 | uint64 | text => exact List.forall_mem_nil _
  | double =>
    obtain ⟨n, -, hn⟩ := Option.bind_eq_some_iff.1 h
    exact List.forall_mem_singleton.2 (Json.Number.isFinite_of_double? hn)

end Scalar

namespace StoredValue

/-- The doubles of a value in order. -/
def doubles : StoredValue → List Binary64
  | scalar s x => s.doubles x
  | sequence s xs => xs.flatMap s.doubles
  | bytes _ => []

/-- The value with other doubles in their places. Everything else stays as it is. -/
def mapDoubles (f : Binary64 → Binary64) : StoredValue → StoredValue
  | scalar s x => scalar s (s.mapDouble f x)
  | sequence s xs => sequence s (xs.map (s.mapDouble f))
  | bytes bs => bytes bs

/-- The doubles of a sequence are those of its elements. -/
theorem forall_mem_doubles_sequence {p : Binary64 → Prop} {s : Scalar} {xs : List s.Carrier} :
    (∀ y ∈ (sequence s xs).doubles, p y) ↔ ∀ x ∈ xs, ∀ y ∈ s.doubles x, p y := by
  simp only [doubles, List.mem_flatMap]
  exact ⟨fun h x hx y hy => h y ⟨x, hx, hy⟩, fun h y ⟨x, hx, hy⟩ => h x hx y hy⟩

/-- A value stays what it is if all of its doubles do. -/
theorem mapDoubles_eq_self_iff {f : Binary64 → Binary64} (v : StoredValue) :
    v.mapDoubles f = v ↔ ∀ y ∈ v.doubles, f y = y := by
  cases v with
  | scalar s x =>
    rw [mapDoubles, StoredValue.scalar.injEq, doubles, ← Scalar.mapDouble_eq_self_iff]
    exact ⟨fun h => eq_of_heq h.2, fun h => ⟨rfl, heq_of_eq h⟩⟩
  | sequence s xs =>
    rw [forall_mem_doubles_sequence, mapDoubles, StoredValue.sequence.injEq]
    simp only [heq_eq_eq, true_and, ← Scalar.mapDouble_eq_self_iff]
    have h := List.map_inj_left (l := xs) (f := s.mapDouble f) (g := id)
    rwa [List.map_id] at h
  | bytes bs => exact iff_of_true rfl (List.forall_mem_nil _)

end StoredValue

/-! ### Documents -/

/-- A kind is known by its name. -/
theorem Kind.ofName?_name (k : Kind) : Kind.ofName? k.name = some k := by
  cases k with
  | scalar s => cases s <;> decide +kernel
  | sequence s => cases s <;> decide +kernel
  | bytes => decide +kernel

namespace StoredValue

/-- A value is read from its document as its kind reads what it holds. -/
theorem ofJson?_toJson (v : StoredValue) :
    ofJson? v.toJson =
      (v.kind.payloadOfJson? (v.kind.payloadToJson v.payload)).map (ofPayload v.kind) := by
  rw [toJson, ofJson?, Kind.ofName?_name]
  change (v.kind.payloadOfJson? _).bind _ = _
  rw [Option.map_eq_bind]
  rfl

/-- A value is read from its document if all of its doubles are finite, with each of them read
  again. -/
theorem ofJson?_toJson_eq_some_iff {v w : StoredValue} :
    ofJson? v.toJson = some w ↔
      (∀ x ∈ v.doubles, x.IsFinite) ∧ v.mapDoubles reread = w := by
  rw [ofJson?_toJson, Option.map_eq_some_iff]
  cases v with
  | scalar s x =>
    change (∃ y, s.ofJson? (s.toJson x) = some y ∧ scalar s y = w) ↔ _
    simp only [Scalar.ofJson?_toJson_eq_some_iff]
    exact ⟨fun ⟨y, ⟨hx, hy⟩, hw⟩ => ⟨hx, by rw [mapDoubles, hy, hw]⟩,
      fun ⟨hx, hw⟩ => ⟨_, ⟨hx, rfl⟩, hw⟩⟩
  | sequence s xs =>
    change (∃ ys, (xs.map s.toJson).mapM s.ofJson? = some ys ∧ sequence s ys = w) ↔ _
    simp only [mapM_eq_some_iff, List.forall₂_map_left_iff, Scalar.ofJson?_toJson_eq_some_iff,
      List.forall₂_and_left, forall₂_eq_iff, forall_mem_doubles_sequence]
    exact ⟨fun ⟨_, ⟨hx, hys⟩, hw⟩ => ⟨hx, by rw [mapDoubles, hys, hw]⟩,
      fun ⟨hx, hw⟩ => ⟨_, ⟨hx, rfl⟩, hw⟩⟩
  | bytes bs =>
    change (∃ ys, (bs.map fun b => Json.number (.ofInt b.toNat)).mapM
      (fun i => i.integer?.bind byte?) = some ys ∧ bytes ys = w) ↔ _
    simp only [mapM_eq_some_iff, List.forall₂_map_left_iff, Json.integer?_ofInt, Option.bind_some,
      byte?_toNat, Option.some.injEq, List.forall₂_eq_eq_eq]
    exact ⟨fun ⟨_, hys, hw⟩ => ⟨List.forall_mem_nil _, by rw [mapDoubles, hys, hw]⟩,
      fun ⟨_, hw⟩ => ⟨_, rfl, hw⟩⟩

/-- Whatever is read as a value holds finite doubles only. -/
theorem isFinite_of_ofJson? {j : Json} {v : StoredValue} (h : ofJson? j = some v) :
    ∀ x ∈ v.doubles, x.IsFinite := by
  unfold ofJson? at h
  split at h
  · next name document =>
    obtain ⟨k, -, h⟩ := Option.bind_eq_some_iff.1 h
    obtain ⟨payload, hpayload, h⟩ := Option.bind_eq_some_iff.1 h
    rw [← Option.some.inj h]
    cases k with
    | scalar s => exact Scalar.isFinite_of_ofJson? hpayload
    | sequence s =>
      rw [ofPayload, forall_mem_doubles_sequence]
      rw [Kind.payloadOfJson?, Json.items?.eq_def] at hpayload
      split at hpayload
      · next items =>
        have hread := (mapM_eq_some_iff.1 hpayload).flip.imp fun y i hi =>
          And.intro (Scalar.isFinite_of_ofJson? hi) trivial
        exact ((List.forall₂_and_left (R := fun _ _ => True) _ _).1 hread).1
      · cases hpayload
    | bytes => exact List.forall_mem_nil _
  · cases h

/-! ### Texts -/

/-- A value is read from its text if all of its doubles are finite, with each of them read again. -/
theorem decode?_encode_eq_some_iff {v w : StoredValue} :
    decode? v.encode = some w ↔ (∀ x ∈ v.doubles, x.IsFinite) ∧ v.mapDoubles reread = w := by
  rw [decode?, encode, Json.parse?_render, Option.bind_some, ofJson?_toJson_eq_some_iff]

/-- Whatever is read from a text holds finite doubles only. -/
theorem isFinite_of_decode? {text : String} {v : StoredValue} (h : decode? text = some v) :
    ∀ x ∈ v.doubles, x.IsFinite := by
  obtain ⟨j, -, hj⟩ := Option.bind_eq_some_iff.1 h
  exact isFinite_of_ofJson? hj

/-- Writing and reading a value. It is read exactly when all of its doubles are finite, and then
  each double is replaced by the one that is read from its own number. A double is the nearest one
  to that number, and it is read near to where it is written. Whatever is read can be written and
  read again. -/
theorem decode?_encode_rereads_doubles :
    (∀ v w : StoredValue, decode? v.encode = some w ↔
      (∀ x ∈ v.doubles, x.IsFinite) ∧ w = v.mapDoubles Binary64.reread) ∧
    (∀ v : StoredValue, decode? v.encode = some v ↔
      ∀ x ∈ v.doubles, x.IsFinite ∧ x.reread = x) ∧
    (∀ x : Binary64, x.IsFinite →
      Binary64.nearest? x.negative x.written = some x ∧ x.ReadsNear x.reread) ∧
    ∀ (text : String) (v : StoredValue), decode? text = some v →
      (∀ x ∈ v.doubles, x.IsFinite) ∧
        decode? v.encode = some (v.mapDoubles Binary64.reread) := by
  refine ⟨?_, ?_, ?_, ?_⟩
  · -- What is read.
    intro v w
    rw [decode?_encode_eq_some_iff, eq_comm (a := w)]
  · -- When it is the value itself: the doubles have to stay as they are.
    intro v
    rw [decode?_encode_eq_some_iff, mapDoubles_eq_self_iff]
    constructor
    · intro h x hx
      exact ⟨h.1 x hx, h.2 x hx⟩
    · intro h
      exact ⟨fun x hx => (h x hx).1, fun x hx => (h x hx).2⟩
  · -- How near a double is read.
    intro x hx
    exact ⟨Binary64.nearest?_written hx, Binary64.readsNear_reread hx⟩
  · -- What has been read once.
    intro text v h
    have hfinite := isFinite_of_decode? h
    exact ⟨hfinite, decode?_encode_eq_some_iff.2 ⟨hfinite, rfl⟩⟩

/-- The least double, minus zero and a tenth come back, and so does what is read next. -/
theorem decode?_encode_of_short_doubles :
    decode? (sequence .double
      [.ofBits 1, .ofBits 0x8000000000000000, .ofBits 0x3fb999999999999a]).encode =
        some (sequence .double
          [.ofBits 1, .ofBits 0x8000000000000000, .ofBits 0x3fb999999999999a]) ∧
    (Binary64.ofBits 1).ReadsNear (Binary64.ofBits 1).reread ∧
    decode? "\x7b\"Double\":-0\x7d" = some (scalar .double (.ofBits 0x8000000000000000)) ∧
    decode? (scalar .double (.ofBits 0x8000000000000000)).encode =
      some (scalar .double (Binary64.ofBits 0x8000000000000000).reread) :=
  have htext : decode? "\x7b\"Double\":-0\x7d" =
      some (scalar .double (.ofBits 0x8000000000000000)) := by decide +kernel
  ⟨(decode?_encode_rereads_doubles.2.1 _).2 (by decide +kernel),
    (decode?_encode_rereads_doubles.2.2.1 _ (by decide)).2, htext,
    (decode?_encode_rereads_doubles.2.2.2 _ _ htext).2⟩

/-- The greatest integer below `2 ^ 53` is read exactly and written with a zero behind it. With
  this digit it is rounded to an even neighbour of ten times the integer, and the quotient is the
  double below. -/
theorem decode?_encode_ne_self :
    ∃ v : StoredValue, (∀ x ∈ v.doubles, x.IsFinite) ∧
      decode? "\x7b\"Double\":9007199254740991\x7d" = some v ∧ decode? v.encode ≠ some v ∧
      decode? v.encode = some (scalar .double (.ofBits 0x433ffffffffffffe)) :=
  ⟨scalar .double (.ofBits 0x433fffffffffffff), by decide +kernel⟩

end StoredValue

end Telemetry
