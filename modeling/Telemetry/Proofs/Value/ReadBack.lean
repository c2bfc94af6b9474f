import Telemetry.Value.Recorded
/-!
# Reading stored values back

A stored value is read back under one of the fifteen kinds and is refused under all others. What is
read is what was recorded, with raw text decoded, and a refusal names both kinds.
-/

namespace Telemetry

/-! ### Kinds -/

namespace Kind

theorem length_all : all.length = 15 := rfl

theorem nodup_all : all.Nodup := by decide

/-- There are no kinds but the fifteen. -/
theorem mem_all (k : Kind) : k ∈ all := by
  cases k with
  | scalar s | sequence s => cases s <;> decide
  | bytes => decide

/-- Every kind is one of the fifteen. -/
theorem filter_all (k : Kind) : all.filter (fun target => decide (target = k)) = [k] := by
  cases k with
  | scalar s | sequence s => cases s <;> rfl
  | bytes => rfl

end Kind

/-! ### Stored values -/

namespace StoredValue

variable {v : StoredValue} {k : Kind}

/-- A value is made from its kind and what it holds. -/
theorem ofPayload_payload (v : StoredValue) : ofPayload v.kind v.payload = v := by
  cases v <;> rfl

/-- What is made for a kind is of the kind. -/
theorem kind_ofPayload (k : Kind) (x : k.Payload) : (ofPayload k x).kind = k := by
  cases k <;> rfl

/-- A value is read as the payload that it is made of. -/
theorem read_eq_ok_iff {x : k.Payload} : v.read k = .ok x ↔ ofPayload k x = v := by
  constructor
  · intro h
    by_cases hkind : v.kind = k
    · subst hkind
      rw [read, dif_pos rfl] at h
      rw [← Except.ok.inj h, ofPayload_payload]
    · rw [read, dif_neg hkind] at h
      cases h
  · rintro rfl
    rw [read, dif_pos (kind_ofPayload k x)]
    cases k <;> rfl

/-- A value is refused under every kind but its own. -/
theorem read_eq_error_iff {e : TypeMismatch} :
    v.read k = .error e ↔ v.kind ≠ k ∧ e = ⟨k, v.kind⟩ := by
  by_cases hkind : v.kind = k
  · rw [read, dif_pos hkind]
    exact iff_of_false (fun h => by cases h) fun h => h.1 hkind
  · rw [read, dif_neg hkind, Except.error.injEq, eq_comm]
    exact (and_iff_right hkind).symm

/-- Reading succeeds under the kind of the value only. -/
theorem isOk_read (v : StoredValue) (k : Kind) : (v.read k).isOk = decide (k = v.kind) := by
  by_cases hkind : v.kind = k
  · rw [read, dif_pos hkind]
    exact (decide_eq_true hkind.symm).symm
  · rw [read, dif_neg hkind]
    exact (decide_eq_false fun h => hkind h.symm).symm

/-- A value is read under one kind. -/
theorem filter_isOk_read (v : StoredValue) :
    Kind.all.filter (fun k => (v.read k).isOk) = [v.kind] := by
  simp only [isOk_read, Kind.filter_all]

end StoredValue

/-! ### Recorded values -/

namespace RecordedValue

variable {v : RecordedValue} {k : Kind}

/-- What a recorded value holds, and under which kind: its own data, or the text that raw text is
  decoded to. -/
inductive Holds : RecordedValue → (k : Kind) → k.Payload → Prop where
  | scalar (s : Scalar) (x : s.Carrier) : Holds (scalar s x) (.scalar s) x
  | rawText (r : RawText) : Holds (rawText r) (.scalar .text) r.decoded
  | sequence (s : Scalar) (xs : List s.Carrier) : Holds (sequence s xs) (.sequence s) xs
  | bytes (bs : List UInt8) : Holds (bytes bs) .bytes bs

/-- The recorded values that are sequences. -/
def IsSlice : RecordedValue → Prop
  | sequence .. => True
  | bytes _ => True
  | _ => False

/-- A recorded value holds what it is stored as. -/
theorem holds_payload_store (v : RecordedValue) : v.Holds v.store.kind v.store.payload := by
  cases v with
  | scalar s x => exact .scalar s x
  | rawText r => exact .rawText r
  | sequence s xs => exact .sequence s xs
  | bytes bs => exact .bytes bs

/-- What a value holds makes up the value that is stored for it. -/
theorem ofPayload_eq_store_iff {x : k.Payload} :
    StoredValue.ofPayload k x = v.store ↔ v.Holds k x := by
  constructor
  · intro h
    have hkind : v.store.kind = k := by rw [← h, StoredValue.kind_ofPayload]
    subst hkind
    have hpayload : v.store.read v.store.kind = .ok x := StoredValue.read_eq_ok_iff.2 h
    rw [StoredValue.read, dif_pos rfl] at hpayload
    rw [← Except.ok.inj hpayload]
    exact v.holds_payload_store
  · intro h
    cases h <;> rfl

/-- A recorded value holds something under the kind of the stored value only. -/
theorem exists_holds_iff : (∃ x, v.Holds k x) ↔ v.store.kind = k := by
  constructor
  · rintro ⟨x, h⟩
    rw [← ofPayload_eq_store_iff.2 h, StoredValue.kind_ofPayload]
  · rintro rfl
    exact ⟨_, v.holds_payload_store⟩

/-- Stored sequences come from recorded ones. -/
theorem isSequence_store_iff : v.store.isSequence = true ↔ v.IsSlice := by
  cases v with
  | scalar | rawText => exact iff_of_false Bool.false_ne_true id
  | sequence | bytes => exact iff_of_true rfl trivial

/-! ### Main statement -/

/-- A recorded value is read back from the stored value under one of the fifteen kinds, as what it
  holds. Under every other kind it is refused with that kind as the expected one and with its own as
  the one that was found. The stored value is a sequence exactly if the recorded one is. -/
theorem read_store_iff_holds :
    (Kind.all.length = 15 ∧ Kind.all.Nodup ∧ ∀ k, k ∈ Kind.all) ∧
    ∀ v : RecordedValue,
      (∃ k x, v.Holds k x ∧ Kind.all.filter (fun target => (v.store.read target).isOk) = [k]) ∧
      (∀ k x, v.store.read k = .ok x ↔ v.Holds k x) ∧
      (∀ k e, v.store.read k = .error e ↔
        e.expected = k ∧ (∃ x, v.Holds e.found x) ∧ e.expected ≠ e.found) ∧
      (v.store.isSequence = true ↔ v.IsSlice) := by
  refine ⟨⟨Kind.length_all, Kind.nodup_all, Kind.mem_all⟩, fun v => ⟨?_, ?_, ?_, ?_⟩⟩
  · -- The one target.
    exact ⟨_, _, v.holds_payload_store, v.store.filter_isOk_read⟩
  · -- What is read there.
    intro k x
    rw [StoredValue.read_eq_ok_iff, ofPayload_eq_store_iff]
  · -- The errors elsewhere.
    rintro k ⟨expected, found⟩
    rw [StoredValue.read_eq_error_iff, exists_holds_iff, TypeMismatch.mk.injEq]
    constructor
    · rintro ⟨hne, rfl, rfl⟩
      exact ⟨rfl, rfl, hne.symm⟩
    · rintro ⟨rfl, rfl, hne⟩
      exact ⟨hne.symm, rfl, rfl⟩
  · exact isSequence_store_iff

end RecordedValue

end Telemetry
