import Telemetry.Proofs.Value.Equality
import Telemetry.Value.Recorded
/-!
# Equality before and after storing

Storing keeps equal values equal, and makes values equal that were not only where raw text is
decoded: a raw text is stored as the text that it is decoded to, so it meets plain texts and other
raw texts there. Before and after, values are compared as numbers are: the comparison is symmetric
and transitive, and what holds a NaN does not equal itself.
-/

namespace Telemetry

/-- A comparison that is symmetric and transitive, and by which all but what holds a NaN equals
  itself. -/
structure ComparesAsNumbers {α : Type} (same : α → α → Bool) (doubles : α → List Binary64) :
    Prop where
  comm : ∀ a b, same a b = same b a
  trans : ∀ a b c, same a b = true → same b c = true → same a c = true
  self_iff : ∀ a, same a a = true ↔ ∀ x ∈ doubles a, ¬ x.IsNaN

/-! ### Stored values -/

namespace StoredValue

variable {v w : StoredValue} {t : String}

/-- Stored values are compared as numbers are. -/
theorem comparesAsNumbers : ComparesAsNumbers same doubles where
  comm v w := by
    rw [Bool.eq_iff_iff, same_iff, same_iff]
    exact ⟨Equal.symm, Equal.symm⟩
  trans u v w huv hvw := same_iff.2 ((same_iff.1 huv).trans (same_iff.1 hvw))
  self_iff v := same_iff.trans equal_self_iff

/-- Equal values are of one kind. -/
theorem kind_eq_of_same (h : v.same w = true) : v.kind = w.kind :=
  (same_iff.1 h).1

/-- A text equals nothing but itself. -/
theorem text_same_iff : (scalar .text t).same w = true ↔ w = scalar .text t := by
  constructor
  · intro h
    refine ((same_iff.1 h).eq_of_not_oppositeZeros ?_).symm
    rintro i d e hd - ⟨x, y, rfl, -⟩
    cases List.mem_singleton.1 (List.mem_of_getElem? hd)
  · rintro rfl
    exact (comparesAsNumbers.self_iff _).2 (List.forall_mem_nil _)

end StoredValue

/-! ### Recorded values -/

namespace RecordedValue

variable {a b : RecordedValue} {t : String}

/-- Raw text. -/
def IsRaw : RecordedValue → Prop
  | rawText _ => True
  | _ => False

/-- The text of a value that is a text, decoded if it is raw. -/
def decoded? : RecordedValue → Option String
  | scalar .text t => some t
  | rawText r => some r.decoded
  | _ => none

/-- The text that a value is stored as is held by the stored value. -/
theorem decoded?_eq_some_iff : a.decoded? = some t ↔ a.store = .scalar .text t := by
  cases a with
  | scalar s x => cases s <;> simp [decoded?, store]
  | rawText r => simp [decoded?, store]
  | sequence | bytes => simp [decoded?, store]

/-- Raw text equals nothing but itself. -/
theorem same_iff_eq_of_isRaw (h : a.IsRaw ∨ b.IsRaw) : a.same b = true ↔ a = b := by
  cases a with
  | rawText r =>
    cases b with
    | rawText q => simp [same]
    | scalar | sequence | bytes => simp [same]
  | scalar | sequence | bytes =>
    cases b with
    | rawText q => simp [same]
    | scalar | sequence | bytes => exact absurd h (by simp [IsRaw])

/-- Values other than raw text are compared as the values that are stored for them. -/
theorem same_eq_of_not_isRaw (ha : ¬ a.IsRaw) (hb : ¬ b.IsRaw) :
    a.same b = a.store.same b.store := by
  rw [Bool.eq_iff_iff, StoredValue.same_iff, StoredValue.Equal]
  cases a with
  | rawText r => exact absurd trivial ha
  | scalar s x =>
    cases b with
    | rawText q => exact absurd trivial hb
    | scalar t y =>
      rw [same, Datum.same_iff]
      constructor
      · intro h
        refine ⟨?_, .cons h .nil⟩
        cases h with
        | double | scalar => rfl
      · rintro ⟨-, h⟩
        cases h with
        | cons h => exact h
    | sequence | bytes => simp [same, store, StoredValue.kind]
  | sequence s xs =>
    cases b with
    | rawText q => exact absurd trivial hb
    | sequence t ys => simp [same, store, StoredValue.kind, StoredValue.data, Datum.sameAll_iff]
    | scalar | bytes => simp [same, store, StoredValue.kind]
  | bytes as =>
    cases b with
    | rawText q => exact absurd trivial hb
    | bytes bs =>
      have hbyte (c d : UInt8) : Datum.Equal (.byte c) (.byte d) ↔ c = d := by
        constructor
        · intro h
          cases h
          rfl
        · rintro rfl
          exact .byte c
      simp [same, store, StoredValue.kind, StoredValue.data, hbyte]
    | scalar | sequence => simp [same, store, StoredValue.kind]

/-- Values that are decoded to one text are stored as equal values. -/
theorem store_same_of_decoded? (ha : a.decoded? = some t) (hb : b.decoded? = some t) :
    a.store.same b.store = true := by
  rw [decoded?_eq_some_iff.1 ha, decoded?_eq_some_iff.1 hb]
  exact StoredValue.text_same_iff.2 rfl

/-- Raw text is stored as a text. -/
theorem IsRaw.exists_decoded? (h : a.IsRaw) : ∃ t, a.decoded? = some t := by
  cases a with
  | rawText r => exact ⟨r.decoded, rfl⟩
  | scalar | sequence | bytes => exact absurd h (by simp [IsRaw])

/-- Where a raw text is among them, values are stored as equal ones if they are decoded to one
  text. -/
theorem store_same_iff_of_isRaw (h : a.IsRaw ∨ b.IsRaw) :
    a.store.same b.store = true ↔ ∃ t, a.decoded? = some t ∧ b.decoded? = some t := by
  have hleft {a b : RecordedValue} (ha : a.IsRaw) (hsame : a.store.same b.store = true) :
      ∃ t, a.decoded? = some t ∧ b.decoded? = some t := by
    obtain ⟨t, ht⟩ := ha.exists_decoded?
    rw [decoded?_eq_some_iff.1 ht, StoredValue.text_same_iff] at hsame
    exact ⟨t, ht, decoded?_eq_some_iff.2 hsame⟩
  constructor
  · intro hsame
    rcases h with ha | hb
    · exact hleft ha hsame
    · rw [StoredValue.comparesAsNumbers.comm] at hsame
      obtain ⟨t, hbt, hat⟩ := hleft hb hsame
      exact ⟨t, hat, hbt⟩
  · rintro ⟨t, hat, hbt⟩
    exact store_same_of_decoded? hat hbt

/-- Recorded values are equal if they are stored as equal values, where raw text has to be the
  same. -/
theorem same_iff :
    a.same b = true ↔ a.store.same b.store = true ∧ (a.IsRaw ∨ b.IsRaw → a = b) := by
  by_cases h : a.IsRaw ∨ b.IsRaw
  · rw [same_iff_eq_of_isRaw h]
    constructor
    · rintro rfl
      obtain ⟨t, ht⟩ := (or_self_iff.1 h).exists_decoded?
      exact ⟨store_same_of_decoded? ht ht, fun _ => rfl⟩
    · exact fun hboth => hboth.2 h
  · obtain ⟨ha, hb⟩ := not_or.1 h
    rw [same_eq_of_not_isRaw ha hb]
    exact (and_iff_left fun hraw => absurd hraw h).symm

/-- Values are stored as equal ones exactly if they are equal or if they are texts, one of them raw
  at least, that are decoded alike. -/
theorem store_same_iff :
    a.store.same b.store = true ↔
      a.same b = true ∨
        (a.IsRaw ∨ b.IsRaw) ∧ ∃ t, a.decoded? = some t ∧ b.decoded? = some t := by
  by_cases h : a.IsRaw ∨ b.IsRaw
  · rw [and_iff_right h, ← store_same_iff_of_isRaw h]
    exact (or_iff_right_of_imp fun hsame => (same_iff.1 hsame).1).symm
  · obtain ⟨ha, hb⟩ := not_or.1 h
    rw [same_eq_of_not_isRaw ha hb]
    exact (or_iff_left fun hraw => h hraw.1).symm

/-- Recorded values are compared as numbers are. -/
theorem comparesAsNumbers : ComparesAsNumbers same fun v => v.store.doubles where
  comm a b := by
    rw [Bool.eq_iff_iff, same_iff, same_iff, StoredValue.comparesAsNumbers.comm, or_comm,
      eq_comm (a := a)]
  trans a b c hab hbc := by
    obtain ⟨hstore, hraw⟩ := same_iff.1 hab
    obtain ⟨hstore', hraw'⟩ := same_iff.1 hbc
    refine same_iff.2 ⟨StoredValue.comparesAsNumbers.trans _ _ _ hstore hstore', ?_⟩
    rintro (ha | hc)
    · obtain rfl := hraw (Or.inl ha)
      exact hraw' (Or.inl ha)
    · obtain rfl := hraw' (Or.inr hc)
      exact hraw (Or.inr hc)
  self_iff a := by
    rw [same_iff, and_iff_left fun _ => rfl]
    exact StoredValue.comparesAsNumbers.self_iff a.store

/-- Equal values are of one kind and both raw or both not. -/
theorem form_eq_of_same (h : a.same b = true) :
    a.store.kind = b.store.kind ∧ (a.IsRaw ↔ b.IsRaw) := by
  obtain ⟨hstore, hraw⟩ := same_iff.1 h
  refine ⟨StoredValue.kind_eq_of_same hstore, fun ha => ?_, fun hb => ?_⟩
  · exact hraw (Or.inl ha) ▸ ha
  · exact hraw (Or.inr hb) ▸ hb

/-! ### Main statement -/

/-- Two recorded values are stored as equal ones exactly if they are equal or if they are texts, one
  of them raw at least, that are decoded alike. So equal values stay equal, and neither before nor
  after storing are there equal values of different kinds. In both forms the comparison is symmetric
  and transitive, and a value equals itself exactly if it holds no NaN. -/
theorem storing_reflects_equality :
    (∀ a b : RecordedValue, a.store.same b.store = true ↔
      a.same b = true ∨
        (a.IsRaw ∨ b.IsRaw) ∧ ∃ t, a.decoded? = some t ∧ b.decoded? = some t) ∧
    (∀ a b : RecordedValue, a.same b = true → a.store.same b.store = true) ∧
    (∀ a b : RecordedValue, a.store.kind ≠ b.store.kind ∨ ¬ (a.IsRaw ↔ b.IsRaw) →
      a.same b = false) ∧
    (∀ v w : StoredValue, v.kind ≠ w.kind → v.same w = false) ∧
    ComparesAsNumbers same (fun v => v.store.doubles) ∧
    ComparesAsNumbers StoredValue.same StoredValue.doubles := by
  refine ⟨fun _ _ => store_same_iff, fun _ _ h => (same_iff.1 h).1, ?_, ?_, comparesAsNumbers,
    StoredValue.comparesAsNumbers⟩
  · intro a b hform
    rw [← Bool.not_eq_true]
    intro h
    obtain ⟨hkind, hraw⟩ := form_eq_of_same h
    exact hform.elim (fun hne => hne hkind) fun hne => hne hraw
  · intro v w hkind
    rw [← Bool.not_eq_true]
    exact fun h => hkind (StoredValue.kind_eq_of_same h)

/-- Raw texts with different octets that are decoded alike, the two zeros in sequences, values of two
  kinds that hold one number, and one text in both forms. -/
theorem storing_reflects_equality_of_small_values :
    let zeros : RecordedValue := sequence .double [.ofBits 0]
    let minus : RecordedValue := sequence .double [.ofBits 0x8000000000000000]
    let raw : RecordedValue := rawText (.ofBytes [0x61])
    (rawText (.ofBytes [0xff])).store.same (rawText (.ofBytes [0x80])).store = true ∧
      zeros.same minus = true ∧ zeros.store.same minus.store = true ∧
      Kind.scalar .int32 ≠ Kind.scalar .int64 ∧
      StoredValue.same (.scalar .int32 1) (.scalar .int64 1) = false ∧
      ¬ (raw.IsRaw ↔ (scalar .text "a").IsRaw) ∧ raw.same (scalar .text "a") = false := by
  intro zeros minus raw
  obtain ⟨hiff, hstore, hform, hkind, -, -⟩ := storing_reflects_equality
  have hsame : zeros.same minus = true := by decide +kernel
  have hkinds : Kind.scalar .int32 ≠ Kind.scalar .int64 := by decide
  have hraw : ¬ (raw.IsRaw ↔ (scalar .text "a").IsRaw) := fun h => h.1 trivial
  have hdecoded : ∃ t, (rawText (.ofBytes [0xff])).decoded? = some t ∧
      (rawText (.ofBytes [0x80])).decoded? = some t :=
    ⟨"\ufffd", by decide +kernel, by decide +kernel⟩
  exact ⟨(hiff _ _).2 (Or.inr ⟨Or.inl trivial, hdecoded⟩), hsame, hstore zeros minus hsame, hkinds,
    hkind _ _ hkinds, hraw, hform _ _ (Or.inr hraw)⟩

end RecordedValue

end Telemetry
