import Mathlib.Data.List.TakeWhile
import Telemetry.Fingerprint
import Telemetry.Proofs.Map.Writes
import Telemetry.Proofs.Text.Utf8
/-!
# Raw text beside plain text

Raw text that holds the octets of a text says the same as the text. Octets around them are decoded
apart from them, and nothing behind the first zero octet counts.
-/

namespace Telemetry

open Utf8 (encode decode)

/-! ### Buffers -/

namespace RawText

/-- A buffer without a zero byte is taken as a whole. -/
theorem bytes_ofBytes_of_not_mem {buffer : List UInt8} (h : 0 ∉ buffer) :
    (ofBytes buffer).bytes = buffer := by
  apply List.takeWhile_eq_self_iff.2
  intro b hb
  exact decide_eq_true fun hzero => h (hzero ▸ hb)

/-- Nothing behind the first zero octet counts. -/
theorem ofBytes_append_zero (buffer tail : List UInt8) :
    ofBytes (buffer ++ 0 :: tail) = ofBytes buffer := by
  have hbytes : (buffer ++ 0 :: tail).takeWhile (· ≠ 0) = buffer.takeWhile (· ≠ 0) := by
    induction buffer with
    | nil => rfl
    | cons b buffer ih => rw [List.cons_append, List.takeWhile_cons, List.takeWhile_cons, ih]
  exact (RawText.mk.injEq ..).mpr hbytes

/-- A buffer without a zero byte is decoded as a whole. -/
theorem decoded_ofBytes_of_not_mem {buffer : List UInt8} (h : 0 ∉ buffer) :
    (ofBytes buffer).decoded = String.ofList (decode buffer) := by
  rw [decoded, bytes_ofBytes_of_not_mem h]

/-- A text without the zero character is read from its octets. -/
theorem decoded_ofBytes_encode {s : String} (h : '\x00' ∉ s.toList) :
    (ofBytes (encode s.toList)).decoded = s := by
  rw [decoded_ofBytes_of_not_mem (Utf8.zero_not_mem_encode h), ← List.append_nil (encode s.toList),
    Utf8.decode_encode_append]
  simp [decode, Utf8.decodeFrom, Utf8.State.finish]

end RawText

/-! ### Values that are stored alike -/

/-- A value that is stored first and rendered then has the text of the recorded value. -/
theorem RecordedValue.text_store (v : RecordedValue) : v.store.text = v.text := by
  cases v with
  | scalar s x => rfl
  | rawText r =>
    rw [store, StoredValue.text, StoredValue.spelling, Scalar.spelling, RawText.decoded,
      String.toList_ofList, text, spelling]
  | sequence s xs => rfl
  | bytes bs => rfl

variable {v w : RecordedValue}

/-- Recorded values that are stored alike have one text. -/
theorem RecordedValue.text_eq_of_store_eq (h : v.store = w.store) : v.text = w.text := by
  rw [← v.text_store, ← w.text_store, h]

/-- Maps hold recorded values as they are stored. -/
theorem MapKind.hold_eq_of_store_eq (h : v.store = w.store) (k : MapKind) :
    k.hold v = k.hold w := by
  cases k with
  | text => exact RecordedValue.text_eq_of_store_eq h
  | unordered | ordered => exact h

namespace Source

variable {source other : Source} {before after : List Pair} {key : String}

/-- Sources that differ in values which are stored alike fill the same map. -/
theorem value_ofSource_eq_of_store_eq (hstore : v.store = w.store)
    (hsource : source.pairs = before ++ (key, v) :: after)
    (hother : other.pairs = before ++ (key, w) :: after) (k : MapKind) :
    (AttributeMap.ofSource source : Traced (AttributeMap k)).value =
      (AttributeMap.ofSource other).value := by
  simp only [AttributeMap.value_ofSource, hsource, hother, List.map_append, List.map_cons,
    AttributeMap.writeOf, MapKind.hold_eq_of_store_eq hstore]

variable {σ : Type}

/-- A visitor that does not tell two pairs apart ends in one state with either of them. -/
theorem visitAll_append_cons_congr {visit : σ → Pair → σ × Bool} {p q : Pair}
    (h : ∀ state, visit state p = visit state q) (before after : List Pair) (state : σ) :
    visitAll visit state (before ++ p :: after) = visitAll visit state (before ++ q :: after) := by
  induction before generalizing state with
  | nil => simp only [List.nil_append, visitAll, h]
  | cons d before ih => simp only [List.cons_append, visitAll, ih]

/-- A fingerprint knows recorded values as they are stored. -/
theorem fingerprint_eq_of_store_eq (hstore : v.store = w.store)
    (hsource : source.pairs = before ++ (key, v) :: after)
    (hother : other.pairs = before ++ (key, w) :: after) (accepts : σ → String → σ × Bool)
    (state : σ) : source.fingerprint accepts state = other.fingerprint accepts state := by
  have hvisit (f : Filtering σ) :
      foldAccepted accepts f (key, v) = foldAccepted accepts f (key, w) := by
    simp only [foldAccepted, hstore]
  simp only [fingerprint, traverse, hsource, hother,
    visitAll_append_cons_congr hvisit before after]

end Source

namespace RawText

/-- Raw text around a text is decoded apart from it, and what stands behind a zero octet does not
  count. Raw text that holds the octets of a text and nothing else is stored, rendered, written into
  maps of every kind and folded into every fingerprint as the text is. -/
theorem decoded_around_text {before after : List UInt8} (hbefore : 0 ∉ before) (hafter : 0 ∉ after)
    {s : String} (hs : s ≠ "") (hzero : '\x00' ∉ s.toList) :
    (ofBytes (before ++ (encode s.toList ++ after))).decoded =
      (ofBytes before).decoded ++ (s ++ (ofBytes after).decoded) ∧
    (∀ buffer tail, ofBytes (buffer ++ 0 :: tail) = ofBytes buffer) ∧
    let raw : RecordedValue := .rawText (ofBytes (encode s.toList))
    let plain : RecordedValue := .scalar .text s
    raw.store = plain.store ∧ raw.text = plain.text ∧
    (∀ (k : MapKind) (m : AttributeMap k) (key : String),
      AttributeMap.set m key raw = AttributeMap.set m key plain) ∧
    (∀ seed, raw.store.foldInto seed = plain.store.foldInto seed) ∧
    ∀ (source other : Source) (earlier later : List Pair) (key : String),
      source.pairs = earlier ++ (key, raw) :: later →
      other.pairs = earlier ++ (key, plain) :: later →
      (∀ k : MapKind, (AttributeMap.ofSource source : Traced (AttributeMap k)).value =
        (AttributeMap.ofSource other).value) ∧
      ∀ (σ : Type) (accepts : σ → String → σ × Bool) (state : σ),
        source.fingerprint accepts state = other.fingerprint accepts state := by
  refine ⟨?_, ofBytes_append_zero, ?_⟩
  · -- Damage around the text.
    have hne : s.toList ≠ [] := fun h => hs (String.toList_eq_nil_iff.1 h)
    have hall : 0 ∉ before ++ (encode s.toList ++ after) := by
      simp [hbefore, hafter, Utf8.zero_not_mem_encode hzero]
    rw [decoded_ofBytes_of_not_mem hall, decoded_ofBytes_of_not_mem hbefore,
      decoded_ofBytes_of_not_mem hafter, Utf8.decode_append_encode_append before after hne]
    simp [String.ofList_append]
  · -- The text alone is stored as it is, and everything else follows from what is stored.
    intro raw plain
    have hdecoded := decoded_ofBytes_encode hzero
    have hstore : raw.store = plain.store := congrArg (StoredValue.scalar .text) hdecoded
    refine ⟨hstore, RecordedValue.text_eq_of_store_eq hstore, ?_, ?_, ?_⟩
    · intro k m key
      rw [AttributeMap.set, AttributeMap.set, MapKind.hold_eq_of_store_eq hstore]
    · intro seed
      rw [hstore]
    · intro source other earlier later key hsource hother
      refine ⟨Source.value_ofSource_eq_of_store_eq hstore hsource hother, ?_⟩
      intro σ accepts state
      exact Source.fingerprint_eq_of_store_eq hstore hsource hother accepts state

/-- A text between a sequence that breaks off and a continuation without a lead. -/
theorem decoded_around_text_of_truncated :
    0 ∉ ([0xf0, 0x9f, 0x98] : List UInt8) ∧ 0 ∉ ([0x80] : List UInt8) ∧ "é" ≠ "" ∧
      '\x00' ∉ "é".toList ∧
      (ofBytes ([0xf0, 0x9f, 0x98] ++ (encode "é".toList ++ [0x80]))).decoded =
        "\ufffdé\ufffd" ∧
      (RecordedValue.rawText (ofBytes (encode "é".toList))).store = .scalar .text "é" := by
  have hbefore : 0 ∉ ([0xf0, 0x9f, 0x98] : List UInt8) := by decide
  have hafter : 0 ∉ ([0x80] : List UInt8) := by decide
  have hs : "é" ≠ "" := by decide
  have hzero : '\x00' ∉ "é".toList := by decide
  obtain ⟨hdecoded, -, hstore, -⟩ := decoded_around_text hbefore hafter hs hzero
  exact ⟨hbefore, hafter, hs, hzero, hdecoded.trans (by decide +kernel), hstore⟩

end RawText

end Telemetry
