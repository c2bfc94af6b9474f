import Telemetry.Proofs.Map.RoundTrip
import Telemetry.Proofs.Value.Equality
import Telemetry.Proofs.Workspace.Ledger
/-!
# Equal maps

Maps are compared entry by entry in their order. What is decided in this way has nothing to do with
order: the maps have the same keys, and equal values under every key. Equal maps are the same but
for the signs of zeros, and these signs are all that their fingerprints and their texts can show.
-/

namespace Telemetry

/-! ### Entries related in order -/

namespace SortedMap

variable {α β : Type}

/-- The order of the keys is determined by the set of them. -/
theorem keys_eq_of_mem_iff {m : SortedMap α} {n : SortedMap β}
    (h : ∀ key, key ∈ m.keys ↔ key ∈ n.keys) : m.keys = n.keys := by
  -- Without their values the two maps answer alike.
  have hunit : m.mapValues (fun _ => ()) = n.mapValues (fun _ => ()) := by
    apply eq_of_get?_eq
    intro key
    have hkey := h key
    rw [mem_keys_iff, mem_keys_iff] at hkey
    rw [get?_mapValues, get?_mapValues]
    cases hm : m.get? key <;> cases hn : n.get? key <;> simp [hm, hn] at hkey ⊢
  rw [← m.keys_mapValues fun _ => (), hunit, keys_mapValues]

/-- Under the key of an entry stands its value. -/
theorem get?_getElem (m : SortedMap α) {i : Nat} (hi : i < m.entries.length) :
    m.get? m.entries[i].1 = some m.entries[i].2 :=
  (m.mem_entries_iff _ _).1 (List.getElem_mem hi)

/-- Entries are related one by one exactly when the keys are the same and so are the values under
  every key. -/
theorem forall₂_entries_iff {m : SortedMap α} {n : SortedMap β} {R : α → β → Prop} :
    List.Forall₂ (fun d e => d.1 = e.1 ∧ R d.2 e.2) m.entries n.entries ↔
      (∀ key, key ∈ m.keys ↔ key ∈ n.keys) ∧
        ∀ key a b, m.get? key = some a → n.get? key = some b → R a b := by
  constructor
  · intro h
    have hkeys : m.keys = n.keys := by
      rw [keys, keys, ← List.forall₂_eq_eq_eq, List.forall₂_map_left_iff,
        List.forall₂_map_right_iff]
      exact h.imp fun _ _ hde => hde.1
    refine ⟨fun key => by rw [hkeys], fun key a b ha hb => ?_⟩
    obtain ⟨i, hi, hget⟩ := List.mem_iff_getElem.1 ((m.mem_entries_iff key a).2 ha)
    have hj : i < n.entries.length := h.length_eq ▸ hi
    obtain ⟨hkey, hR⟩ : m.entries[i].1 = n.entries[i].1 ∧ R m.entries[i].2 n.entries[i].2 :=
      (List.forall₂_iff_get.1 h).2 i hi hj
    rw [hget] at hkey hR
    -- The entry of the other map at this place is the one under the key.
    have hentry := n.get?_getElem hj
    rw [← hkey, hb] at hentry
    rwa [Option.some.inj hentry]
  · rintro ⟨hmem, hvalues⟩
    -- Both lists have their keys in the same places.
    have hkeys := keys_eq_of_mem_iff hmem
    have hlength : m.entries.length = n.entries.length := by
      simpa [keys] using congrArg List.length hkeys
    refine List.forall₂_iff_get.2 ⟨hlength, fun i hi hj => ?_⟩
    have hkey : m.entries[i].1 = n.entries[i].1 := by
      simpa [keys, hi, hj] using congrArg (·[i]?) hkeys
    have hm := m.get?_getElem hi
    rw [hkey] at hm
    exact ⟨hkey, hvalues _ _ _ hm (n.get?_getElem hj)⟩

end SortedMap

/-! ### Equality of maps -/

namespace AttributeMap

variable {k : MapKind} {m n : AttributeMap k}

/-- What is folded for an entry determines what is held. -/
theorem heldValue_injective (k : MapKind) : Function.Injective (heldValue k) := by
  intro a b h
  cases k with
  | text => cases h; rfl
  | unordered | ordered => exact h

/-- What is folded for an entry has the doubles of what is held. -/
theorem doubles_heldValue (held : k.Held) : (heldValue k held).doubles = k.doubles held := by
  cases k <;> rfl

/-- The comparison of what is held decides equality of the values. -/
theorem sameHeld_iff {a b : k.Held} :
    k.sameHeld a b = true ↔ (heldValue k a).Equal (heldValue k b) := by
  rw [← StoredValue.same_iff]
  cases k with
  | text =>
    simp [MapKind.sameHeld, heldValue, StoredValue.same, StoredValue.kind, StoredValue.data,
      Datum.sameAll, Datum.same, Scalar.same]
  | unordered | ordered => exact Iff.rfl

/-- The comparison of entries decides equality of keys and of values, one entry after another. -/
theorem sameEntries_iff {entries others : List (String × k.Held)} :
    sameEntries entries others = true ↔
      List.Forall₂ (fun d e => d.1 = e.1 ∧ (heldValue k d.2).Equal (heldValue k e.2))
        entries others := by
  induction entries generalizing others with
  | nil => cases others <;> simp [sameEntries]
  | cons d entries ih => cases others <;> simp [sameEntries, sameHeld_iff, ih]

/-- The comparison of maps does not depend on the order of their entries. -/
theorem same_iff :
    m.same n = true ↔ (∀ key, key ∈ m.keys ↔ key ∈ n.keys) ∧
      ∀ key a b, m.get? key = some a → n.get? key = some b →
        (heldValue k a).Equal (heldValue k b) := by
  rw [same, sameEntries_iff]
  exact SortedMap.forall₂_entries_iff (R := fun a b => (heldValue k a).Equal (heldValue k b))

/-- A map equals itself unless it holds a NaN. -/
theorem same_self_iff : m.same m = true ↔ ∀ x ∈ m.doubles, ¬ x.IsNaN := by
  rw [same, sameEntries_iff, List.forall₂_same, forall_mem_doubles]
  refine forall₂_congr fun e _ => ?_
  rw [and_iff_right rfl, StoredValue.equal_self_iff, doubles_heldValue]

/-! ### Zeros of opposite signs -/

/-- The datum at a position of the value under a key. -/
def datumAt? (m : AttributeMap k) (key : String) (i : Nat) : Option Datum :=
  (m.get? key).bind fun held => (heldValue k held).data[i]?

/-- A position at which one map holds a zero and the other one the zero with the other sign. -/
def OppositeZerosAt (m n : AttributeMap k) (key : String) (i : Nat) : Prop :=
  ∃ d e, m.datumAt? key i = some d ∧ n.datumAt? key i = some e ∧ Datum.OppositeZeros d e

/-- Equal maps have equal data at each position. -/
theorem equal_of_datumAt? (h : m.same n = true) {key : String} {i : Nat} {d e : Datum}
    (hd : m.datumAt? key i = some d) (he : n.datumAt? key i = some e) : d.Equal e := by
  obtain ⟨a, ha, hd⟩ := Option.bind_eq_some_iff.1 hd
  obtain ⟨b, hb, he⟩ := Option.bind_eq_some_iff.1 he
  exact ((same_iff.1 h).2 key a b ha hb).getElem? hd he

/-- Equal maps without zeros of opposite signs are the same map. -/
theorem eq_of_same (h : m.same n = true) (hzeros : ∀ key i, ¬ OppositeZerosAt m n key i) :
    m = n := by
  obtain ⟨hkeys, hvalues⟩ := same_iff.1 h
  apply SortedMap.eq_of_get?_eq
  intro key
  have hkey := hkeys key
  rw [SortedMap.mem_keys_iff, SortedMap.mem_keys_iff] at hkey
  cases hm : m.get? key with
  | none =>
    rw [hm, Option.isSome_none] at hkey
    exact (Option.not_isSome_iff_eq_none.1 fun hn => Bool.false_ne_true (hkey.2 hn)).symm
  | some a =>
    rw [hm] at hkey
    obtain ⟨b, hn⟩ := Option.isSome_iff_exists.1 (hkey.1 rfl)
    have heq : heldValue k a = heldValue k b := by
      refine (hvalues key a b hm hn).eq_of_not_oppositeZeros fun i d e hd he hopposite => ?_
      exact hzeros key i ⟨d, e, by rw [datumAt?, hm]; exact hd, by rw [datumAt?, hn]; exact he,
        hopposite⟩
    rw [hn, heldValue_injective k heq]

/-- Maps that hold the two zeros at a position hold a zero. -/
theorem OppositeZerosAt.exists_isZero {key : String} {i : Nat} (h : OppositeZerosAt m n key i) :
    ∃ x ∈ m.doubles, x.IsZero := by
  obtain ⟨d, e, hd, -, x, y, rfl, -, hx, -⟩ := h
  obtain ⟨a, ha, hd⟩ := Option.bind_eq_some_iff.1 hd
  refine ⟨x, List.mem_flatMap.2 ⟨(key, a), (m.mem_entries_iff key a).2 ha, ?_⟩, hx⟩
  rw [← doubles_heldValue]
  exact StoredValue.mem_doubles_iff.2 (List.mem_of_getElem? hd)

/-- Among the positions of equal maps those with the two zeros are the ones where different bytes
  are hashed. -/
theorem oppositeZerosAt_iff_hashedBytes_ne (h : m.same n = true) (key : String) (i : Nat) :
    OppositeZerosAt m n key i ↔
      ∃ d e, m.datumAt? key i = some d ∧ n.datumAt? key i = some e ∧
        d.hashedBytes ≠ e.hashedBytes := by
  refine exists₂_congr fun d e => and_congr_right fun hd => and_congr_right fun he => ?_
  exact (equal_of_datumAt? h hd he).hashedBytes_ne_iff.symm

end AttributeMap

/-! ### Main statement -/

namespace Workspace

open AttributeMap

/-- A copy is compared with the original like the original with itself. -/
theorem compare_perform_clone {k : MapKind} (w : Workspace k) (r target : Register) :
    ((w.perform r (.clone target)).value.2.perform r (.compare target)).value.1 =
      .answer ((w.get r).same (w.get r)) := by
  obtain ⟨htarget, hr⟩ := w.get_perform_clone r target
  exact congrArg₂ (fun m n => Result.answer (AttributeMap.same m n)) hr htarget

/-- The comparison of maps. Two maps are equal exactly when they have the same keys and equal
  values under every key, doubles being compared as numbers, and a map equals its copy exactly when
  it holds no NaN. Two equal ordered maps have the same fingerprint and the same text unless there
  is a position with a zero in one of them and the zero of the other sign in the other one, and
  exactly at such positions different bytes are hashed. -/
theorem same_up_to_zero_signs (k : MapKind) :
    (∀ m n : AttributeMap k, m.same n = true ↔
      (∀ key, key ∈ m.keys ↔ key ∈ n.keys) ∧
        ∀ key a b, m.get? key = some a → n.get? key = some b →
          (heldValue k a).Equal (heldValue k b)) ∧
    (∀ (w : Workspace k) r target,
      ((w.perform r (.clone target)).value.2.perform r (.compare target)).value.1 = .answer true ↔
        ∀ x ∈ (w.get r).doubles, ¬ x.IsNaN) ∧
    ∀ m n : AttributeMap .ordered, m.same n = true →
      ((∀ key i, ¬ OppositeZerosAt m n key i) →
        m.fingerprint = n.fingerprint ∧ m.encode = n.encode) ∧
      ∀ key i, OppositeZerosAt m n key i ↔
        ∃ d e, m.datumAt? key i = some d ∧ n.datumAt? key i = some e ∧
          d.hashedBytes ≠ e.hashedBytes := by
  refine ⟨fun _ _ => same_iff, ?_, ?_⟩
  · intro w r target
    rw [compare_perform_clone, Result.answer.injEq, same_self_iff]
  · intro m n h
    refine ⟨fun hzeros => ?_, oppositeZerosAt_iff_hashedBytes_ne h⟩
    rw [eq_of_same h hzeros]
    exact ⟨rfl, rfl⟩

/-- A sequence whose first double is a zero of either sign, two entries that are written in either
  order, and a sequence that ends with a NaN. -/
theorem same_up_to_zero_signs_of_small_maps :
    (let m : AttributeMap .ordered := collect [("a", .sequence .double [.ofBits 0, .ofBits 1])]
    let n : AttributeMap .ordered :=
      collect [("a", .sequence .double [.ofBits 0x8000000000000000, .ofBits 1])]
    m.same n = true ∧ OppositeZerosAt m n "a" 0 ∧
      ∃ d e, m.datumAt? "a" 0 = some d ∧ n.datumAt? "a" 0 = some e ∧
        d.hashedBytes ≠ e.hashedBytes) ∧
    (let m : AttributeMap .ordered :=
      collect [("a", .scalar .double (.ofBits 1)), ("b", .scalar .text "c")]
    let n : AttributeMap .ordered :=
      collect [("b", .scalar .text "c"), ("a", .scalar .double (.ofBits 1))]
    m.same n = true ∧ m.fingerprint = n.fingerprint ∧ m.encode = n.encode) ∧
    let w : Workspace .unordered := empty.after
      [(0, .set "a" (.sequence .double [.ofBits 1, .ofBits 0x7ff8000000000000]))]
    ((w.perform 0 (.clone 1)).value.2.perform 0 (.compare 1)).value.1 ≠ .answer true := by
  refine ⟨?_, ?_, ?_⟩
  · intro m n
    have hsame : m.same n = true := by decide +kernel
    have hzeros : OppositeZerosAt m n "a" 0 :=
      ⟨.scalar .double (.ofBits 0), .scalar .double (.ofBits 0x8000000000000000),
        by decide +kernel, by decide +kernel, _, _, rfl, rfl, by decide, by decide, by decide⟩
    exact ⟨hsame, hzeros, (((same_up_to_zero_signs .ordered).2.2 m n hsame).2 "a" 0).1 hzeros⟩
  · intro m n
    have hsame : m.same n = true := by decide +kernel
    have hdoubles : ¬ ∃ x ∈ m.doubles, x.IsZero := by decide +kernel
    exact ⟨hsame, ((same_up_to_zero_signs .ordered).2.2 m n hsame).1 fun key i hzeros =>
      hdoubles hzeros.exists_isZero⟩
  · intro w hsame
    have hdoubles := ((same_up_to_zero_signs .unordered).2.1 w 0 1).1 hsame
    exact hdoubles (.ofBits 0x7ff8000000000000) (by decide +kernel) (by decide)

end Workspace

end Telemetry
