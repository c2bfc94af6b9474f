import Telemetry.Proofs.Map.Values
import Telemetry.Proofs.Text.Raw
import Telemetry.Proofs.Workspace.Ledger
/-!
# The three kinds of maps in step

One run can be carried out with maps of each kind. What is handed over for recording does not
depend on the kind: a journal keeps it, and the maps of each kind are the map of the journal with
every value converted. So the maps have the same keys, and the text that a text map holds is that
of the stored value which the other two hold.

Reading a JSON text is no part of this, since the texts that maps of different kinds are encoded as
differ.
-/

namespace Telemetry

variable {k : MapKind}

open AttributeMap SortedMap

/-! ### Fingerprints -/

namespace AttributeMap

/-- The fingerprint of entries that are enumerated in the order of the list. -/
def enumeratedFingerprint (entries : List (String × k.Held)) : UInt64 :=
  entries.foldl (fun seed e => Seed.combineEntry seed e.1 (heldValue k e.2)) 0

/-- In their own order, the entries of a map have its fingerprint. -/
theorem enumeratedFingerprint_entries (m : AttributeMap k) :
    enumeratedFingerprint m.entries = m.fingerprint :=
  rfl

/-- One entry at most can be enumerated in one order only. -/
theorem enumeratedFingerprint_of_perm {m : AttributeMap k} (h : m.size ≤ 1)
    {entries : List (String × k.Held)} (hperm : entries.Perm m.entries) :
    enumeratedFingerprint entries = m.fingerprint := by
  have heq : entries = m.entries := by
    rcases Nat.le_one_iff_eq_zero_or_eq_one.1 h with hsize | hsize
    · have hnil : m.entries = [] := List.length_eq_zero_iff.1 hsize
      rw [hnil] at hperm ⊢
      exact hperm.eq_nil
    · obtain ⟨e, he⟩ := List.length_eq_one_iff.1 hsize
      rw [he] at hperm ⊢
      exact hperm.eq_singleton
  rw [heq, enumeratedFingerprint_entries]

end AttributeMap

/-! ### Journals -/

/-- The pairs recorded in every register since its map was last replaced, the latest one last. -/
abbrev Journal := Register → List Pair

namespace Journal

/-- Nothing has been recorded. -/
def empty : Journal := fun _ => []

/-- The journal after an action. Reading a JSON text is not recorded. -/
def record (j : Journal) (r : Register) : Workspace.Action → Journal
  | .new => Function.update j r []
  | .ofSource source => Function.update j r source.pairs
  | .ofOptional none => Function.update j r []
  | .ofOptional (some source) => Function.update j r source.pairs
  | .collect pairs => Function.update j r pairs
  | .extend pairs => Function.update j r (j r ++ pairs)
  | .set key value => Function.update j r (j r ++ [(key, value)])
  | .clone target => Function.update j target (j r)
  | .get _ | .contains _ | .entries | .keys | .encode | .decode _ | .compare _ => j

/-- The journal of a run. -/
def of (steps : List (Register × Workspace.Action)) : Journal :=
  steps.foldl (fun j s => j.record s.1 s.2) empty

/-- The writes into maps of a kind that a journal stands for. -/
def ledger (j : Journal) : Ledger k := fun q => (j q).map writeOf

/-- The ledger of a journal follows each of its changes. -/
theorem ledger_update (j : Journal) (r : Register) (pairs : List Pair) :
    ledger (k := k) (Function.update j r pairs) =
      Function.update j.ledger r (pairs.map writeOf) := by
  funext q
  exact Function.apply_update (fun _ => List.map writeOf) j r pairs q

/-- An action other than reading a text is recorded alike in the journal and in its ledger. -/
theorem ledger_record (j : Journal) (r : Register) {a : Workspace.Action}
    (ha : ∀ text, a ≠ .decode text) : (j.record r a).ledger (k := k) = j.ledger.record r a := by
  have happend (pairs : List Pair) : (j r ++ pairs).map writeOf =
      j.ledger (k := k) r ++ pairs.map writeOf := List.map_append
  cases a with
  | new | ofSource | collect | clone => exact ledger_update j _ _
  | ofOptional source => cases source <;> exact ledger_update j r _
  | extend pairs => rw [record, ledger_update, happend, Ledger.record]
  | set key value =>
    rw [record, ledger_update, happend, Ledger.record]
    rfl
  | decode text => exact absurd rfl (ha text)
  | get | contains | entries | keys | encode | compare => rfl

/-- The journal of a run that reads no text has the ledger of the run. -/
theorem ledger_of {steps : List (Register × Workspace.Action)}
    (h : ∀ s ∈ steps, ∀ text, s.2 ≠ .decode text) :
    (of steps).ledger (k := k) = Ledger.of steps := by
  have hrun (j : Journal) : (steps.foldl (fun j s => j.record s.1 s.2) j).ledger (k := k) =
      steps.foldl (fun l s => l.record s.1 s.2) j.ledger := by
    induction steps generalizing j with
    | nil => rfl
    | cons s rest ih =>
      rw [List.foldl_cons, List.foldl_cons, ih fun s hs => h s (List.mem_cons_of_mem _ hs),
        ledger_record j s.1 (h s List.mem_cons_self)]
  exact hrun empty

end Journal

/-! ### Runs with maps of different kinds -/

namespace Workspace

/-- After a run each register holds the map of its journal with every value converted. -/
theorem after_eq_mapValues {steps : List (Register × Action)}
    (h : ∀ s ∈ steps, ∀ text, s.2 ≠ .decode text) (q : Register) :
    ((empty : Workspace k).after steps).get q =
      (SortedMap.ofList (Journal.of steps q)).mapValues k.hold := by
  rw [after_eq_ofList, ← Journal.ledger_of h, mapValues_ofList]
  rfl

/-- After every run of actions that take recorded values, and thus after every action of a longer
  one, each register holds the same keys with maps of all three kinds. The stored values of both
  kinds are equal and come from the last pair recorded under their key, and the texts are those of
  the stored values and of the recorded ones. As long as a register holds one entry at most, its
  fingerprint is that of the ordered map, in whatever order the entries are enumerated. -/
theorem kinds_agree_after {steps : List (Register × Action)}
    (h : ∀ s ∈ steps, ∀ text, s.2 ≠ .decode text) (q : Register) :
    let t : AttributeMap .text := (empty.after steps).get q
    let u : AttributeMap .unordered := (empty.after steps).get q
    let o : AttributeMap .ordered := (empty.after steps).get q
    (∀ key, (key ∈ t.keys ↔ key ∈ o.keys) ∧ (key ∈ u.keys ↔ key ∈ o.keys)) ∧
    (t.size = o.size ∧ u.size = o.size) ∧
    (∀ key, u.get? key = o.get? key ∧ t.get? key = (o.get? key).map StoredValue.text ∧
      o.get? key = (lastWrite (Journal.of steps q) key).map RecordedValue.store ∧
      t.get? key = (lastWrite (Journal.of steps q) key).map RecordedValue.text) ∧
    (u.size ≤ 1 → u.fingerprint? = some o.fingerprint ∧ o.fingerprint? = some o.fingerprint ∧
      ∀ entries : List (String × StoredValue), entries.Perm u.entries →
        enumeratedFingerprint (k := .unordered) entries = o.fingerprint) := by
  intro t u o
  have ht : t = (SortedMap.ofList (Journal.of steps q)).mapValues RecordedValue.text :=
    after_eq_mapValues h q
  have ho : o = (SortedMap.ofList (Journal.of steps q)).mapValues RecordedValue.store :=
    after_eq_mapValues h q
  have hu : u = o := (after_eq_mapValues h q).trans ho.symm
  refine ⟨?_, ?_, ?_, ?_⟩
  · -- Keys.
    intro key
    rw [hu, ht, ho, keys_mapValues, keys_mapValues]
    exact ⟨Iff.rfl, Iff.rfl⟩
  · -- Sizes.
    rw [hu, ht, ho, size_mapValues, size_mapValues]
    exact ⟨rfl, rfl⟩
  · -- Values, each from the one last write.
    intro key
    have htext : RecordedValue.text = StoredValue.text ∘ RecordedValue.store := by
      funext v
      exact v.text_store.symm
    rw [hu, ht, ho, get?_mapValues, get?_mapValues, get?_ofList, Option.map_map, htext]
    exact ⟨rfl, rfl, rfl, rfl⟩
  · -- Fingerprints of maps with one entry at most.
    intro hsize
    have hfingerprint : u.fingerprint = o.fingerprint := congrArg _ hu
    refine ⟨?_, ?_, ?_⟩
    · rw [fingerprint?, if_pos (Or.inr hsize), hfingerprint]
    · rw [fingerprint?, if_pos (Or.inl rfl)]
    · intro entries hperm
      rw [← hfingerprint]
      exact enumeratedFingerprint_of_perm hsize hperm

/-- A byte that is no UTF-8 is written, copied and overwritten in the original only. -/
theorem kinds_agree_after_copy :
    let steps : List (Register × Action) := [(0, .set "a" (.rawText ⟨[0xff], by decide⟩)),
      (0, .clone 1), (0, .set "a" (.scalar .double ⟨true, 0x7ff, 1⟩))]
    let t : AttributeMap .text := (empty.after steps).get 1
    let u : AttributeMap .unordered := (empty.after steps).get 1
    let o : AttributeMap .ordered := (empty.after steps).get 1
    (∀ s ∈ steps, ∀ text, s.2 ≠ .decode text) ∧ t.get? "a" = some "\ufffd" ∧
      u.get? "a" = some (.scalar .text "\ufffd") ∧ u.fingerprint? = some o.fingerprint := by
  intro steps t u o
  have hsteps : ∀ s ∈ steps, ∀ text, s.2 ≠ .decode text := by simp [steps]
  obtain ⟨-, ⟨-, hsize⟩, hget, hfingerprint⟩ := kinds_agree_after hsteps 1
  obtain ⟨hu, -, ho, ht⟩ := hget "a"
  have hone : u.size ≤ 1 := by decide +kernel
  exact ⟨hsteps, ht.trans (by decide +kernel), (hu.trans ho).trans (by decide +kernel),
    (hfingerprint hone).1⟩

end Workspace

end Telemetry
