import Telemetry.Proofs.Fingerprint.Filtered
import Telemetry.Proofs.Hash.Chunks
/-!
# Fingerprints as folds over flat lists of arguments

Whatever is folded into a seed is a list of byte strings, and each of them is hashed by itself.
Where a value ends and the next one begins, of which kind a value is and what is a key leaves no
trace, so different maps may share a fingerprint.
-/

namespace Telemetry

variable {k : MapKind}

/-! ### The hash of a byte string -/

namespace Fnv1a

/-- FNV-1a on natural numbers. Each byte is mixed in with exclusive or, and the result is multiplied
  by the prime modulo `2 ^ 64`. -/
def hashed (bytes : List UInt8) : Nat :=
  bytes.foldl (fun h b => (h ^^^ b.toNat) * 1099511628211 % 2 ^ 64) 14695981039346656037

/-- A step of the hash as a number. -/
theorem toNat_step (state : UInt64) (b : UInt8) :
    (step state b).toNat = (state.toNat ^^^ b.toNat) * 1099511628211 % 2 ^ 64 := by
  rw [step, UInt64.toNat_mul, UInt64.toNat_xor, UInt8.toNat_toUInt64]
  rfl

/-- The hash of a byte string as a number. -/
theorem toNat_hash (bytes : List UInt8) : (hash bytes).toNat = hashed bytes := by
  have hfold (state : UInt64) : (bytes.foldl step state).toNat =
      bytes.foldl (fun h b => (h ^^^ b.toNat) * 1099511628211 % 2 ^ 64) state.toNat := by
    induction bytes generalizing state with
    | nil => rfl
    | cons b rest ih => rw [List.foldl_cons, List.foldl_cons, ih, toNat_step]
  exact hfold basis

end Fnv1a

/-! ### The fold over byte strings -/

namespace Seed

/-- The seed after a hash has been mixed in, as a number below `2 ^ 64`. -/
def mixed (seed hash : Nat) : Nat :=
  seed ^^^ ((hash + 0x9e3779b9 + seed * 2 ^ 6 + seed / 2 ^ 2) % 2 ^ 64)

/-- The seed after arguments, given by their byte strings, have been folded in one by one. -/
def ofArguments (seed : Nat) (arguments : List (List UInt8)) : Nat :=
  arguments.foldl (fun seed a => mixed seed (Fnv1a.hashed a)) seed

theorem ofArguments_append (seed : Nat) (first second : List (List UInt8)) :
    ofArguments seed (first ++ second) = ofArguments (ofArguments seed first) second :=
  List.foldl_append

/-- Mixing a hash in, as a number. Shifts are products and quotients there. -/
theorem toNat_mix (seed hash : UInt64) :
    (mix seed hash).toNat = mixed seed.toNat hash.toNat := by
  have hleft : (seed <<< 6).toNat = seed.toNat * 2 ^ 6 % 2 ^ 64 := by
    rw [UInt64.toNat_shiftLeft, Nat.shiftLeft_eq]
    rfl
  have hright : (seed >>> 2).toNat = seed.toNat / 2 ^ 2 := by
    rw [UInt64.toNat_shiftRight, Nat.shiftRight_eq_div_pow]
    rfl
  have hincrement : increment.toNat = 0x9e3779b9 := rfl
  rw [mix, mixed, UInt64.toNat_xor, UInt64.toNat_add, UInt64.toNat_add, UInt64.toNat_add, hleft,
    hright, hincrement]
  congr 1
  omega

/-- A fold each of whose steps folds some arguments folds the flat list of all of them. -/
theorem toNat_foldl {α : Type} {step : UInt64 → α → UInt64} {arguments : α → List (List UInt8)}
    (h : ∀ seed a, (step seed a).toNat = ofArguments seed.toNat (arguments a)) (items : List α)
    (seed : UInt64) :
    (items.foldl step seed).toNat = ofArguments seed.toNat (items.flatMap arguments) := by
  induction items generalizing seed with
  | nil => rfl
  | cons a items ih => rw [List.foldl_cons, ih, h, List.flatMap_cons, ofArguments_append]

/-- A datum folds its byte string as a single argument. -/
theorem toNat_combine (seed : UInt64) (d : Datum) :
    (combine seed d).toNat = ofArguments seed.toNat [d.hashedBytes] := by
  rw [combine, toNat_mix, Datum.hash_eq_hash_hashedBytes, Fnv1a.toNat_hash]
  rfl

end Seed

/-! ### Flat lists -/

/-- The byte strings of the data of a value, in order. A scalar has one, a sequence has one for each
  element. -/
def StoredValue.arguments (v : StoredValue) : List (List UInt8) :=
  v.data.map Datum.hashedBytes

/-- The byte strings that one folding adds. -/
def FoldStep.arguments : FoldStep → List (List UInt8)
  | datum d => [d.hashedBytes]
  | value v => v.arguments

/-- The byte string of a key, followed by those of the value. -/
def entryArguments (key : String) (v : StoredValue) : List (List UInt8) :=
  Key.bytes key :: v.arguments

/-- The byte strings of a map: those of its entries, in key order. -/
def AttributeMap.arguments (m : AttributeMap k) : List (List UInt8) :=
  m.entries.flatMap fun e => entryArguments e.1 (heldValue k e.2)

/-- A value folds its data one by one. -/
theorem StoredValue.foldInto_eq_foldl (v : StoredValue) (seed : UInt64) :
    v.foldInto seed = v.data.foldl Seed.combine seed := by
  cases v with
  | scalar s x => rfl
  | sequence s xs => exact List.foldl_map.symm
  | bytes bs => exact List.foldl_map.symm

/-- A value folds the flat list of the byte strings of its data. -/
theorem StoredValue.toNat_foldInto (v : StoredValue) (seed : UInt64) :
    (v.foldInto seed).toNat = Seed.ofArguments seed.toNat v.arguments := by
  rw [foldInto_eq_foldl, Seed.toNat_foldl Seed.toNat_combine, arguments, List.map_eq_flatMap]

/-- A key is hashed as its own bytes. -/
theorem Datum.hashedBytes_key (key : String) : (Datum.key key).hashedBytes = Key.bytes key := by
  simp [hashedBytes, Scalar.hashChunks, Key.bytes]

/-- An entry folds its key and then its value. -/
theorem Seed.toNat_combineEntry (seed : UInt64) (key : String) (v : StoredValue) :
    (combineEntry seed key v).toNat = ofArguments seed.toNat (entryArguments key v) := by
  rw [combineEntry, StoredValue.toNat_foldInto, toNat_combine, ← ofArguments_append,
    Datum.hashedBytes_key]
  rfl

/-! ### Foldings, maps and filtered sources -/

namespace FoldStep

/-- The seed behind a list of foldings. -/
def finalSeed (seed : UInt64) (steps : List FoldStep) : UInt64 :=
  (seeds seed steps).getLastD seed

/-- The seed behind a list of foldings is a left fold. -/
theorem finalSeed_eq_foldl (seed : UInt64) (steps : List FoldStep) :
    finalSeed seed steps = steps.foldl apply seed := by
  induction steps generalizing seed with
  | nil => rfl
  | cons s rest ih => rw [finalSeed, seeds, List.getLastD_cons, List.foldl_cons, ← ih, finalSeed]

/-- A folding folds its arguments. -/
theorem toNat_apply (seed : UInt64) (s : FoldStep) :
    (s.apply seed).toNat = Seed.ofArguments seed.toNat s.arguments := by
  cases s with
  | datum d => exact Seed.toNat_combine seed d
  | value v => exact v.toNat_foldInto seed

/-- A list of foldings folds the flat list of all arguments. -/
theorem toNat_finalSeed (seed : UInt64) (steps : List FoldStep) :
    (finalSeed seed steps).toNat = Seed.ofArguments seed.toNat (steps.flatMap arguments) := by
  rw [finalSeed_eq_foldl, Seed.toNat_foldl toNat_apply]

/-- Foldings that may stand for each other anywhere in a list, from any seed. -/
def Interchangeable (steps others : List FoldStep) : Prop :=
  ∀ seed before after,
    finalSeed seed (before ++ (steps ++ after)) = finalSeed seed (before ++ (others ++ after))

/-- Foldings with one flat list end in one seed, wherever values begin and end. -/
theorem interchangeable_of_arguments_eq {steps others : List FoldStep}
    (h : steps.flatMap arguments = others.flatMap arguments) : Interchangeable steps others := by
  intro seed before after
  apply UInt64.toNat_inj.1
  simp only [toNat_finalSeed, List.flatMap_append, h]

end FoldStep

/-- The fingerprint of a map folds its flat list from zero. -/
theorem AttributeMap.toNat_fingerprint (m : AttributeMap k) :
    m.fingerprint.toNat = Seed.ofArguments 0 m.arguments :=
  Seed.toNat_foldl (fun seed e => Seed.toNat_combineEntry seed e.1 (heldValue k e.2)) m.entries 0

/-- Maps with one flat list share their fingerprint. -/
theorem AttributeMap.fingerprint_eq_of_arguments_eq {m n : AttributeMap k}
    (h : m.arguments = n.arguments) : m.fingerprint = n.fingerprint := by
  apply UInt64.toNat_inj.1
  rw [toNat_fingerprint, toNat_fingerprint, h]

/-- A filtered fingerprint folds the flat list of the accepted pairs. -/
theorem Source.toNat_fingerprint {σ : Type} (source : Source) (accepts : σ → String → σ × Bool)
    (state : σ) :
    (source.fingerprint accepts state).value.1.toNat = Seed.ofArguments 0
      ((accepted accepts state source.pairs).flatMap fun p => entryArguments p.1 p.2.store) := by
  rw [seed_fingerprint]
  exact Seed.toNat_foldl (fun seed p => Seed.toNat_combineEntry seed p.1 p.2.store) _ 0

/-! ### Conflated maps -/

/-- Where a write goes does not depend on what is written. -/
theorem SortedMap.exists_entries_insert {α : Type} (m : SortedMap α) (key : String) :
    ∃ before after, ∀ value, (m.insert key value).entries = before ++ (key, value) :: after := by
  have hplace (entries : List (String × α)) :
      ∃ before after, ∀ value, insertEntry key value entries = before ++ (key, value) :: after := by
    induction entries with
    | nil => exact ⟨[], [], fun value => rfl⟩
    | cons e rest ih =>
      simp only [insertEntry]
      split_ifs with heq hlt
      · exact ⟨[], rest, fun value => rfl⟩
      · exact ⟨[], e :: rest, fun value => rfl⟩
      · obtain ⟨before, after, h⟩ := ih
        exact ⟨e :: before, after, fun value => congrArg (e :: ·) (h value)⟩
  exact hplace m.entries

namespace AttributeMap

/-- Values with one list of byte strings may stand for each other under a key. -/
theorem fingerprint_set_congr {v w : RecordedValue} (h : v.store.arguments = w.store.arguments)
    (m : AttributeMap .ordered) (key : String) :
    (set m key v).fingerprint = (set m key w).fingerprint := by
  obtain ⟨before, after, hplace⟩ := m.exists_entries_insert key
  have harguments (u : RecordedValue) : (set m key u).arguments =
      (before.flatMap fun e => entryArguments e.1 e.2) ++
        (entryArguments key u.store ++ after.flatMap fun e => entryArguments e.1 e.2) := by
    change (m.insert key u.store).entries.flatMap _ = _
    rw [hplace, List.flatMap_append, List.flatMap_cons]
    rfl
  apply fingerprint_eq_of_arguments_eq
  rw [harguments, harguments, entryArguments, entryArguments, h]

/-- A text in the middle of a sequence may as well be the key of the rest of it. -/
theorem fingerprint_collect_split {a b : String} (h : Key.Before a b) (xs ys : List String) :
    (collect [(a, .sequence .text (xs ++ b :: ys))] : AttributeMap .ordered).fingerprint =
      (collect [(a, .sequence .text xs), (b, .sequence .text ys)] :
        AttributeMap .ordered).fingerprint := by
  have hentries : (collect [(a, .sequence .text xs), (b, .sequence .text ys)] :
      AttributeMap .ordered).entries = [(a, .sequence .text xs), (b, .sequence .text ys)] := by
    rw [collect_eq_ofList]
    exact SortedMap.entries_ofList_of_inOrder (by simpa [writeOf] using h)
  apply fingerprint_eq_of_arguments_eq
  rw [arguments, arguments, hentries]
  simp [collect, extend, set, SortedMap.insert, SortedMap.insertEntry, SortedMap.empty,
    MapKind.hold, RecordedValue.store, heldValue, entryArguments, StoredValue.arguments,
    StoredValue.data, Datum.hashedBytes_key]

end AttributeMap

/-! ### Main statement -/

open AttributeMap FoldStep

/-- The seed behind any foldings, the fingerprint of an ordered map and that of a filtered source are
  the fold over a flat list of byte strings. So foldings and ordered maps with one flat list are
  conflated: it makes no difference where a sequence is cut, whether a single element stands in a
  sequence, or whether a text is an element or a key. -/
theorem Seed.folds_eq_ofArguments :
    (∀ seed steps, (finalSeed seed steps).toNat =
      ofArguments seed.toNat (steps.flatMap FoldStep.arguments)) ∧
    (∀ m : AttributeMap .ordered, SortedMap.InOrder m.entries ∧ m.fingerprint.toNat =
      ofArguments 0 (m.entries.flatMap fun e => Key.bytes e.1 :: e.2.arguments)) ∧
    (∀ (σ : Type) (source : Source) (accepts : σ → String → σ × Bool) (state : σ),
      (source.fingerprint accepts state).value.1.toNat =
        ofArguments 0 ((Source.accepted accepts state source.pairs).flatMap fun p =>
          Key.bytes p.1 :: p.2.store.arguments)) ∧
    (∀ steps others, steps.flatMap FoldStep.arguments = others.flatMap FoldStep.arguments →
      Interchangeable steps others) ∧
    (∀ s xs ys, Interchangeable [value (.sequence s (xs ++ ys))]
      [value (.sequence s xs), value (.sequence s ys)]) ∧
    (∀ as bs, Interchangeable [value (.bytes (as ++ bs))] [value (.bytes as), value (.bytes bs)]) ∧
    (∀ s x, Interchangeable [value (.sequence s [x])] [value (.scalar s x)]) ∧
    (∀ m n : AttributeMap .ordered, m.arguments = n.arguments → m.fingerprint = n.fingerprint) ∧
    (∀ (m : AttributeMap .ordered) key s x,
      (set m key (.sequence s [x])).fingerprint = (set m key (.scalar s x)).fingerprint) ∧
    ∀ a b, Key.Before a b → ∀ xs ys : List String,
      (collect [(a, .sequence .text (xs ++ b :: ys))] : AttributeMap .ordered).fingerprint =
        (collect [(a, .sequence .text xs), (b, .sequence .text ys)] :
          AttributeMap .ordered).fingerprint := by
  refine ⟨toNat_finalSeed, fun m => ⟨m.inOrder, m.toNat_fingerprint⟩, ?_, ?_, ?_, ?_, ?_, ?_, ?_,
    ?_⟩
  · -- Filtered sources.
    intro σ source accepts state
    exact source.toNat_fingerprint accepts state
  · -- Foldings with one flat list, and three ways to come by them.
    intro steps others h
    exact interchangeable_of_arguments_eq h
  · intro s xs ys
    apply interchangeable_of_arguments_eq
    simp [FoldStep.arguments, StoredValue.arguments, StoredValue.data]
  · intro as bs
    apply interchangeable_of_arguments_eq
    simp [FoldStep.arguments, StoredValue.arguments, StoredValue.data]
  · intro s x
    apply interchangeable_of_arguments_eq
    rfl
  · -- Maps with one flat list, and two ways to come by them.
    intro m n h
    exact fingerprint_eq_of_arguments_eq h
  · intro m key s x
    apply fingerprint_set_congr
    rfl
  · intro a b h xs ys
    exact fingerprint_collect_split h xs ys

/-- Numbers of other kinds in another grouping, and maps of which one has a key where the other one
  has elements. -/
theorem Seed.folds_eq_ofArguments_of_regrouped :
    let steps : List FoldStep := [value (.sequence .int32 [1, 2]), value (.bytes [])]
    let others : List FoldStep := [datum (.scalar .bool true), value (.scalar .uint64 2)]
    let m : AttributeMap .ordered := collect [("a", .sequence .text ["b", "c"])]
    let n : AttributeMap .ordered := collect [("a", .sequence .int64 []), ("b", .scalar .text "c")]
    steps.flatMap FoldStep.arguments = others.flatMap FoldStep.arguments ∧
      finalSeed 7 steps = finalSeed 7 others ∧
      m.arguments = n.arguments ∧ m.fingerprint = n.fingerprint ∧ Key.Before "a" "b" ∧
      m.fingerprint = (collect [("a", .sequence .text []), ("b", .sequence .text ["c"])] :
        AttributeMap .ordered).fingerprint := by
  intro steps others m n
  have hsteps : steps.flatMap FoldStep.arguments = others.flatMap FoldStep.arguments := by
    decide +kernel
  have hmaps : m.arguments = n.arguments := by decide +kernel
  have hbefore : Key.Before "a" "b" := by decide +kernel
  obtain ⟨-, -, -, hfold, -, -, -, hmap, -, hsplit⟩ := folds_eq_ofArguments
  have hseed := hfold steps others hsteps 7 [] []
  simp only [List.nil_append, List.append_nil] at hseed
  exact ⟨hsteps, hseed, hmaps, hmap m n hmaps, hbefore, hsplit "a" "b" hbefore [] ["c"]⟩

end Telemetry
