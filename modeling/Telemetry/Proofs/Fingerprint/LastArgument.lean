import Telemetry.Proofs.Fingerprint.Arguments
/-!
# The last argument of a fold

A seed is joined by exclusive or to a sum in which the hash of the argument is one summand. Both can
be undone, so from one seed different hashes lead to different seeds. What is folded last is
therefore never lost: it shows in the final seed of a list of foldings, and in the fingerprint of a
map it shows if it belongs to the value under the greatest key.
-/

namespace Telemetry

open SortedMap

/-! ### One step -/

namespace Seed

variable {seed : UInt64}

/-- Mixing into one seed loses nothing of the hash. -/
theorem mix_inj {a b : UInt64} : mix seed a = mix seed b ↔ a = b := by
  rw [mix, mix, UInt64.xor_right_inj, UInt64.add_left_inj, UInt64.add_left_inj,
    UInt64.add_left_inj]

/-- Data folded into one seed are told apart by their hashes. -/
theorem combine_inj {d e : Datum} : combine seed d = combine seed e ↔ d.hash = e.hash :=
  mix_inj

/-- After a common list of data a fold tells two data apart if their hashes differ. -/
theorem foldl_combine_concat_inj {data : List Datum} {d e : Datum} :
    (data ++ [d]).foldl combine seed = (data ++ [e]).foldl combine seed ↔ d.hash = e.hash := by
  rw [List.foldl_concat, List.foldl_concat, combine_inj]

end Seed

/-- Data at the end of a list of foldings are told apart by their hashes. -/
theorem FoldStep.finalSeed_concat_inj {seed : UInt64} {steps : List FoldStep} {d e : Datum} :
    finalSeed seed (steps ++ [datum d]) = finalSeed seed (steps ++ [datum e]) ↔
      d.hash = e.hash := by
  rw [finalSeed_eq_foldl, finalSeed_eq_foldl, List.foldl_concat, List.foldl_concat]
  exact Seed.combine_inj

/-! ### Values -/

/-- Values that are the same but for their last data: two scalars, of whatever kinds, or two
  sequences of one kind with the same elements before the last one. -/
inductive StoredValue.ApartAtEnd : StoredValue → StoredValue → Datum → Datum → Prop where
  | scalar (s t : Scalar) (x : s.Carrier) (y : t.Carrier) :
    ApartAtEnd (scalar s x) (scalar t y) (.scalar s x) (.scalar t y)
  | sequence (s : Scalar) (xs : List s.Carrier) (x y : s.Carrier) :
    ApartAtEnd (sequence s (xs ++ [x])) (sequence s (xs ++ [y])) (.scalar s x) (.scalar s y)
  | bytes (bs : List UInt8) (a b : UInt8) :
    ApartAtEnd (bytes (bs ++ [a])) (bytes (bs ++ [b])) (.byte a) (.byte b)

variable {v w : StoredValue} {d e : Datum}

/-- Values that are apart at their end have the same data but for the last ones. -/
theorem StoredValue.ApartAtEnd.exists_data (h : ApartAtEnd v w d e) :
    ∃ common, v.data = common ++ [d] ∧ w.data = common ++ [e] := by
  cases h with
  | scalar s t x y => exact ⟨[], rfl, rfl⟩
  | sequence s xs x y => exact ⟨xs.map (.scalar s), List.map_append, List.map_append⟩
  | bytes bs a b => exact ⟨bs.map .byte, List.map_append, List.map_append⟩

/-- What they fold into one seed is told apart by the hashes of the last ones. -/
theorem StoredValue.ApartAtEnd.foldInto_inj (h : ApartAtEnd v w d e) (seed : UInt64) :
    v.foldInto seed = w.foldInto seed ↔ d.hash = e.hash := by
  obtain ⟨common, hv, hw⟩ := h.exists_data
  rw [foldInto_eq_foldl, foldInto_eq_foldl, hv, hw, Seed.foldl_combine_concat_inj]

/-! ### The greatest key -/

namespace SortedMap

variable {α : Type} {m n : SortedMap α} {key : String} {a b : α}

/-- A write that brings a map into agreement with another one makes it the other one. -/
theorem insert_eq_of_get? (hothers : ∀ other, other ≠ key → m.get? other = n.get? other)
    (hb : n.get? key = some b) : m.insert key b = n := by
  apply eq_of_get?_eq
  intro other
  rw [get?_insert]
  split
  · next heq => rw [heq, hb]
  · next hne => exact hothers other hne

/-- The entry under the greatest key is the last one, and what is written there instead takes its
  place. -/
theorem exists_entries_of_greatest
    (hgreatest : ∀ other ∈ m.keys, other ≠ key → Key.Before other key)
    (hothers : ∀ other, other ≠ key → m.get? other = n.get? other)
    (ha : m.get? key = some a) (hb : n.get? key = some b) :
    ∃ before, m.entries = before ++ [(key, a)] ∧ n.entries = before ++ [(key, b)] := by
  -- Writing under the key shows where its entry stands in both maps.
  obtain ⟨before, after, hplace⟩ := m.exists_entries_insert key
  have hm : m.entries = before ++ (key, a) :: after := by
    rw [← hplace, insert_eq_of_get? (fun _ _ => rfl) ha]
  have hn : n.entries = before ++ (key, b) :: after := by
    rw [← hplace, insert_eq_of_get? hothers hb]
  -- No entry stands behind that of the greatest key.
  have hafter : after = [] := by
    apply List.eq_nil_iff_forall_not_mem.2
    intro d hd
    have horder := m.inOrder
    rw [hm] at horder
    have hbehind : Key.Before key d.1 :=
      (List.pairwise_cons.1 (List.pairwise_append.1 horder).2.1).1 d hd
    have hmem : d.1 ∈ m.keys := by
      apply List.mem_map_of_mem
      rw [hm]
      exact List.mem_append_right before (List.mem_cons_of_mem _ hd)
    by_cases heq : d.1 = key
    · exact Key.before_irrefl key (heq ▸ hbehind)
    · exact Key.before_irrefl key (hbehind.trans (hgreatest d.1 hmem heq))
  subst hafter
  exact ⟨before, hm, hn⟩

end SortedMap

namespace AttributeMap

variable {m n : AttributeMap .ordered} {key : String}

/-- Maps that hold the same under every key but the greatest one, and under that one values that
  are the same but for their last data. -/
structure ApartAtEnd (m n : AttributeMap .ordered) (key : String) (d e : Datum) : Prop where
  greatest : ∀ other ∈ m.keys, other ≠ key → Key.Before other key
  others : ∀ other, other ≠ key → m.get? other = n.get? other
  values : ∃ v w, m.get? key = some v ∧ n.get? key = some w ∧ StoredValue.ApartAtEnd v w d e

/-- The fingerprints of maps that are apart at their end are told apart by the hashes of two
  data. -/
theorem ApartAtEnd.fingerprint_inj (h : ApartAtEnd m n key d e) :
    m.fingerprint = n.fingerprint ↔ d.hash = e.hash := by
  obtain ⟨v, w, hv, hw, hvalues⟩ := h.values
  obtain ⟨before, hm, hn⟩ := exists_entries_of_greatest h.greatest h.others hv hw
  -- All entries before the last one lead to a common seed.
  rw [fingerprint, fingerprint, hm, hn, List.foldl_concat, List.foldl_concat]
  exact hvalues.foldInto_inj _

end AttributeMap

/-! ### Main statement -/

open FoldStep (finalSeed)

/-- From any seed and behind any foldings, two data lead to one seed exactly if their hashes are
  equal. So two ordered maps that differ only in the last datum of the value under their greatest
  key have one fingerprint exactly if the hashes of these data are equal. -/
theorem Seed.fold_eq_iff_last_hash_eq :
    (∀ (seed : UInt64) (steps : List FoldStep) (d e : Datum),
      finalSeed seed (steps ++ [.datum d]) = finalSeed seed (steps ++ [.datum e]) ↔
        d.hash = e.hash) ∧
    ∀ (m n : AttributeMap .ordered) (key : String) (d e : Datum), m.ApartAtEnd n key d e →
      (m.fingerprint = n.fingerprint ↔ d.hash = e.hash) :=
  ⟨fun _ _ _ _ => FoldStep.finalSeed_concat_inj, fun _ _ _ _ _ h => h.fingerprint_inj⟩

/-- Under the greatest key a last element shows, while a truth value and a double that are hashed as
  one text stand for each other. -/
theorem Seed.fold_eq_iff_last_hash_eq_of_small_maps :
    let base : AttributeMap .ordered := AttributeMap.collect [("a", .scalar .text "c")]
    (let m := AttributeMap.set base "b" (.sequence .int32 [1, 2])
    let n := AttributeMap.set base "b" (.sequence .int32 [1, 3])
    m.ApartAtEnd n "b" (.scalar .int32 2) (.scalar .int32 3) ∧ m.fingerprint ≠ n.fingerprint) ∧
    let m := AttributeMap.set base "b" (.scalar .bool true)
    let n := AttributeMap.set base "b" (.scalar .double (.ofBits 0x3ff0000000000000))
    m.ApartAtEnd n "b" (.scalar .bool true) (.scalar .double (.ofBits 0x3ff0000000000000)) ∧
      m.fingerprint = n.fingerprint := by
  intro base
  have hothers (v w : RecordedValue) (other : String) (hne : other ≠ "b") :
      (AttributeMap.set base "b" v).get? other = (AttributeMap.set base "b" w).get? other := by
    rw [AttributeMap.set, AttributeMap.set, get?_insert, get?_insert, if_neg hne, if_neg hne]
  constructor
  · intro m n
    have h : m.ApartAtEnd n "b" (.scalar .int32 2) (.scalar .int32 3) :=
      ⟨by decide +kernel, hothers _ _, _, _, by decide +kernel, by decide +kernel,
        .sequence .int32 [1] 2 3⟩
    have hhash : (Datum.scalar .int32 2).hash ≠ (Datum.scalar .int32 3).hash := by decide +kernel
    exact ⟨h, fun heq => hhash ((fold_eq_iff_last_hash_eq.2 m n "b" _ _ h).1 heq)⟩
  · intro m n
    have h : m.ApartAtEnd n "b" (.scalar .bool true)
        (.scalar .double (.ofBits 0x3ff0000000000000)) :=
      ⟨by decide +kernel, hothers _ _, _, _, by decide +kernel, by decide +kernel,
        .scalar .bool .double true (.ofBits 0x3ff0000000000000)⟩
    exact ⟨h, (fold_eq_iff_last_hash_eq.2 m n "b" _ _ h).2 (by decide +kernel)⟩

end Telemetry
