import Mathlib.Data.List.Dedup
import Telemetry.Map.Sorted
/-!
# Sorted maps and last writes

A list of writes determines a finite function: the value of a key is that of its last write. A
sorted map that is filled by the writes answers every read like this function, and two sorted maps
that answer alike are the same map.
-/

namespace Telemetry.SortedMap

variable {α : Type}

/-- The first entry answers under its own name. -/
theorem lookup_cons_eq_ite (name : String) (value : α) (rest : List (String × α)) (key : String) :
    ((name, value) :: rest).lookup key = if key = name then some value else rest.lookup key := by
  by_cases hkey : key = name
  · rw [hkey, List.lookup_cons_self, if_pos rfl]
  · rw [List.lookup_cons, beq_false_of_ne hkey, if_neg hkey]

/-- Replacing values does not change where they are found. -/
theorem lookup_map_value {β : Type} (f : α → β) (entries : List (String × α)) (key : String) :
    (entries.map fun e => (e.1, f e.2)).lookup key = (entries.lookup key).map f := by
  induction entries with
  | nil => rfl
  | cons e rest ih =>
    rw [List.map_cons, lookup_cons_eq_ite, lookup_cons_eq_ite, ih]
    split <;> rfl

/-- If no key occurs twice, a lookup finds whatever is there. -/
theorem lookup_eq_some_iff_of_nodup {entries : List (String × α)} {key : String} {value : α}
    (h : (entries.map Prod.fst).Nodup) :
    entries.lookup key = some value ↔ (key, value) ∈ entries := by
  induction entries with
  | nil => simp
  | cons e rest ih =>
    obtain ⟨name, held⟩ := e
    obtain ⟨hhead, hrest⟩ := List.nodup_cons.1 h
    rw [List.mem_cons, lookup_cons_eq_ite, ← ih hrest]
    by_cases hkey : key = name
    · -- The key does not occur again.
      have hlate : rest.lookup key ≠ some value := by
        intro hfound
        exact hhead (List.mem_map.2 ⟨(key, value), (ih hrest).1 hfound, hkey⟩)
      simp [hkey, hkey ▸ hlate, eq_comm]
    · simp [hkey]

/-! ### Last writes -/

/-- The value of the last write under a key. -/
def lastWrite (writes : List (String × α)) (key : String) : Option α :=
  writes.reverse.lookup key

@[simp] theorem lastWrite_nil (key : String) : lastWrite ([] : List (String × α)) key = none := rfl

/-- Later writes come before earlier ones. -/
theorem lastWrite_append (before after : List (String × α)) (key : String) :
    lastWrite (before ++ after) key = (lastWrite after key).or (lastWrite before key) := by
  rw [lastWrite, List.reverse_append, List.lookup_append]
  rfl

theorem lastWrite_singleton (written : String) (value : α) (key : String) :
    lastWrite [(written, value)] key = if key = written then some value else none :=
  lookup_cons_eq_ite written value [] key

/-- Replacing what is written does not change which write is the last one. -/
theorem lastWrite_map {β : Type} (f : α → β) (writes : List (String × α)) (key : String) :
    lastWrite (writes.map fun e => (e.1, f e.2)) key = (lastWrite writes key).map f := by
  rw [lastWrite, lastWrite, ← List.map_reverse, lookup_map_value]

/-- Only writes under keys that are kept count. -/
theorem lastWrite_filter (p : String → Bool) (writes : List (String × α)) (key : String) :
    lastWrite (writes.filter fun e => p e.1) key =
      if p key = true then lastWrite writes key else none := by
  rw [lastWrite, lastWrite, ← List.filter_reverse]
  induction writes.reverse with
  | nil => simp
  | cons e rest ih =>
    obtain ⟨name, value⟩ := e
    rw [List.filter_cons]
    by_cases hname : p name = true
    · rw [if_pos hname, lookup_cons_eq_ite, lookup_cons_eq_ite, ih]
      by_cases hkey : key = name
      · simp [hkey, hname]
      · simp [hkey]
    · rw [if_neg hname, ih, lookup_cons_eq_ite]
      by_cases hkey : key = name
      · simp [hkey, hname]
      · simp [hkey]

/-- There is a last write under the keys that were written. -/
theorem lastWrite_isSome_iff {writes : List (String × α)} {key : String} :
    (lastWrite writes key).isSome ↔ key ∈ writes.map Prod.fst := by
  rw [lastWrite, List.lookup_isSome_iff]
  constructor
  · rintro ⟨e, he, hkey⟩
    exact List.mem_map.2 ⟨e, List.mem_reverse.1 he, (beq_iff_eq.1 hkey).symm⟩
  · intro h
    obtain ⟨e, he, hkey⟩ := List.mem_map.1 h
    exact ⟨e, List.mem_reverse.2 he, beq_iff_eq.2 hkey.symm⟩

/-- The last write under a key is a write behind which there is no other one under it. -/
theorem lastWrite_eq_some_iff {writes : List (String × α)} {key : String} {value : α} :
    lastWrite writes key = some value ↔
      ∃ before after, writes = before ++ (key, value) :: after ∧ key ∉ after.map Prod.fst := by
  rw [lastWrite, List.lookup_eq_some_iff]
  constructor
  · -- A lookup from the end meets the writes in the opposite order.
    rintro ⟨late, early, hwrites, hlate⟩
    refine ⟨early.reverse, late.reverse, ?_, ?_⟩
    · rw [← List.reverse_reverse writes, hwrites, List.reverse_append, List.reverse_cons,
        List.append_assoc, List.singleton_append]
    · rw [List.map_reverse, List.mem_reverse, List.mem_map]
      rintro ⟨e, he, rfl⟩
      exact absurd rfl (bne_iff_ne.1 (hlate e he))
  · rintro ⟨before, after, rfl, hafter⟩
    refine ⟨after.reverse, before.reverse, ?_, ?_⟩
    · rw [List.reverse_append, List.reverse_cons, List.append_assoc, List.singleton_append]
    · intro e he
      refine bne_iff_ne.2 ?_
      rintro rfl
      exact hafter (List.mem_map_of_mem (List.mem_reverse.1 he))

/-! ### Lookups -/

/-- An entry is found under its own key, and all others as before. -/
theorem lookup_insertEntry (written : String) (value : α) (entries : List (String × α))
    (key : String) :
    (insertEntry written value entries).lookup key =
      if key = written then some value else entries.lookup key := by
  induction entries with
  | nil => exact lookup_cons_eq_ite written value [] key
  | cons e rest ih =>
    obtain ⟨name, held⟩ := e
    simp only [insertEntry]
    split
    · next heq =>
      have heq : written = name := heq
      rw [lookup_cons_eq_ite, lookup_cons_eq_ite, heq]
      by_cases hkey : key = name <;> simp [hkey]
    · next hne =>
      have hne : written ≠ name := hne
      split
      · rw [lookup_cons_eq_ite]
      · rw [lookup_cons_eq_ite, ih, lookup_cons_eq_ite]
        by_cases hkey : key = written
        · rw [if_neg (hkey ▸ hne), if_pos hkey, if_pos hkey]
        · rw [if_neg hkey, if_neg hkey]

/-- A write is read back under its key and changes nothing elsewhere. -/
theorem get?_insert (m : SortedMap α) (written : String) (value : α) (key : String) :
    (m.insert written value).get? key = if key = written then some value else m.get? key :=
  lookup_insertEntry written value m.entries key

/-- After several writes a key has the value of its last write, or its earlier value if it is
  written by none of them. -/
theorem get?_insertMany (m : SortedMap α) (writes : List (String × α)) (key : String) :
    (m.insertMany writes).get? key = (lastWrite writes key).or (m.get? key) := by
  induction writes generalizing m with
  | nil => rfl
  | cons e rest ih =>
    obtain ⟨written, value⟩ := e
    change ((m.insert written value).insertMany rest).get? key = _
    -- The first write counts only if no later one has its key.
    have hcons : lastWrite ((written, value) :: rest) key =
        (lastWrite rest key).or (if key = written then some value else none) := by
      rw [← lastWrite_singleton]
      exact lastWrite_append [(written, value)] rest key
    rw [ih, get?_insert, hcons, Option.or_assoc]
    by_cases hkey : key = written
    · simp [hkey]
    · simp [hkey]

/-- Under each key, a map holds the last write. -/
theorem get?_ofList (writes : List (String × α)) (key : String) :
    (ofList writes).get? key = lastWrite writes key := by
  rw [ofList, get?_insertMany]
  exact Option.or_none

theorem insertMany_append (m : SortedMap α) (before after : List (String × α)) :
    m.insertMany (before ++ after) = (m.insertMany before).insertMany after :=
  List.foldl_append

/-! ### Entries -/

/-- No key occurs twice. -/
theorem nodup_keys (m : SortedMap α) : m.keys.Nodup := by
  refine List.pairwise_map.2 (m.inOrder.imp ?_)
  intro a b hbefore heq
  exact Key.before_irrefl b.1 (heq ▸ hbefore)

/-- The entries are what is read under their keys. -/
theorem mem_entries_iff (m : SortedMap α) (key : String) (value : α) :
    (key, value) ∈ m.entries ↔ m.get? key = some value :=
  (lookup_eq_some_iff_of_nodup m.nodup_keys).symm

/-- The keys are those under which something is read. -/
theorem mem_keys_iff (m : SortedMap α) (key : String) : key ∈ m.keys ↔ (m.get? key).isSome := by
  rw [Option.isSome_iff_exists, keys, List.mem_map]
  constructor
  · rintro ⟨⟨name, value⟩, he, rfl⟩
    exact ⟨value, (m.mem_entries_iff name value).1 he⟩
  · rintro ⟨value, hvalue⟩
    exact ⟨(key, value), (m.mem_entries_iff key value).2 hvalue, rfl⟩

/-- A key is contained if something is read under it. -/
theorem contains_eq_isSome (m : SortedMap α) (key : String) :
    m.contains key = (m.get? key).isSome := by
  rw [Bool.eq_iff_iff, ← mem_keys_iff]
  simp [contains, keys]

/-- A sorted map is determined by its lookups. -/
theorem eq_of_get?_eq {m n : SortedMap α} (h : ∀ key, m.get? key = n.get? key) : m = n := by
  -- The lookups determine the entries up to their order.
  have hmem : ∀ e, e ∈ m.entries ↔ e ∈ n.entries := by
    rintro ⟨key, value⟩
    rw [mem_entries_iff, mem_entries_iff, h key]
  have hnodup (o : SortedMap α) : o.entries.Nodup := List.Nodup.of_map Prod.fst o.nodup_keys
  have hperm : m.entries.Perm n.entries :=
    (List.perm_ext_iff_of_nodup (hnodup m) (hnodup n)).2 hmem
  -- Two lists in the same strict order with the same members are equal.
  have hentries : m.entries = n.entries :=
    hperm.eq_of_pairwise
      (fun a b _ _ hab hba => absurd (hab.trans hba) (Key.before_irrefl a.1)) m.inOrder n.inOrder
  cases m
  cases n
  congr

/-! ### Writes in key order -/

/-- An entry behind all others is appended. -/
theorem insertEntry_eq_append {entries : List (String × α)} {key : String}
    (h : ∀ e ∈ entries, Key.Before e.1 key) (value : α) :
    insertEntry key value entries = entries ++ [(key, value)] := by
  induction entries with
  | nil => rfl
  | cons e rest ih =>
    have hbefore : Key.Before e.1 key := h e List.mem_cons_self
    have hne : key ≠ e.1 := fun heq => Key.before_irrefl e.1 (heq ▸ hbefore)
    have hnot : ¬ Key.Before key e.1 := fun hb => Key.before_irrefl key (hb.trans hbefore)
    rw [insertEntry, if_neg hne, if_neg hnot, ih fun d hd => h d (List.mem_cons_of_mem _ hd)]
    rfl

/-- Writes in key order behind those of a map are appended. -/
theorem entries_insertMany_of_inOrder (m : SortedMap α) {writes : List (String × α)}
    (h : InOrder (m.entries ++ writes)) : (m.insertMany writes).entries = m.entries ++ writes := by
  induction writes generalizing m with
  | nil => exact (List.append_nil _).symm
  | cons e rest ih =>
    obtain ⟨key, value⟩ := e
    have hlast : ∀ d ∈ m.entries, Key.Before d.1 key := by
      intro d hd
      exact (List.pairwise_append.1 h).2.2 d hd (key, value) List.mem_cons_self
    have hinsert : (m.insert key value).entries = m.entries ++ [(key, value)] :=
      insertEntry_eq_append hlast value
    change ((m.insert key value).insertMany rest).entries = _
    rw [ih (m.insert key value), hinsert, List.append_assoc, List.singleton_append]
    rw [hinsert, List.append_assoc, List.singleton_append]
    exact h

/-- Writes in key order are the entries that they fill in. -/
theorem entries_ofList_of_inOrder {writes : List (String × α)} (h : InOrder writes) :
    (ofList writes).entries = writes :=
  entries_insertMany_of_inOrder empty h

/-- The entries of a map, written in any order, fill the same map. -/
theorem ofList_of_perm_entries (m : SortedMap α) {writes : List (String × α)}
    (h : writes.Perm m.entries) : ofList writes = m := by
  -- No key is written twice, so every write is a last one.
  have hnodup : (writes.reverse.map Prod.fst).Nodup :=
    ((writes.reverse_perm.trans h).map Prod.fst).nodup_iff.2 m.nodup_keys
  apply eq_of_get?_eq
  intro key
  ext value
  rw [get?_ofList, lastWrite, lookup_eq_some_iff_of_nodup hnodup, List.mem_reverse, h.mem_iff,
    mem_entries_iff]

/-- The entries of a map are its own last writes. -/
theorem lastWrite_entries (m : SortedMap α) (key : String) :
    lastWrite m.entries key = m.get? key := by
  rw [← get?_ofList, m.ofList_of_perm_entries (.refl _)]

/-! ### Maps that answer like last writes -/

/-- A map answers like a list of writes when every read depends on last writes alone. -/
structure Answers (m : SortedMap α) (writes : List (String × α)) : Prop where
  get? : ∀ key, m.get? key = lastWrite writes key
  contains : ∀ key, m.contains key = (m.get? key).isSome
  entries : ∀ key value, (key, value) ∈ m.entries ↔ lastWrite writes key = some value
  keys : m.keys = m.entries.map Prod.fst
  nodup : m.keys.Nodup
  size : m.size = (writes.map Prod.fst).dedup.length
  isEmpty : m.isEmpty = true ↔ m.size = 0

/-- A map that reads like the last writes answers like them. -/
theorem Answers.of_get? {m : SortedMap α} {writes : List (String × α)}
    (h : ∀ key, m.get? key = lastWrite writes key) : m.Answers writes where
  get? := h
  contains := m.contains_eq_isSome
  entries key value := by rw [mem_entries_iff, h key]
  keys := rfl
  nodup := m.nodup_keys
  size := by
    have hperm : m.keys.Perm (writes.map Prod.fst).dedup := by
      refine (List.perm_ext_iff_of_nodup m.nodup_keys (List.nodup_dedup _)).2 ?_
      intro key
      rw [mem_keys_iff, h key, List.mem_dedup, lastWrite_isSome_iff]
    rw [← hperm.length_eq, SortedMap.keys, List.length_map, SortedMap.size]
  isEmpty := by
    rw [SortedMap.isEmpty, SortedMap.size, List.isEmpty_iff, List.length_eq_zero_iff]

/-- A map answers like the writes that filled it. -/
theorem answers_ofList (writes : List (String × α)) : (ofList writes).Answers writes :=
  Answers.of_get? (get?_ofList writes)

end Telemetry.SortedMap
