import Telemetry.Map.KeyOrder
/-!
# Sorted maps

A finite map from keys to values, held as the list of its entries in key order. The order is
strict, so no key occurs twice, and two maps with the same values under the same keys are equal.
-/

namespace Telemetry

namespace SortedMap

/-- Entries in strict key order. -/
abbrev InOrder {α : Type} (entries : List (String × α)) : Prop :=
  entries.Pairwise fun a b => Key.Before a.1 b.1

/-- Writes a value under a key, at its place in the order. -/
def insertEntry {α : Type} (key : String) (value : α) : List (String × α) → List (String × α)
  | [] => [(key, value)]
  | e :: rest =>
    if key = e.1 then (key, value) :: rest
    else if Key.Before key e.1 then (key, value) :: e :: rest
    else e :: insertEntry key value rest

variable {α : Type} {key : String} {value : α}

/-- A write brings in its own entry only. -/
theorem eq_or_mem_of_mem_insertEntry {entries : List (String × α)} {e : String × α}
    (h : e ∈ insertEntry key value entries) : e = (key, value) ∨ e ∈ entries := by
  induction entries with
  | nil => simpa [insertEntry] using h
  | cons d rest ih =>
    simp only [insertEntry] at h
    split at h
    · rcases List.mem_cons.1 h with h | h
      · exact Or.inl h
      · exact Or.inr (List.mem_cons_of_mem _ h)
    · split at h
      · exact List.mem_cons.1 h
      · rcases List.mem_cons.1 h with h | h
        · exact Or.inr (h ▸ List.mem_cons_self)
        · exact (ih h).imp_right (List.mem_cons_of_mem _)

/-- A write keeps the order of the entries. -/
theorem inOrder_insertEntry {entries : List (String × α)} (h : InOrder entries) :
    InOrder (insertEntry key value entries) := by
  induction entries with
  | nil => simp [insertEntry]
  | cons d rest ih =>
    obtain ⟨hd, hrest⟩ := List.pairwise_cons.1 h
    simp only [insertEntry]
    split
    -- The key is that of the head, so the new head stands before the rest as the old one did.
    next heq => exact List.pairwise_cons.2 ⟨fun e he => heq ▸ hd e he, hrest⟩
    next hne =>
      split
      next hlt =>
        refine List.pairwise_cons.2 ⟨fun e he => ?_, h⟩
        rcases List.mem_cons.1 he with he | he
        · exact he ▸ hlt
        · exact hlt.trans (hd e he)
      -- The write goes on behind the head, and what it adds stands after the head.
      next hge =>
        refine List.pairwise_cons.2 ⟨fun e he => ?_, ih hrest⟩
        rcases eq_or_mem_of_mem_insertEntry he with he | he
        · exact he ▸ Key.before_of_not_before hne hge
        · exact hd e he

end SortedMap

/-- A finite map from keys to values, with its entries in key order. -/
structure SortedMap (α : Type) where
  entries : List (String × α)
  inOrder : SortedMap.InOrder entries

namespace SortedMap

variable {α : Type}

/-- The map without entries. -/
def empty : SortedMap α := ⟨[], List.Pairwise.nil⟩

instance : EmptyCollection (SortedMap α) := ⟨empty⟩

instance : Inhabited (SortedMap α) := ⟨empty⟩

/-- Writes a value under a key. -/
def insert (m : SortedMap α) (key : String) (value : α) : SortedMap α :=
  ⟨insertEntry key value m.entries, inOrder_insertEntry m.inOrder⟩

/-- Writes entries one after another. -/
def insertMany (m : SortedMap α) (entries : List (String × α)) : SortedMap α :=
  entries.foldl (fun m e => m.insert e.1 e.2) m

/-- The map of the given entries. Of several entries with one key the last one counts. -/
def ofList (entries : List (String × α)) : SortedMap α :=
  empty.insertMany entries

/-- The value under a key. -/
def get? (m : SortedMap α) (key : String) : Option α :=
  m.entries.lookup key

/-- Whether there is a value under a key. -/
def contains (m : SortedMap α) (key : String) : Bool :=
  m.entries.any fun e => e.1 = key

/-- The keys in their order. -/
def keys (m : SortedMap α) : List String :=
  m.entries.map Prod.fst

/-- The number of entries. -/
def size (m : SortedMap α) : Nat := m.entries.length

/-- Whether there is no entry. -/
def isEmpty (m : SortedMap α) : Bool := m.entries.isEmpty

end SortedMap

end Telemetry
