import Telemetry.Proofs.Map.LastWrite
/-!
# Maps with their values replaced

A function on values turns a map into one with the same keys. It makes no difference whether the
values are replaced before they are written or afterwards in the map.
-/

namespace Telemetry.SortedMap

variable {α β γ : Type}

/-- The map with every value replaced by another. -/
def mapValues (f : α → β) (m : SortedMap α) : SortedMap β where
  entries := m.entries.map fun e => (e.1, f e.2)
  inOrder := by
    apply List.pairwise_map.2
    exact m.inOrder

variable (f : α → β) (m : SortedMap α)

/-- The value under a key is replaced. -/
@[simp] theorem get?_mapValues (key : String) :
    (m.mapValues f).get? key = (m.get? key).map f :=
  lookup_map_value f m.entries key

@[simp] theorem keys_mapValues : (m.mapValues f).keys = m.keys := by
  rw [keys, keys, mapValues, List.map_map]
  rfl

@[simp] theorem size_mapValues : (m.mapValues f).size = m.size :=
  List.length_map _

/-- Values may be replaced before they are written. -/
theorem mapValues_ofList (writes : List (String × α)) :
    (ofList writes).mapValues f = ofList (writes.map fun e => (e.1, f e.2)) := by
  apply eq_of_get?_eq
  intro key
  rw [get?_mapValues, get?_ofList, get?_ofList, lastWrite_map]

end Telemetry.SortedMap
