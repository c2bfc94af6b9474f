import Telemetry.Map.Json
import Telemetry.Proofs.Map.LastWrite
/-!
# Attribute maps as lists of writes

Every way to fill an attribute map is a list of writes that are carried out one after another,
from the empty map or on top of an earlier one.
-/

namespace Telemetry.AttributeMap

variable {k : MapKind}

/-! ### Writes of pairs -/

/-- What a pair writes into a map: its key with what the map holds of its value. -/
def writeOf (p : Pair) : String × k.Held := (p.1, k.hold p.2)

/-- Extending a map writes the pairs one after another. -/
theorem extend_eq_insertMany (m : AttributeMap k) (pairs : List Pair) :
    extend m pairs = m.insertMany (pairs.map writeOf) := by
  rw [extend, SortedMap.insertMany, List.foldl_map]
  rfl

/-- Collecting pairs writes them into an empty map. -/
theorem collect_eq_ofList (pairs : List Pair) :
    (collect pairs : AttributeMap k) = SortedMap.ofList (pairs.map writeOf) :=
  extend_eq_insertMany _ pairs

/-- The visitor of a population writes every pair, counts it and refuses none. -/
theorem visitAll_writePair (m : AttributeMap k) (count : Nat) (pairs : List Pair) :
    Source.visitAll writePair (m, count) pairs = ((extend m pairs, count + pairs.length), true) := by
  induction pairs generalizing m count with
  | nil => rfl
  | cons p rest ih =>
    change Source.visitAll writePair (set m p.1 p.2, count + 1) rest = _
    rw [ih, List.length_cons, Nat.add_assoc, Nat.add_comm 1]
    rfl

/-- A population writes the pairs of the source. -/
theorem value_ofSource (source : Source) :
    (ofSource source : Traced (AttributeMap k)).value =
      SortedMap.ofList (source.pairs.map writeOf) := by
  rw [← collect_eq_ofList]
  simp only [ofSource, Source.traverse, visitAll_writePair]
  rfl

/-! ### Writes of a JSON text -/

/-- The writes that the members of a JSON text stand for, if the text is an object whose members
  can all be read. -/
def writes? (text : String) : Option (List (String × k.Held)) :=
  (Json.parse? text).bind fun
    | .object members => members.mapM entryOfMember?
    | _ => none

/-- Reading a JSON text writes its members into an empty map. -/
theorem decode?_eq_map_writes? (text : String) :
    (decode? text : Option (AttributeMap k)) = (writes? text).map SortedMap.ofList := by
  rw [decode?, writes?]
  cases Json.parse? text with
  | none => rfl
  | some j => cases j <;> rfl

end Telemetry.AttributeMap
