import Telemetry.Map.Sorted
import Telemetry.Value.Recorded
/-!
# Attribute sources

A source enumerates pairs of a key and a recorded value, and advertises how many they are. The
advertised size is a hint: a custom source may advertise any number.
-/

namespace Telemetry

/-- A key with the value recorded under it. -/
abbrev Pair := String × RecordedValue

/-- Something that enumerates pairs. -/
inductive Source where
  | list (pairs : List Pair)
  | array (pairs : Array Pair)
  | sorted (pairs : SortedMap RecordedValue)
  /-- A list of pairs that advertises a size of its own choice. -/
  | custom (pairs : List Pair) (advertised : Nat)

namespace Source

/-- The pairs in the order in which a source enumerates them. -/
def pairs : Source → List Pair
  | list pairs => pairs
  | array pairs => pairs.toList
  | sorted pairs => pairs.entries
  | custom pairs _ => pairs

/-- How many pairs a source advertises. A custom source may say anything. -/
def size : Source → Nat
  | list pairs => pairs.length
  | array pairs => pairs.size
  | sorted pairs => pairs.size
  | custom _ advertised => advertised

variable {σ : Type}

/-- Hands pairs to a visitor until it refuses one. The result is the last state of the visitor,
  and whether it refused none. -/
def visitAll (visit : σ → Pair → σ × Bool) (state : σ) : List Pair → σ × Bool
  | [] => (state, true)
  | p :: rest =>
    let next := visit state p
    if next.2 = true then visitAll visit next.1 rest else next

/-- Hands the pairs of a source to a visitor until it refuses one. -/
def traverse (source : Source) (visit : σ → Pair → σ × Bool) (state : σ) : σ × Bool :=
  visitAll visit state source.pairs

/-- A visitor that keeps each pair, the newest one first, and refuses every pair that brings
  their number to the limit or beyond it. -/
def keepUntil (limit : Option Nat) (kept : List Pair) (p : Pair) : List Pair × Bool :=
  (p :: kept, limit.all fun n => kept.length + 1 < n)

/-- The pairs that a traversal visits when it is stopped after `limit` of them, and whether it
  ran to the end. At least one pair is visited if there is any. -/
def take (source : Source) (limit : Option Nat) : List Pair × Bool :=
  let run := source.traverse (keepUntil limit) []
  (run.1.reverse, run.2)

end Source

end Telemetry
