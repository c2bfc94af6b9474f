import Telemetry.Event
import Telemetry.Source
/-!
# Attribute maps

The maps that recorded attributes are copied into. All of them are filled pair by pair, and a
later write under a key replaces an earlier one. They differ in what they hold, text or stored
values, and in whether they promise an order of enumeration.

## Design notes

Maps without a promised order keep their entries sorted as well. The promise shows only where the
order of enumeration would become visible, which is in fingerprints.
-/

namespace Telemetry

/-- The kinds of attribute maps. -/
inductive MapKind where
  | text
  | unordered
  | ordered
deriving DecidableEq, Repr

namespace MapKind

/-- What a map of the kind holds under a key. -/
@[reducible] def Held : MapKind → Type
  | text => String
  | unordered => StoredValue
  | ordered => StoredValue

/-- What a map of the kind holds for a recorded value. -/
def hold : (k : MapKind) → RecordedValue → k.Held
  | text, v => v.text
  | unordered, v => v.store
  | ordered, v => v.store

/-- Equality of what maps of the kind hold. -/
def sameHeld : (k : MapKind) → k.Held → k.Held → Bool
  | text, a, b => decide (a = b)
  | unordered, a, b => StoredValue.same a b
  | ordered, a, b => StoredValue.same a b

end MapKind

/-- A map of a kind. -/
abbrev AttributeMap (k : MapKind) := SortedMap k.Held

namespace AttributeMap

variable {k : MapKind}

/-- Writes a value under a key. -/
def set (m : AttributeMap k) (key : String) (v : RecordedValue) : AttributeMap k :=
  m.insert key (k.hold v)

/-- Writes pairs one after another. -/
def extend (m : AttributeMap k) (pairs : List Pair) : AttributeMap k :=
  pairs.foldl (fun m p => set m p.1 p.2) m

/-- The map of pairs that are written one after another. -/
def collect (pairs : List Pair) : AttributeMap k :=
  extend SortedMap.empty pairs

/-- The visitor that writes every pair into a map and counts the pairs. It never refuses one. -/
def writePair (state : AttributeMap k × Nat) (p : Pair) : (AttributeMap k × Nat) × Bool :=
  ((set state.1 p.1 p.2, state.2 + 1), true)

/-- The map of all pairs of a source. The event tells how many pairs were visited and how many the
  source advertises. -/
def ofSource (source : Source) : Traced (AttributeMap k) :=
  let run := source.traverse writePair (SortedMap.empty, 0)
  ⟨run.1.1, [.populated run.1.2 source.size]⟩

/-- The map of an optional source: an absent one gives the empty map, without any event. -/
def ofOptional : Option Source → Traced (AttributeMap k)
  | none => pure SortedMap.empty
  | some source => ofSource source

/-- Entries are compared in order, their keys and what is held under them. -/
def sameEntries : List (String × k.Held) → List (String × k.Held) → Bool
  | [], [] => true
  | d :: ds, e :: es => decide (d.1 = e.1) && k.sameHeld d.2 e.2 && sameEntries ds es
  | _, _ => false

/-- Maps are equal if their entries are. -/
def same (m n : AttributeMap k) : Bool :=
  sameEntries m.entries n.entries

end AttributeMap

end Telemetry
