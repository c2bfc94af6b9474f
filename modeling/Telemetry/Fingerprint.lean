import Telemetry.Hash.Seed
import Telemetry.Map.Attribute
/-!
# Fingerprints

A fingerprint folds keys and values into one seed that starts at zero: every key, then the data
of its value. It depends on the order of the entries, so only a map that promises an order has a
fingerprint that other maps with the same entries share.

## Design notes

The filtered fingerprint never builds a map: pairs are folded as they are visited, and a key that
occurs twice is folded twice. The predicate is a state machine and is asked once for every pair.
-/

namespace Telemetry

/-- A key is hashed like a text. -/
abbrev Datum.key (k : String) : Datum := .scalar .text k

/-- The seed behind an entry: its key is folded before the data of its value. -/
def Seed.combineEntry (seed : UInt64) (key : String) (v : StoredValue) : UInt64 :=
  v.foldInto (combine seed (.key key))

namespace AttributeMap

variable {k : MapKind}

/-- What is folded for an entry. A map of texts folds them as text values. -/
def heldValue : (k : MapKind) → k.Held → StoredValue
  | .text, t => .scalar .text t
  | .unordered, v => v
  | .ordered, v => v

/-- The seed behind all entries of a map, in its order, from zero. -/
def fingerprint (m : AttributeMap k) : UInt64 :=
  m.entries.foldl (fun seed e => Seed.combineEntry seed e.1 (heldValue k e.2)) 0

/-- The fingerprint of a map where it is reproducible: the map promises an order, or it has too
  few entries for the order to matter. -/
def fingerprint? (m : AttributeMap k) : Option UInt64 :=
  if k = .ordered ∨ m.size ≤ 1 then some (fingerprint m) else none

end AttributeMap

namespace Source

variable {σ : Type}

/-- What a filtered fingerprint has come to. -/
structure Filtering (σ : Type) where
  seed : UInt64
  state : σ
  rejected : List String

/-- The visitor that folds the pair if the predicate accepts its key. It never refuses a pair. -/
def foldAccepted (accepts : σ → String → σ × Bool) (f : Filtering σ) (p : Pair) :
    Filtering σ × Bool :=
  let answer := accepts f.state p.1
  if answer.2 = true then
    ({ f with seed := Seed.combineEntry f.seed p.1 p.2.store, state := answer.1 }, true)
  else
    ({ f with state := answer.1, rejected := p.1 :: f.rejected }, true)

/-- The fingerprint of the pairs whose key the predicate accepts, and the last state of the
  predicate. Every rejected key is reported. -/
def fingerprint (source : Source) (accepts : σ → String → σ × Bool) (state : σ) :
    Traced (UInt64 × σ) :=
  let run := (source.traverse (foldAccepted accepts) ⟨0, state, []⟩).1
  ⟨(run.seed, run.state), run.rejected.reverse.map .skipped⟩

end Source

end Telemetry
