import Telemetry.Hash.Fnv1a
import Telemetry.Value.Stored
/-!
# Folding data into a seed

Every datum is hashed on its own, and its hash is mixed into a running seed. A value folds its
data in order, so a sequence of two elements folds like two single values.
-/

namespace Telemetry

/-- The hash of a datum. A scalar is hashed as its rendering, a byte as it is. -/
def Datum.hash : Datum → UInt64
  | scalar s x => Fnv1a.hashChunks (s.hashChunks x)
  | byte b => Fnv1a.hash [b]

/-- The bytes of which the hash of a datum is the hash. -/
def Datum.hashedBytes : Datum → List UInt8
  | scalar s x => Utf8.encode (s.hashChunks x).flatten
  | byte b => [b]

namespace Seed

/-- The constant that is added whenever a hash is mixed in. -/
def increment : UInt64 := 0x9e3779b9

/-- The seed after a hash has been mixed in, modulo `2 ^ 64`. -/
def mix (seed hash : UInt64) : UInt64 :=
  seed ^^^ (hash + increment + seed <<< 6 + seed >>> 2)

/-- The seed behind one datum. -/
def combine (seed : UInt64) (d : Datum) : UInt64 :=
  mix seed d.hash

end Seed

/-- The seed after a value has been folded in: a scalar is one datum, a sequence folds its
  elements in order. -/
def StoredValue.foldInto (seed : UInt64) : StoredValue → UInt64
  | scalar s x => Seed.combine seed (.scalar s x)
  | sequence s xs => xs.foldl (fun seed x => Seed.combine seed (.scalar s x)) seed
  | bytes bs => bs.foldl (fun seed b => Seed.combine seed (.byte b)) seed

/-- One folding: of a single datum, or of a whole value. -/
inductive FoldStep where
  | datum (d : Datum)
  | value (v : StoredValue)
deriving DecidableEq

namespace FoldStep

/-- The seed behind one folding. -/
def apply (seed : UInt64) : FoldStep → UInt64
  | datum d => Seed.combine seed d
  | value v => v.foldInto seed

/-- The seeds that a list of foldings goes through, without the first one. -/
def seeds (seed : UInt64) : List FoldStep → List UInt64
  | [] => []
  | s :: rest => s.apply seed :: seeds (s.apply seed) rest

end FoldStep

end Telemetry
