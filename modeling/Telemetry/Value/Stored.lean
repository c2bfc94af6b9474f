import Telemetry.Value.Datum
import Telemetry.Value.Kind
/-!
# Stored values

The values that attribute maps hold. A stored value owns all of its data and is of exactly one
kind; it can be read back as that kind and as no other.
-/

namespace Telemetry

/-- A value that owns all of its data. -/
inductive StoredValue where
  | scalar (s : Scalar) (x : s.Carrier)
  | sequence (s : Scalar) (xs : List s.Carrier)
  | bytes (bs : List UInt8)
deriving DecidableEq

/-- The reason why a value cannot be read back: it is of another kind than the one asked for. -/
structure TypeMismatch where
  expected : Kind
  found : Kind
deriving DecidableEq, Repr

/-- The words in which a mismatch is reported. -/
def TypeMismatch.message (e : TypeMismatch) : String :=
  "attribute type mismatch: expected " ++ e.expected.name ++ ", found " ++ e.found.name

namespace StoredValue

/-- The kind of a value. -/
def kind : StoredValue → Kind
  | scalar s _ => .scalar s
  | sequence s _ => .sequence s
  | bytes _ => .bytes

/-- What a value holds. -/
def payload : (v : StoredValue) → v.kind.Payload
  | scalar _ x => x
  | sequence _ xs => xs
  | bytes bs => bs

/-- The value of a kind that holds the given data. -/
def ofPayload : (k : Kind) → k.Payload → StoredValue
  | .scalar s, x => scalar s x
  | .sequence s, xs => sequence s xs
  | .bytes, bs => bytes bs

/-- Whether a value is a sequence. -/
def isSequence (v : StoredValue) : Bool := v.kind.isSequence

/-- The data of a value in order. A scalar has one datum. -/
def data : StoredValue → List Datum
  | scalar s x => [.scalar s x]
  | sequence s xs => xs.map (.scalar s)
  | bytes bs => bs.map .byte

/-- The characters of a value. In a sequence a space follows each element. -/
def spelling : StoredValue → List Char
  | scalar s x => s.spelling x
  | v@(sequence ..) => Datum.spaced v.data
  | v@(bytes _) => Datum.spaced v.data

/-- The text of a value. -/
def text (v : StoredValue) : String := String.ofList v.spelling

/-- Equality of values: the same kind, and equal data at every position. -/
def same (v w : StoredValue) : Bool :=
  decide (v.kind = w.kind) && Datum.sameAll v.data w.data

/-- Reads a value back as one of a kind. -/
def read (v : StoredValue) (k : Kind) : Except TypeMismatch k.Payload :=
  if h : v.kind = k then .ok (h ▸ v.payload) else .error ⟨k, v.kind⟩

end StoredValue

end Telemetry
