import Telemetry.Value.Scalar
/-!
# Kinds of stored values

A stored value is a scalar, a sequence of scalars of one kind, or a sequence of bytes. Each of the
fifteen kinds has a name of its own.
-/

namespace Telemetry

/-- The fifteen kinds of values: seven of scalars, seven of sequences of them, and that of bytes. -/
inductive Kind where
  | scalar (s : Scalar)
  | sequence (s : Scalar)
  | bytes
deriving DecidableEq, Repr

/-- The name of a kind of scalars. -/
def Scalar.name : Scalar → String
  | bool => "Bool"
  | int32 => "Int"
  | uint32 => "UInt"
  | int64 => "Int64"
  | uint64 => "UInt64"
  | double => "Double"
  | text => "String"

/-- The seven kinds of scalars. -/
def Scalar.all : List Scalar :=
  [bool, int32, uint32, int64, uint64, double, text]

namespace Kind

/-- The fifteen kinds. -/
def all : List Kind :=
  Scalar.all.map scalar ++ Scalar.all.map sequence ++ [bytes]

/-- The name of a kind. That of a sequence is the name of its elements followed by `Array`. -/
def name : Kind → String
  | scalar s => s.name
  | sequence s => s.name ++ "Array"
  | bytes => "ByteArray"

/-- The kind of a name. -/
def ofName? (n : String) : Option Kind :=
  all.find? fun k => k.name = n

/-- The data that a value of the kind holds. -/
@[reducible] def Payload : Kind → Type
  | scalar s => s.Carrier
  | sequence s => List s.Carrier
  | bytes => List UInt8

/-- Whether values of the kind are sequences. -/
def isSequence : Kind → Bool
  | scalar _ => false
  | sequence _ => true
  | bytes => true

end Kind

end Telemetry
