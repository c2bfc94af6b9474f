import Telemetry.Decimal.General
/-!
# Scalars

The seven kinds of a single value, the data each of them holds, and the two renderings of such
data: the text that people read and the text that is hashed.
-/

namespace Telemetry

/-- The seven kinds of a single value. -/
inductive Scalar where
  | bool
  | int32
  | uint32
  | int64
  | uint64
  | double
  | text
deriving DecidableEq, Repr

namespace Scalar

/-- The data that a scalar of the kind holds. -/
@[reducible] def Carrier : Scalar → Type
  | bool => Bool
  | int32 => Int32
  | uint32 => UInt32
  | int64 => Int64
  | uint64 => UInt64
  | double => Binary64
  | text => String

/-- Data of one kind are equal or not, doubles bit for bit. -/
instance decEqCarrier : (s : Scalar) → DecidableEq s.Carrier
  | bool => inferInstanceAs (DecidableEq Bool)
  | int32 => inferInstanceAs (DecidableEq Int32)
  | uint32 => inferInstanceAs (DecidableEq UInt32)
  | int64 => inferInstanceAs (DecidableEq Int64)
  | uint64 => inferInstanceAs (DecidableEq UInt64)
  | double => inferInstanceAs (DecidableEq Binary64)
  | text => inferInstanceAs (DecidableEq String)

/-- The text of a scalar: `true` or `false`, base-ten digits, six decimal places, or the text
  itself. -/
def spelling : (s : Scalar) → s.Carrier → List Char
  | bool, b => if b = true then ['t', 'r', 'u', 'e'] else ['f', 'a', 'l', 's', 'e']
  | int32, n => Decimal.integer n.toInt
  | uint32, n => Nat.toDigits 10 n.toNat
  | int64, n => Decimal.integer n.toInt
  | uint64, n => Nat.toDigits 10 n.toNat
  | double, x => x.fixedText
  | text, t => t.toList

/-- The text of an integer comes as its sign and its digits. -/
def integerChunks (n : Int) : List (List Char) :=
  [Decimal.sign (decide (n < 0)), Nat.toDigits 10 n.natAbs]

/-- The text that is hashed for a scalar: `1` or `0`, base-ten digits, six significant digits, or
  the text itself. -/
def hashChunks : (s : Scalar) → s.Carrier → List (List Char)
  | bool, b => [[if b = true then '1' else '0']]
  | int32, n => integerChunks n.toInt
  | uint32, n => [Nat.toDigits 10 n.toNat]
  | int64, n => integerChunks n.toInt
  | uint64, n => [Nat.toDigits 10 n.toNat]
  | double, x => x.generalChunks
  | text, t => [t.toList]

/-- Equality of two scalars of one kind. Doubles compare as numbers, all others exactly. -/
def same : (s : Scalar) → s.Carrier → s.Carrier → Bool
  | double, x, y => Binary64.same x y
  | bool, a, b => decide (a = b)
  | int32, a, b => decide (a = b)
  | uint32, a, b => decide (a = b)
  | int64, a, b => decide (a = b)
  | uint64, a, b => decide (a = b)
  | text, a, b => decide (a = b)

end Scalar

end Telemetry
