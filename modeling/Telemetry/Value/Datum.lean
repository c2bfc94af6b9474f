import Telemetry.Value.Scalar
/-!
# Data

A datum is what a value consists of: one scalar, or one byte of a byte sequence. Values of
different kinds are compared and hashed through the lists of their data.
-/

namespace Telemetry

/-- One scalar, or one byte of a byte sequence. -/
inductive Datum where
  | scalar (s : Scalar) (x : s.Carrier)
  | byte (b : UInt8)
deriving DecidableEq

namespace Datum

/-- The text of a datum. That of a byte is its number. -/
def spelling : Datum → List Char
  | scalar s x => s.spelling x
  | byte b => Nat.toDigits 10 b.toNat

/-- The text of a sequence: every element is followed by one space, the last one too. -/
def spaced (data : List Datum) : List Char :=
  data.flatMap fun d => d.spelling ++ [' ']

/-- Equality of data: the same kind and equal contents, doubles being compared as numbers. -/
def same : Datum → Datum → Bool
  | scalar s x, scalar t y => if h : s = t then t.same (h ▸ x) y else false
  | byte a, byte b => decide (a = b)
  | _, _ => false

/-- Lists of data are compared one by one, and lists of different lengths differ. -/
def sameAll : List Datum → List Datum → Bool
  | [], [] => true
  | d :: ds, e :: es => d.same e && sameAll ds es
  | _, _ => false

end Datum

end Telemetry
