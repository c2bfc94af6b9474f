import Telemetry.Text.RawText
import Telemetry.Value.Stored
/-!
# Recorded values

The values that instrumentation hands over. They differ from stored values in that a text may
come as raw bytes, which are decoded when the value is stored or rendered.
-/

namespace Telemetry

/-- A value as it is handed over for recording. -/
inductive RecordedValue where
  | scalar (s : Scalar) (x : s.Carrier)
  | rawText (r : RawText)
  | sequence (s : Scalar) (xs : List s.Carrier)
  | bytes (bs : List UInt8)
deriving DecidableEq

namespace RecordedValue

/-- The stored value of the same content. Raw text is decoded, all else is kept as it is. -/
def store : RecordedValue → StoredValue
  | scalar s x => .scalar s x
  | rawText r => .scalar .text r.decoded
  | sequence s xs => .sequence s xs
  | bytes bs => .bytes bs

/-- The characters of a recorded value. Raw text is decoded for them. -/
def spelling : RecordedValue → List Char
  | scalar s x => s.spelling x
  | rawText r => Utf8.decode r.bytes
  | sequence s xs => Datum.spaced (xs.map (.scalar s))
  | bytes bs => Datum.spaced (bs.map .byte)

/-- The text of a recorded value. -/
def text (v : RecordedValue) : String := String.ofList v.spelling

/-- Equality of recorded values: the same form, the same kind, and equal data at every position.
  Raw texts are equal when their bytes are. -/
def same : RecordedValue → RecordedValue → Bool
  | scalar s x, scalar t y => Datum.same (.scalar s x) (.scalar t y)
  | rawText r, rawText q => decide (r = q)
  | sequence s xs, sequence t ys =>
    decide (s = t) && Datum.sameAll (xs.map (.scalar s)) (ys.map (.scalar t))
  | bytes as, bytes bs => decide (as = bs)
  | _, _ => false

end RecordedValue

end Telemetry
