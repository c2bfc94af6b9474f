import Telemetry.Text.Utf8
/-!
# Raw text

Text as bytes that a zero byte ends, as it crosses the boundary of a foreign program. Nothing is
known of its encoding; it is read as UTF-8 with replacements.
-/

namespace Telemetry

/-- The bytes of a text before the zero byte that ends it. -/
structure RawText where
  bytes : List UInt8
  /-- A zero byte would have ended the text. -/
  zero_not_mem : 0 ∉ bytes
deriving DecidableEq

namespace RawText

/-- The raw text at the start of a buffer: it ends before the first zero byte, or with the buffer. -/
def ofBytes (buffer : List UInt8) : RawText where
  bytes := buffer.takeWhile (· ≠ 0)
  zero_not_mem h := by simpa using List.all_eq_true.1 List.all_takeWhile 0 h

/-- The text as which the bytes are read. -/
def decoded (r : RawText) : String :=
  String.ofList (Utf8.decode r.bytes)

end RawText

end Telemetry
