import Telemetry.Text.Utf8
/-!
# The 64-bit FNV-1a hash

Each byte is joined to the state by exclusive or, and the state is then multiplied by a fixed
prime, modulo `2 ^ 64`.
-/

namespace Telemetry.Fnv1a

/-- The offset basis, with which every hash starts. -/
def basis : UInt64 := 14695981039346656037

/-- The prime of the 64-bit hash. -/
def prime : UInt64 := 1099511628211

/-- The state after one more byte. -/
def step (state : UInt64) (b : UInt8) : UInt64 :=
  (state ^^^ b.toUInt64) * prime

/-- The hash of a byte string. -/
def hash (bytes : List UInt8) : UInt64 :=
  bytes.foldl step basis

/-- The state after one more chunk of text. -/
def write (state : UInt64) (chunk : List Char) : UInt64 :=
  chunk.foldl (fun state c => (String.utf8EncodeChar c).foldl step state) state

/-- The hash of a text that comes in chunks. -/
def hashChunks (chunks : List (List Char)) : UInt64 :=
  chunks.foldl write basis

end Telemetry.Fnv1a
