import Telemetry.Hash.Seed
import Telemetry.Map.KeyOrder
/-!
# Hashing in chunks

A text is hashed as the bytes of its characters, however it is cut into chunks. So the hash of a
datum is that of a byte string, and data with equal byte strings have equal hashes.
-/

namespace Telemetry

namespace Utf8

theorem encode_append (a b : List Char) : encode (a ++ b) = encode a ++ encode b :=
  List.flatMap_append

/-- A text is determined by its bytes. -/
theorem encode_injective {a b : List Char} (h : encode a = encode b) : a = b := by
  have hkeys : Key.bytes (String.ofList a) = Key.bytes (String.ofList b) := by
    simpa [Key.bytes] using h
  exact String.ofList_injective (Key.bytes_injective hkeys)

theorem encode_inj {a b : List Char} : encode a = encode b ↔ a = b :=
  ⟨encode_injective, congrArg encode⟩

end Utf8

namespace Fnv1a

/-- A chunk is fed byte by byte. -/
theorem write_eq_foldl (state : UInt64) (chunk : List Char) :
    write state chunk = (Utf8.encode chunk).foldl step state := by
  rw [Utf8.encode, List.foldl_flatMap]
  rfl

/-- Chunks are fed like the bytes of the whole text, from any state on. -/
theorem foldl_write (state : UInt64) (chunks : List (List Char)) :
    chunks.foldl write state = (Utf8.encode chunks.flatten).foldl step state := by
  induction chunks generalizing state with
  | nil => rfl
  | cons chunk rest ih =>
    rw [List.foldl_cons, ih, write_eq_foldl, List.flatten_cons, Utf8.encode_append,
      List.foldl_append]

/-- Chunks are hashed as the bytes of the whole text. -/
theorem hashChunks_eq_hash (chunks : List (List Char)) :
    hashChunks chunks = hash (Utf8.encode chunks.flatten) :=
  foldl_write basis chunks

end Fnv1a

/-- The hash of a datum is that of its byte string. -/
theorem Datum.hash_eq_hash_hashedBytes (d : Datum) : d.hash = Fnv1a.hash d.hashedBytes := by
  cases d with
  | scalar s x => exact Fnv1a.hashChunks_eq_hash (s.hashChunks x)
  | byte b => rfl

end Telemetry
