import Telemetry.Text.Utf8
/-!
# The order of keys

Keys are ordered by their UTF-8 bytes, byte string against byte string.
-/

namespace Telemetry.Key

/-- The UTF-8 bytes of a key. -/
def bytes (k : String) : List UInt8 := Utf8.encode k.toList

/-- A key stands before another one when its bytes do in lexicographic order. -/
def Before (a b : String) : Prop := bytes a < bytes b

instance (a b : String) : Decidable (Before a b) :=
  inferInstanceAs (Decidable (bytes a < bytes b))

/-- A key is determined by its bytes. -/
theorem bytes_injective {a b : String} (h : bytes a = bytes b) : a = b := by
  have hencode : a.toList.utf8Encode = b.toList.utf8Encode :=
    congrArg List.toByteArray h
  rw [String.utf8Encode_toList, String.utf8Encode_toList] at hencode
  exact String.toByteArray_inj.1 hencode

/-- No key comes before itself. -/
theorem before_irrefl (a : String) : ¬ Before a a := List.lt_irrefl _

/-- The order of keys is transitive. -/
theorem Before.trans {a b c : String} (hab : Before a b) (hbc : Before b c) : Before a c :=
  List.lt_trans hab hbc

/-- Of two keys one comes before the other. -/
theorem before_of_not_before {a b : String} (hne : a ≠ b) (h : ¬ Before a b) : Before b a := by
  rcases Decidable.em (Before b a) with hba | hba
  · exact hba
  · exact absurd (bytes_injective (List.le_antisymm hba h)) hne

end Telemetry.Key
