import Telemetry.Json.Text
import Telemetry.Value.Stored
/-!
# Stored values as JSON

A value is an object with one member, whose name is that of its kind. Integers are written as
such and read only if they are written without fraction and exponent and lie in the range of
their kind. Doubles are read from any number that does not overflow, in double arithmetic; a
double that is no number is written as null, and null is not read back.
-/

namespace Telemetry

namespace Json

/-- The text that a document is. -/
def string? : Json → Option String
  | string s => some s
  | _ => none

/-- The number that a document is. -/
def number? : Json → Option Number
  | number n => some n
  | _ => none

/-- The integer that a document is. -/
def integer? (j : Json) : Option Int :=
  j.number?.bind Number.integer?

/-- The items of a document that is an array, each of them read. -/
def items? {α : Type} (read : Json → Option α) : Json → Option (List α)
  | array items => items.mapM read
  | _ => none

end Json

/-! ### Integers of fixed width -/

/-- An integer of 32 bits, if it is in range. -/
def int32? (n : Int) : Option Int32 :=
  if -2 ^ 31 ≤ n ∧ n < 2 ^ 31 then some (Int32.ofInt n) else none

/-- A natural number of 32 bits, if it is in range. -/
def uint32? (n : Int) : Option UInt32 :=
  if 0 ≤ n ∧ n < 2 ^ 32 then some (UInt32.ofNat n.toNat) else none

/-- An integer of 64 bits, if it is in range. -/
def int64? (n : Int) : Option Int64 :=
  if -2 ^ 63 ≤ n ∧ n < 2 ^ 63 then some (Int64.ofInt n) else none

/-- A natural number of 64 bits, if it is in range. -/
def uint64? (n : Int) : Option UInt64 :=
  if 0 ≤ n ∧ n < 2 ^ 64 then some (UInt64.ofNat n.toNat) else none

/-- A byte, if it is in range. -/
def byte? (n : Int) : Option UInt8 :=
  if 0 ≤ n ∧ n < 2 ^ 8 then some (UInt8.ofNat n.toNat) else none

/-! ### Single values -/

namespace Scalar

/-- The document of a scalar. A double that is no number becomes null. -/
def toJson : (s : Scalar) → s.Carrier → Json
  | bool, b => .bool b
  | int32, n => .number (.ofInt n.toInt)
  | uint32, n => .number (.ofInt n.toNat)
  | int64, n => .number (.ofInt n.toInt)
  | uint64, n => .number (.ofInt n.toNat)
  | double, x => if Binary64.IsFinite x then .number (.ofDouble x) else .null
  | text, t => .string t

/-- The scalar of a document. -/
def ofJson? : (s : Scalar) → Json → Option s.Carrier
  | bool, j =>
    match j with
    | .bool b => some b
    | _ => none
  | int32, j => j.integer?.bind int32?
  | uint32, j => j.integer?.bind uint32?
  | int64, j => j.integer?.bind int64?
  | uint64, j => j.integer?.bind uint64?
  | double, j => j.number?.bind Json.Number.double?
  | text, j => j.string?

end Scalar

/-! ### Kinds -/

namespace Kind

/-- The document of a kind is its name. -/
def toJson (k : Kind) : Json := .string k.name

/-- The kind that a document names, as a text or as an object with a null under the name. -/
def ofJson? : Json → Option Kind
  | .string n => ofName? n
  | .object [(n, .null)] => ofName? n
  | _ => none

/-- The document of what a value of the kind holds. -/
def payloadToJson : (k : Kind) → k.Payload → Json
  | scalar s, x => s.toJson x
  | sequence s, xs => .array (xs.map s.toJson)
  | bytes, bs => .array (bs.map fun b => .number (.ofInt b.toNat))

/-- What a value of the kind holds, from its document. -/
def payloadOfJson? : (k : Kind) → Json → Option k.Payload
  | scalar s, j => s.ofJson? j
  | sequence s, j => j.items? s.ofJson?
  | bytes, j => j.items? fun i => i.integer?.bind byte?

end Kind

/-! ### Values -/

namespace StoredValue

/-- The document of a value: an object with one member, named for the kind. -/
def toJson (v : StoredValue) : Json :=
  .object [(v.kind.name, v.kind.payloadToJson v.payload)]

/-- The value of an object with one member, which is named for its kind. -/
def ofJson? : Json → Option StoredValue
  | .object [(n, j)] => do
    let k ← Kind.ofName? n
    let payload ← k.payloadOfJson? j
    return ofPayload k payload
  | _ => none

end StoredValue

/-- The JSON text of a value. -/
def StoredValue.encode (v : StoredValue) : String := v.toJson.render

/-- The value of a JSON text. -/
def StoredValue.decode? (text : String) : Option StoredValue :=
  (Json.parse? text).bind ofJson?

/-- The JSON text of a kind. -/
def Kind.encode (k : Kind) : String := k.toJson.render

/-- The kind of a JSON text. -/
def Kind.decode? (text : String) : Option Kind :=
  (Json.parse? text).bind ofJson?

end Telemetry
