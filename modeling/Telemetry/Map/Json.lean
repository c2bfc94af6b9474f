import Telemetry.Map.Attribute
import Telemetry.Value.Json
/-!
# Attribute maps as JSON

A map is an object with its keys as names. Reading writes the members into an empty map one after
another, so the last member of a name counts; but every member has to be readable.
-/

namespace Telemetry

namespace MapKind

/-- The document of what a map of the kind holds. -/
def heldToJson : (k : MapKind) → k.Held → Json
  | text, t => .string t
  | unordered, v => v.toJson
  | ordered, v => v.toJson

/-- What a map of the kind holds, from its document. -/
def heldOfJson? : (k : MapKind) → Json → Option k.Held
  | text, j => j.string?
  | unordered, j => StoredValue.ofJson? j
  | ordered, j => StoredValue.ofJson? j

end MapKind

namespace AttributeMap

variable {k : MapKind}

/-- A map as an object, with its keys as names in key order. -/
def toJson (m : AttributeMap k) : Json :=
  .object (m.entries.map fun e => (e.1, k.heldToJson e.2))

/-- The entry of a member. -/
def entryOfMember? (member : String × Json) : Option (String × k.Held) :=
  (k.heldOfJson? member.2).map fun held => (member.1, held)

/-- The map of an object. A later member of a name replaces an earlier one, but both have to be
  readable. -/
def ofJson? : Json → Option (AttributeMap k)
  | .object members => (members.mapM entryOfMember?).map SortedMap.ofList
  | _ => none

/-- The JSON text of a map. -/
def encode (m : AttributeMap k) : String := (toJson m).render

/-- The map of a JSON text. -/
def decode? (text : String) : Option (AttributeMap k) :=
  (Json.parse? text).bind ofJson?

end AttributeMap

end Telemetry
