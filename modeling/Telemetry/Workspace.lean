import Telemetry.Fingerprint
import Telemetry.Map.Json
/-!
# Workspaces

Four registers that hold attribute maps of one kind, and the actions on them. A run carries out
actions one after another and observes, after each of them, the register it was addressed to.
-/

namespace Telemetry

/-- The number of a register. -/
abbrev Register := Fin 4

/-- Four registers with maps of one kind. -/
abbrev Workspace (k : MapKind) := Vector (AttributeMap k) 4

namespace Workspace

/-- Something that can be done to the map of a register. -/
inductive Action where
  | new
  | ofSource (source : Source)
  | ofOptional (source : Option Source)
  | collect (pairs : List Pair)
  | extend (pairs : List Pair)
  | set (key : String) (value : RecordedValue)
  | get (key : String)
  | contains (key : String)
  | entries
  | keys
  | encode
  /-- Replaces the map by that of a JSON text, if the text has one. -/
  | decode (text : String)
  | clone (target : Register)
  | compare (other : Register)

/-- What is observed after an action. -/
inductive Result (k : MapKind) where
  | done
  | value (held : Option k.Held)
  | answer (yes : Bool)
  | entries (entries : List (String × k.Held))
  | keys (keys : List String)
  | text (text : String)
  | rejected

/-- What is observed after an action. -/
structure Observation (k : MapKind) where
  result : Result k
  map : AttributeMap k

variable {k : MapKind}

/-- All registers hold the empty map. -/
def empty : Workspace k := Vector.replicate 4 SortedMap.empty

/-- The registers after one of them was given a map. -/
def put (w : Workspace k) (r : Register) (m : AttributeMap k) : Workspace k := w.set r m

/-- Carries out one action on a register. The result comes with the registers behind the action, and
  with the events on the way. -/
def perform (w : Workspace k) (r : Register) : Action → Traced (Result k × Workspace k)
  | .new => pure (.done, w.put r SortedMap.empty)
  | .ofSource source => do return (.done, w.put r (← AttributeMap.ofSource source))
  | .ofOptional source => do return (.done, w.put r (← AttributeMap.ofOptional source))
  | .collect pairs => pure (.done, w.put r (AttributeMap.collect pairs))
  | .extend pairs => pure (.done, w.put r (AttributeMap.extend w[r] pairs))
  | .set key value => pure (.done, w.put r (AttributeMap.set w[r] key value))
  | .get key => pure (.value (w[r].get? key), w)
  | .contains key => pure (.answer (w[r].contains key), w)
  | .entries => pure (.entries w[r].entries, w)
  | .keys => pure (.keys w[r].keys, w)
  | .encode => pure (.text (AttributeMap.encode w[r]), w)
  | .decode text =>
    match AttributeMap.decode? text with
    | some m => pure (.done, w.put r m)
    | none => pure (.rejected, w)
  | .clone target => pure (.done, w.put target w[r])
  | .compare other => pure (.answer (AttributeMap.same w[r] w[other]), w)

/-- Carries out actions one after another, each on its register, and observes each of them. -/
def run (w : Workspace k) : List (Register × Action) → Traced (List (Observation k) × Workspace k)
  | [] => pure ([], w)
  | (r, action) :: rest => do
    let (result, w) ← w.perform r action
    let (observations, final) ← run w rest
    return (⟨result, w[r]⟩ :: observations, final)

end Workspace

end Telemetry
