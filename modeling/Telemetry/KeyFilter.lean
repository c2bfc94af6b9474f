/-!
# Key filters

Which keys take part in a fingerprint. A filter may count how often it has been asked.
-/

namespace Telemetry

/-- A rule that accepts or rejects keys. -/
inductive KeyFilter where
  | all
  | none
  | startsWith (start : String)
  | oneOf (keys : List String)
  | noneOf (keys : List String)
  /-- Accepts the first `count` keys that it is asked about. -/
  | first (count : Nat)
deriving DecidableEq, Repr

namespace KeyFilter

/-- Whether a key is accepted after `earlier` other questions. -/
def accepts (filter : KeyFilter) (earlier : Nat) (key : String) : Bool :=
  match filter with
  | all => true
  | none => false
  | startsWith start => start.toList.isPrefixOf key.toList
  | oneOf keys => decide (key ∈ keys)
  | noneOf keys => decide (key ∉ keys)
  | first count => decide (earlier < count)

/-- Asks about a key. The state holds the keys asked about so far, the newest one first. -/
def ask (filter : KeyFilter) (asked : List String) (key : String) : List String × Bool :=
  (key :: asked, filter.accepts asked.length key)

end KeyFilter

end Telemetry
