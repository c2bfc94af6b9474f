/-!
# Events

What the library reports while it works: the population of a map from a source, and each key that
a filter keeps out of a fingerprint.
-/

namespace Telemetry

/-- What the library reports about its work. -/
inductive Event where
  /-- A map was populated from a source: the pairs that were visited, and the size that the source
    advertises. -/
  | populated (pairs advertised : Nat)
  | skipped (key : String)
deriving DecidableEq, Repr

/-- The words in which an event is reported. -/
def Event.message : Event → String
  | populated .. => "populated attribute map from source"
  | skipped _ => "skipping attribute excluded from fingerprint"

/-- A result together with the events on the way to it, the earliest one first. -/
structure Traced (α : Type) where
  value : α
  events : List Event
deriving DecidableEq

namespace Traced

variable {α β : Type}

/-- Computations one after another report their events in this order. -/
instance : Monad Traced where
  pure a := ⟨a, []⟩
  bind t f := ⟨(f t.value).value, t.events ++ (f t.value).events⟩

@[simp] theorem value_pure (a : α) : (pure a : Traced α).value = a := rfl

@[simp] theorem events_pure (a : α) : (pure a : Traced α).events = [] := rfl

@[simp] theorem value_bind (t : Traced α) (f : α → Traced β) :
    (t >>= f).value = (f t.value).value := rfl

@[simp] theorem events_bind (t : Traced α) (f : α → Traced β) :
    (t >>= f).events = t.events ++ (f t.value).events := rfl

end Traced

end Telemetry
