import ItemAccess.Trace.Event

/-!
# Recording events
-/

namespace ItemAccess

structure Recording where
  limit : Option Nat := none
  events : List Event := []
deriving DecidableEq

namespace Recording

def hasRoom (r : Recording) : Bool :=
  match r.limit with
  | none => true
  | some limit => decide (r.events.length < limit)

def note (r : Recording) (e : Event) : Recording :=
  if r.hasRoom then { r with events := r.events ++ [e.recorded] } else r

def clear (r : Recording) : Recording :=
  { r with events := [] }

end Recording

end ItemAccess
