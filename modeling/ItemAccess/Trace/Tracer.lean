import ItemAccess.Settings
import ItemAccess.Trace.Log
import ItemAccess.Trace.Profile
import ItemAccess.Trace.Recording

/-!
# Tracers

A tracer is told every event of item access. One kind forgets them, one keeps them, one counts them
and one writes a line for each.
-/

namespace ItemAccess

inductive Tracer where
  | silent
  | recording (r : Recording)
  | profiling (p : Profile)
  | logging (l : Log)
deriving DecidableEq

namespace Tracer

def note : Tracer → Event → Tracer
  | silent, _ => silent
  | recording r, e => recording (r.note e)
  | profiling p, e => profiling (p.note e)
  | logging l, e => logging (l.note e)

def clear : Tracer → Tracer
  | recording r => recording r.clear
  | t => t

def ofMode : TraceMode → Tracer
  | .off => silent
  | .stderr => logging {}

end Tracer

end ItemAccess
