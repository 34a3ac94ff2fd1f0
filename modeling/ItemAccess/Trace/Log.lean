import ItemAccess.Text.Column
import ItemAccess.Trace.Event

/-!
# Logging events

A log has one line for each event it admits. Above the line that reaches its limit stands a notice,
and nothing follows that line.
-/

namespace ItemAccess

def Event.line : Event → String
  | .direct kind position =>
    "[subscript] fast " ++ kind.name ++ " position=" ++ toString position
  | .dispatch op route type =>
    "[subscript] " ++ Column.left 8 op.name ++ " via " ++ Column.left 8 route.name ++ " type=" ++
      type
  | .failure op f =>
    "[subscript] " ++ Column.left 8 op.name ++ " failed (" ++ f.kind.name ++ "): " ++ f.text

structure Log where
  limit : Option Nat := none
  admitted : Nat := 0
  lines : List String := []
deriving DecidableEq

namespace Log

def notice (limit : Nat) : String :=
  "--- subscript trace limit reached (" ++ toString limit ++ " events) ---"

def note (l : Log) (e : Event) : Log :=
  match l.limit with
  | none => { l with admitted := l.admitted + 1, lines := l.lines ++ [e.line] }
  | some limit =>
    if limit ≤ l.admitted then l
    else if l.admitted + 1 = limit then
      { l with admitted := l.admitted + 1, lines := l.lines ++ [notice limit, e.line] }
    else { l with admitted := l.admitted + 1, lines := l.lines ++ [e.line] }

def join (lines : List String) : String :=
  String.join (lines.map (· ++ "\n"))

def text (l : Log) : String :=
  join l.lines

end Log

end ItemAccess
