import ItemAccess.Text.Column
import ItemAccess.Trace.Event

/-!
# Counting events

A profile counts accesses served directly by the kind of container, accesses through slots by
operation and route, and failures by their kind. What never happened has no counter.
-/

namespace ItemAccess

/-- Counters that start when they are first used. -/
abbrev Tally (α : Type) := List (α × Nat)

namespace Tally

variable {α : Type} [DecidableEq α]

def count (t : Tally α) (a : α) : Nat :=
  (t.lookup a).getD 0

def bump : Tally α → α → Tally α
  | [], a => [(a, 1)]
  | (b, n) :: t, a => if b = a then (b, n + 1) :: t else (b, n) :: bump t a

def total (t : Tally α) : Nat :=
  t.foldr (fun row n => row.2 + n) 0

def rows (t : Tally α) (order : List α) : List (α × Nat) :=
  order.filterMap fun a =>
    match t.count a with
    | 0 => none
    | n + 1 => some (a, n + 1)

end Tally

structure Profile where
  direct : Tally BuiltinKind := []
  dispatches : Tally (Operation × Route) := []
  failures : Tally FailureKind := []
deriving DecidableEq

namespace Profile

def note (p : Profile) : Event → Profile
  | .direct kind _ => { p with direct := p.direct.bump kind }
  | .dispatch op route _ => { p with dispatches := p.dispatches.bump (op, route) }
  | .failure _ f => { p with failures := p.failures.bump f.kind }

def directRows (p : Profile) : List (BuiltinKind × Nat) :=
  p.direct.rows BuiltinKind.byName

def dispatchRows (p : Profile) : List ((Operation × Route) × Nat) :=
  p.dispatches.rows (Operation.all.flatMap fun op => Route.all.map (op, ·))

def failureRows (p : Profile) : List (FailureKind × Nat) :=
  p.failures.rows FailureKind.all

def text (p : Profile) : String :=
  let direct := p.directRows.map fun (kind, n) =>
    "  " ++ Column.left 10 kind.name ++ " " ++ Column.right 8 (toString n)
  let dispatches := p.dispatchRows.map fun ((op, route), n) =>
    "  " ++ Column.left 8 op.name ++ " " ++ Column.left 8 route.name ++ " " ++
      Column.right 8 (toString n)
  let failures := p.failureRows.map fun (kind, n) =>
    "errors " ++ kind.name ++ ": " ++ toString n
  let lines := ["fast path hits: " ++ toString p.direct.total] ++ direct ++
    ["generic dispatches: " ++ toString p.dispatches.total] ++ dispatches ++ failures
  String.join (lines.map (· ++ "\n"))

end Profile

end ItemAccess
