import ItemAccess.Attempt
import ItemAccess.Failure.Failure
import ItemAccess.Slot.Registry
import ItemAccess.Store.Hash
import ItemAccess.Store.Release
import ItemAccess.Trace.Tracer

/-!
# The machine

A machine is a store with the types of its objects, the pending place, a tracer and its settings.
Its operations fail with a `Failure`. Its slots fail by the mark `Raised`, and `settle` turns the
mark into the failure that is pending.

The host's slots are arbitrary computations: a `Host` gives each of them its meaning.
-/

namespace ItemAccess

structure Machine (υ : SlotKind → Type) where
  heap : Heap
  registry : Registry υ
  pending : Pending := {}
  tracer : Tracer
  settings : Settings

abbrev Action (υ : SlotKind → Type) (ε : Type) := Attempt (Machine υ) ε

abbrev SlotAction (υ : SlotKind → Type) := Action υ Raised

/-- The meaning of the host's slots, by job. Slots are given the object first; a length is only
read. -/
structure Host (υ : SlotKind → Type) where
  get : υ .get → (obj key : Value) → SlotAction υ Value
  set : υ .set → (obj key value : Value) → SlotAction υ Unit
  del : υ .del → (obj key : Value) → SlotAction υ Unit
  getAt : υ .getAt → (obj : Value) → (i : Int64) → SlotAction υ Value
  setAt : υ .setAt → (obj : Value) → (i : Int64) → (value : Value) → SlotAction υ Unit
  length : υ .length → Machine υ → (obj : Value) → Except Fault Nat
  asIndex : υ .asIndex → (obj : Value) → SlotAction υ Value

namespace Machine

variable {υ : SlotKind → Type} {α ε : Type}

def start (s : Settings) : Machine υ where
  heap := .empty s.limits
  registry := .builtins s.textModel
  tracer := .ofMode s.trace
  settings := s

def readHeap (f : Heap → Except Fault α) : Action υ ε α := do
  let m ← get
  f m.heap

def changeHeap (f : Heap → Except Fault Heap) : Action υ ε Unit := do
  let m ← get
  let h ← f m.heap
  set { m with heap := h }

def retain (v : Value) : Action υ ε Value := do
  changeHeap (·.retain v)
  return v

def release (v : Value) : Action υ ε Unit :=
  changeHeap (·.release v)

def releaseAll (vs : List Value) : Action υ ε Unit :=
  changeHeap (·.releaseAll vs)

def typeOf (v : Value) : Action υ ε TypeId :=
  readHeap (·.typeOf v)

def typeObject (id : TypeId) : Action υ ε (TypeObject υ) := do
  let m ← get
  match m.registry.get? id with
  | some t => return t
  | none => Attempt.fault (.outOfBounds m.registry.types.length id.index)

def typeName (id : TypeId) : Action υ ε String :=
  (·.name) <$> typeObject id

def nameOfType (v : Value) : Action υ ε String := do
  typeName (← typeOf v)

def register (spec : TypeSpec υ) : Action υ ε TypeId := do
  let m ← get
  let (id, registry) := m.registry.register spec
  set { m with registry }
  return id

def note (e : Event) : Action υ ε Unit :=
  modify fun m => { m with tracer := m.tracer.note e }

def setTracer (t : Tracer) : Action υ ε Unit :=
  modify fun m => { m with tracer := t }

def recordPending (e : Exception) : Action υ ε Unit :=
  modify fun m => { m with pending := m.pending.record e }

def fetchPending : Action υ ε (Option Exception) := do
  let m ← get
  let (e, pending) := m.pending.fetch
  set { m with pending }
  return e

def raise (e : Exception) : SlotAction υ α := do
  recordPending e
  throw {}

def complain (c : Complaint) : SlotAction υ α :=
  raise c.exception

def refuse (c : Complaint) : Action υ Failure α :=
  throw (.ofComplaint c)

/-- Fails with what a slot left in the pending place, and clears the place. -/
def takePending : Action υ Failure α := do
  let m ← get
  let (f, pending) := m.pending.settle
  set { m with pending := pending }
  throw f

/-- An operation that calls a slot fails with what the slot left pending. -/
def settle (a : SlotAction υ α) : Action υ Failure α :=
  a.handle fun _ => takePending

/-- A slot that calls an operation fails with the operation's exception. -/
def passOn (a : Action υ Failure α) : SlotAction υ α :=
  a.handle fun f => raise f.exception

end Machine

end ItemAccess
