import ItemAccess.Failure.Fault
import ItemAccess.Object.Body
import ItemAccess.Store.Meter

/-!
# The store of objects

The store is a row of slots. A slot holds an entry, which is an object with its reference count and
the bytes it is charged for, or it is empty and waits on the free list. The slot freed last is used
again first. For every byte there is at most one shared one-byte string, which the store itself
holds.
-/

namespace ItemAccess

structure Entry where
  count : Nat
  body : Body
  charge : Nat
deriving DecidableEq

structure Heap where
  slots : Array (Option Entry) := #[]
  free : List Handle := []
  meter : Meter
  byteStrings : List (UInt8 × Handle) := []
deriving DecidableEq

namespace Heap

def empty (limits : Limits) : Heap := { meter := { limits } }

def lookup? (h : Heap) (r : Handle) : Option Entry :=
  h.slots[r.index]?.join

def entry (h : Heap) (t : Touch) (r : Handle) : Except Fault Entry :=
  match h.slots[r.index]? with
  | some (some e) => .ok e
  | some none => .error (.freed t)
  | none => .error (.missing t)

def isLive (h : Heap) (r : Handle) : Bool :=
  (h.lookup? r).isSome

def count? (h : Heap) (r : Handle) : Option Nat :=
  (h.lookup? r).map (·.count)

def body (h : Heap) (r : Handle) : Except Fault Body :=
  (h.entry .get r).map (·.body)

def put (h : Heap) (r : Handle) (e : Entry) : Heap :=
  { h with slots := h.slots.setIfInBounds r.index (some e) }

/-- Empties a slot, which joins the free list; its charge is given back. -/
def vacate (h : Heap) (r : Handle) (charge : Nat) : Heap :=
  { h with
    slots := h.slots.setIfInBounds r.index none
    free := r :: h.free
    meter := h.meter.free charge }

def allocate (h : Heap) (b : Body) : Except Fault (Except LimitError (Handle × Heap)) :=
  match h.meter.allocate b.size with
  | .error e => .ok (.error e)
  | .ok (charge, meter) =>
    let e : Entry := ⟨1, b, charge⟩
    match h.free with
    | r :: free =>
      if r.index < h.slots.size then
        .ok (.ok (r, { h with slots := h.slots.setIfInBounds r.index (some e), free, meter }))
      else .error (.outOfBounds h.slots.size r.index)
    | [] => .ok (.ok (⟨h.slots.size⟩, { h with slots := h.slots.push (some e), meter }))

def retainHandle (h : Heap) (r : Handle) : Except Fault Heap := do
  let e ← h.entry .retain r
  return h.put r { e with count := e.count + 1 }

def retain (h : Heap) : Value → Except Fault Heap
  | .ref r => h.retainHandle r
  | _ => .ok h

/-- Replaces an object; its count and charge stay. -/
def setBody (h : Heap) (r : Handle) (b : Body) : Except Fault Heap := do
  let e ← h.entry .change r
  return h.put r { e with body := b }

def grow (h : Heap) (r : Handle) (bytes : Nat) : Except Fault (Except LimitError Heap) :=
  match h.meter.grow bytes with
  | .error e => .ok (.error e)
  | .ok (charge, meter) => do
    let e ← h.entry .grow r
    return .ok ({ h with meter }.put r { e with charge := e.charge + charge })

/-- Gives back bytes that an object was charged for, as far as it was. -/
def shrink (h : Heap) (r : Handle) (bytes : Nat) : Except Fault Heap := do
  let e ← h.entry .shrink r
  let released := min e.charge bytes
  return { h with meter := h.meter.free released }.put r { e with charge := e.charge - released }

/-- A reference to the one-byte string of a byte. When it is first asked for, it is made with two
references: the store keeps one of them. -/
def byteString (h : Heap) (b : UInt8) : Except Fault (Except LimitError (Handle × Heap)) :=
  match h.byteStrings.lookup b with
  | some r => do return .ok (r, ← h.retainHandle r)
  | none => do
    match ← h.allocate (.bytes [b]) with
    | .error e => return .error e
    | .ok (r, h) =>
      let h ← h.retainHandle r
      return .ok (r, { h with byteStrings := (b, r) :: h.byteStrings })

def typeOf (h : Heap) : Value → Except Fault TypeId
  | .none => .ok BuiltinKind.noneType.typeId
  | .bool _ => .ok BuiltinKind.bool.typeId
  | .int _ => .ok BuiltinKind.int.typeId
  | .float _ => .ok BuiltinKind.float.typeId
  | .ref r => (h.body r).map (·.typeId)

def live (h : Heap) : Nat :=
  h.slots.countP (·.isSome)

def bodies (h : Heap) : List Body :=
  h.slots.toList.filterMap fun s => s.map (·.body)

def census (h : Heap) : List (String × Nat) :=
  Body.kindNames.filterMap fun name =>
    match h.bodies.countP (·.kindName == name) with
    | 0 => none
    | n + 1 => some (name, n + 1)

structure Summary where
  live : Nat
  free : Nat
  slots : Nat
  allocations : Nat
  memory : Nat
deriving DecidableEq, Repr

def summary (h : Heap) : Summary :=
  ⟨h.live, h.free.length, h.slots.size, h.meter.allocations, h.meter.memory⟩

end Heap

end ItemAccess
