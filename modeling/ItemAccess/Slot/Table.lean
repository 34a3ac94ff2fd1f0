import ItemAccess.Object.Value

/-!
# Slots and the tables they stand in

A type says what can be done with its objects by filling slots: items by key in a mapping table,
items by position in a sequence table, and one slot for objects that can serve as an index. A slot
is one of the machine's own or one supplied by the host.
-/

namespace ItemAccess

inductive SlotKind where
  | get
  | set
  | del
  | getAt
  | setAt
  | length
  | asIndex
deriving DecidableEq, Repr

def SlotKind.name : SlotKind → String
  | .get => "get"
  | .set => "set"
  | .del => "del"
  | .getAt => "get_at"
  | .setAt => "set_at"
  | .length => "length"
  | .asIndex => "as_index"

inductive BuiltinSlot : SlotKind → Type where
  | listGet : BuiltinSlot .get
  | tupleGet : BuiltinSlot .get
  | bytesGet : BuiltinSlot .get
  | dictGet : BuiltinSlot .get
  | listSet : BuiltinSlot .set
  | dictSet : BuiltinSlot .set
  | listDel : BuiltinSlot .del
  | dictDel : BuiltinSlot .del
  | listGetAt : BuiltinSlot .getAt
  | tupleGetAt : BuiltinSlot .getAt
  | bytesGetAt : BuiltinSlot .getAt
  | listSetAt : BuiltinSlot .setAt
  | listLength : BuiltinSlot .length
  | tupleLength : BuiltinSlot .length
  | bytesLength : BuiltinSlot .length
  | intAsIndex : BuiltinSlot .asIndex

/-- A slot; `υ k` are the host's slots for the job `k`. -/
inductive Slot (υ : SlotKind → Type) (k : SlotKind) where
  | builtin (b : BuiltinSlot k)
  | host (u : υ k)

structure MappingTable (υ : SlotKind → Type) where
  get : Option (Slot υ .get) := none
  set : Option (Slot υ .set) := none
  del : Option (Slot υ .del) := none

structure SequenceTable (υ : SlotKind → Type) where
  get : Option (Slot υ .getAt) := none
  set : Option (Slot υ .setAt) := none
  length : Option (Slot υ .length) := none

variable {υ : SlotKind → Type}

def MappingTable.isEmpty (t : MappingTable υ) : Bool :=
  t.get.isNone && t.set.isNone && t.del.isNone

def SequenceTable.isEmpty (t : SequenceTable υ) : Bool :=
  t.get.isNone && t.set.isNone && t.length.isNone

/-- The tables of a type that have any slot. -/
inductive Capabilities (υ : SlotKind → Type) where
  | none
  | mapping (m : MappingTable υ)
  | sequence (s : SequenceTable υ)
  | both (m : MappingTable υ) (s : SequenceTable υ)

namespace Capabilities

/-- A table without slots counts as no table. -/
def resolve (mapping : Option (MappingTable υ)) (sequence : Option (SequenceTable υ)) :
    Capabilities υ :=
  match mapping.filter (!·.isEmpty), sequence.filter (!·.isEmpty) with
  | .none, .none => .none
  | some m, .none => .mapping m
  | .none, some s => .sequence s
  | some m, some s => .both m s

def mapping? : Capabilities υ → Option (MappingTable υ)
  | mapping m => some m
  | both m _ => some m
  | _ => Option.none

def sequence? : Capabilities υ → Option (SequenceTable υ)
  | sequence s => some s
  | both _ s => some s
  | _ => Option.none

def get? (c : Capabilities υ) : Option (Slot υ .get) := c.mapping?.bind (·.get)

def set? (c : Capabilities υ) : Option (Slot υ .set) := c.mapping?.bind (·.set)

def del? (c : Capabilities υ) : Option (Slot υ .del) := c.mapping?.bind (·.del)

def shapeName : Capabilities υ → String
  | none => "None"
  | mapping _ => "Mapping"
  | sequence _ => "Sequence"
  | both _ _ => "Both"

def slotKinds (c : Capabilities υ) : List SlotKind :=
  let present (k : SlotKind) (b : Bool) : List SlotKind := if b then [k] else []
  present .get c.get?.isSome ++ present .set c.set?.isSome ++ present .del c.del?.isSome ++
    present .getAt (c.sequence?.any (·.get.isSome)) ++
    present .setAt (c.sequence?.any (·.set.isSome)) ++
    present .length (c.sequence?.any (·.length.isSome))

end Capabilities

end ItemAccess
