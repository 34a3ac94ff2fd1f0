import ItemAccess.Machine.Index
import ItemAccess.Machine.Text

/-!
# Items of the built-in containers

The machine's own slots. By key, lists, tuples and byte strings take any index; by position they
take only what counts from the front. A dict takes every key that has a hash. Reading an item adds a
reference to it; storing one releases what was there before, after the container has changed.
-/

namespace ItemAccess.Machine

variable {υ : SlotKind → Type} {α ε : Type}

/-- The part of an object that a slot works on. Having such a part is what the object's type, for
which the slot was registered, promises. -/
def part (c : Container) (part? : Body → Option α) (obj : Value) : Action υ ε α := do
  match obj with
  | .ref r =>
    match part? (← readHeap (·.body r)) with
    | some a => return a
    | none => Attempt.fault (.wrongReceiver c)
  | _ => Attempt.fault (.wrongReceiver c)

def partToChange (c : Container) (part? : Body → Option α) (obj : Value) :
    Action υ ε (Handle × α) := do
  match obj with
  | .ref r =>
    match part? (← readHeap (·.entry .change r)).body with
    | some a => return (r, a)
    | none => Attempt.fault (.wrongReceiver c)
  | _ => Attempt.fault (.immediateReceiver c)

def listItems (obj : Value) : Action υ ε (List Value) := part .list Body.list? obj

def tupleItems (obj : Value) : Action υ ε (List Value) := part .tuple Body.tuple? obj

def bytesData (obj : Value) : Action υ ε (List UInt8) := part .bytes Body.bytes? obj

def dictEntries (obj : Value) : Action υ ε (List DictEntry) := part .dict Body.dict? obj

def listToChange (obj : Value) : Action υ ε (Handle × List Value) :=
  partToChange .list Body.list? obj

def dictToChange (obj : Value) : Action υ ε (Handle × List DictEntry) :=
  partToChange .dict Body.dict? obj

def atPosition (xs : List α) (position : Nat) : Except Fault α :=
  match xs[position]? with
  | some x => .ok x
  | none => .error (.outOfBounds xs.length position)

def removalAt (xs : List α) (position : Nat) : Except Fault α :=
  match xs[position]? with
  | some x => .ok x
  | none => .error (.noRemoval xs.length position)

def itemAt (u : IndexUse) (items : List Value) (position : Option Nat) : SlotAction υ Value := do
  match position with
  | some position => retain (← atPosition items position)
  | none => complain (.outOfRange u)

def byteString (b : UInt8) : Action υ LimitError Value := do
  let m ← get
  match ← m.heap.byteString b with
  | .error e => throw e
  | .ok (r, h) =>
    set { m with heap := h }
    return .ref r

def byteAt (data : List UInt8) (position : Option Nat) : SlotAction υ Value := do
  match position with
  | some position =>
    let b ← atPosition data position
    (byteString b).handle fun e => complain (.limit e)
  | none => complain (.outOfRange .bytes)

def storeItem (obj : Value) (position : Nat) (v : Value) : Action υ ε Unit := do
  let v ← retain v
  let (r, items) ← listToChange obj
  let old ← atPosition items position
  changeHeap (·.setBody r (.list (items.set position v)))
  release old

def removeItem (obj : Value) (position : Nat) : Action υ ε Unit := do
  let (r, items) ← listToChange obj
  let removed ← removalAt items position
  changeHeap (·.setBody r (.list (items.eraseIdx position)))
  release removed
  changeHeap (·.shrink r Body.itemSize)

def listGet (H : Host υ) (obj key : Value) : SlotAction υ Value := do
  let i ← ownIndex H .list key
  let items ← listItems obj
  itemAt .list items (Position.checked i items.length)

def listSet (H : Host υ) (obj key v : Value) : SlotAction υ Unit := do
  let i ← ownIndex H .list key
  let items ← listItems obj
  match Position.checked i items.length with
  | some position => storeItem obj position v
  | none => complain (.outOfRange .listAssignment)

def listDel (H : Host υ) (obj key : Value) : SlotAction υ Unit := do
  let i ← ownIndex H .list key
  let items ← listItems obj
  match Position.checked i items.length with
  | some position => removeItem obj position
  | none => complain (.outOfRange .listAssignment)

def listGetAt (obj : Value) (i : Int64) : SlotAction υ Value := do
  let items ← listItems obj
  itemAt .list items (Position.absolute i items.length)

def listSetAt (obj : Value) (i : Int64) (v : Value) : SlotAction υ Unit := do
  let items ← listItems obj
  match Position.absolute i items.length with
  | some position => storeItem obj position v
  | none => complain (.outOfRange .listAssignment)

def tupleGet (H : Host υ) (obj key : Value) : SlotAction υ Value := do
  let i ← ownIndex H .tuple key
  let items ← tupleItems obj
  itemAt .tuple items (Position.checked i items.length)

def tupleGetAt (obj : Value) (i : Int64) : SlotAction υ Value := do
  let items ← tupleItems obj
  itemAt .tuple items (Position.absolute i items.length)

def bytesGet (H : Host υ) (obj key : Value) : SlotAction υ Value := do
  let i ← ownIndex H .bytes key
  let data ← bytesData obj
  byteAt data (Position.checked i data.length)

def bytesGetAt (obj : Value) (i : Int64) : SlotAction υ Value := do
  let data ← bytesData obj
  byteAt data (Position.absolute i data.length)

def hashKey (key : Value) : SlotAction υ Key := do
  match ← readHeap fun h => (h.hash key).run with
  | .ok k => return k
  | .error type => complain (.unhashable (← typeName type))

def dictGet (obj key : Value) : SlotAction υ Value := do
  let k ← hashKey key
  let entries ← dictEntries obj
  match Dict.get? entries k with
  | some v => retain v
  | none => complain (.missingKey (← textOf key))

def growDict (obj : Value) : SlotAction υ Unit := do
  match obj with
  | .ref r =>
    let m ← get
    match ← m.heap.grow r Body.entrySize with
    | .ok h => set { m with heap := h }
    | .error e => complain (.limit e)
  | _ => return

/-- A new key is charged for before anything else changes. -/
def dictSet (obj key v : Value) : SlotAction υ Unit := do
  let k ← hashKey key
  let entries ← dictEntries obj
  if (Dict.get? entries k).isNone then growDict obj
  let key ← retain key
  let v ← retain v
  let (r, entries) ← dictToChange obj
  let (entries, leftOver) := Dict.insert entries k key v
  changeHeap (·.setBody r (.dict entries))
  releaseAll leftOver

def dictDel (obj key : Value) : SlotAction υ Unit := do
  let k ← hashKey key
  let (r, entries) ← dictToChange obj
  match Dict.remove? entries k with
  | some (e, entries) =>
    changeHeap (·.setBody r (.dict entries))
    releaseAll [e.key, e.value]
    changeHeap (·.shrink r Body.entrySize)
  | none => complain (.missingKey (← textOf key))

end ItemAccess.Machine
