import ItemAccess.Machine.Dispatch

/-!
# Item access

The four ways to get at an item. Each looks at its operands first: they must be live, and nothing
may be pending. A failure is told to the tracer before it is returned.
-/

namespace ItemAccess.Machine

variable {υ : SlotKind → Type} {α ε : Type}

/-- The promises that an access relies on. Operands are looked at in order. -/
def enter (operands : List Value) : Action υ ε Unit := do
  let m ← get
  match (operands.filterMap Value.handle?).find? (!m.heap.isLive ·) with
  | some r => Attempt.fault (.operandFreed r)
  | none => if m.pending.isSet then Attempt.fault .pendingOnEntry

def finish (op : Operation) (a : Action υ Failure α) : Action υ Failure α :=
  a.handle fun f => do
    note (.failure op f)
    throw f

def directItem (items : List Value) (i : Int64) : Action υ Failure Value := do
  match Position.checked i items.length with
  | none => refuse (.outOfRange .list)
  | some position =>
    let v ← retain (← atPosition items position)
    note (.direct .list position)
    return v

def directByte (data : List UInt8) (i : Int64) : Action υ Failure Value := do
  match Position.checked i data.length with
  | none => refuse (.outOfRange .bytes)
  | some position =>
    let b ← atPosition data position
    let v ← (byteString b).handle fun e => throw (.ofLimit e)
    note (.direct .bytes position)
    return v

/-- Reads an item whose index is known beforehand. Lists, and byte strings where they are the text,
need no slot. -/
def lookupConst (H : Host υ) (source key : Value) (i : Int64) : Action υ Failure Value := do
  match source with
  | .ref r =>
    match ← readHeap (·.body r) with
    | .list items => directItem items i
    | .bytes data =>
      if (← get).settings.textModel = .byteString then directByte data i
      else lookup H .getConst source key
    | _ => lookup H .getConst source key
  | _ => lookup H .getConst source key

/-- Reads the item `source[key]`; the caller owns a reference to it. -/
def getItem (H : Host υ) (source key : Value) : Action υ Failure Value := do
  enter [source, key]
  finish .get (lookup H .get source key)

/-- Reads `source[key]` for a key that is known to have the integer value `i`. -/
def getItemConst (H : Host υ) (source key : Value) (i : Int64) : Action υ Failure Value := do
  enter [source, key]
  finish .getConst (lookupConst H source key i)

def setItem (H : Host υ) (v target key : Value) : Action υ Failure Unit := do
  enter [v, target, key]
  finish .set (assign H v target key)

def delItem (H : Host υ) (target key : Value) : Action υ Failure Unit := do
  enter [target, key]
  finish .del (delete H target key)

end ItemAccess.Machine
