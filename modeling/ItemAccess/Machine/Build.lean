import ItemAccess.Machine.State
import ItemAccess.Object.Position

/-!
# Building objects

The builders take over the references they are given. A dict or an instance that is turned down for
what it is gives them back; where a limit refuses the object itself, they stay with nobody.
-/

namespace ItemAccess.Machine

variable {υ : SlotKind → Type} {ε : Type}

def allocate (b : Body) : Action υ Failure Value := do
  let m ← get
  match ← m.heap.allocate b with
  | .error e => throw (.ofLimit e)
  | .ok (r, h) =>
    set { m with heap := h }
    return .ref r

def newList (items : List Value) : Action υ Failure Value :=
  allocate (.list items)

def newTuple (items : List Value) : Action υ Failure Value :=
  allocate (.tuple items)

def newBytes (data : List UInt8) : Action υ Failure Value :=
  allocate (.bytes data)

def newInt (n : Int) : Action υ Failure Value :=
  match Position.ofInt? n with
  | some i => return .int i
  | none => allocate (.bigInt n)

def flattenPairs (pairs : List (Value × Value)) : List Value :=
  pairs.flatMap fun p => [p.1, p.2]

/-- Puts pairs into the entries of a dict to be. A key that has no hash gives back every reference:
its own pair, those that follow it, and those already put in. -/
def fillDict (entries : List DictEntry) :
    List (Value × Value) → Action υ Failure (List DictEntry)
  | [] => return entries
  | (key, value) :: rest => do
    match ← readHeap fun h => (h.hash key).run with
    | .ok k =>
      let (entries, leftOver) := Dict.insert entries k key value
      releaseAll leftOver
      fillDict entries rest
    | .error type =>
      let name ← typeName type
      releaseAll (key :: value :: flattenPairs rest ++ Dict.children entries)
      refuse (.unhashable name)

def newDict (pairs : List (Value × Value)) : Action υ Failure Value := do
  allocate (.dict (← fillDict [] pairs))

/-- Only types of the host have instances. -/
def newInstance (type : TypeId) (fields : List Value) : Action υ Failure Value := do
  match (← get).registry.get? type with
  | some t =>
    if t.builtin.isSome then
      releaseAll fields
      refuse (.notInstantiable t.name)
    else allocate (.inst type fields)
  | none =>
    releaseAll fields
    refuse (.unregistered type.index)

def bytesOf (v : Value) : Action υ ε (Option (List UInt8)) := do
  match v with
  | .ref r => return (← readHeap (·.body r)).bytes?
  | _ => return none

def field (obj : Value) (i : Nat) : Action υ ε (Option Value) := do
  match obj with
  | .ref r =>
    match ← readHeap (·.body r) with
    | .inst _ fields =>
      match fields[i]? with
      | some v => return some (← retain v)
      | none => return none
    | _ => return none
  | _ => return none

def setField (obj : Value) (i : Nat) (v : Value) : Action υ ε Bool := do
  match obj with
  | .ref r =>
    let v ← retain v
    match (← readHeap (·.entry .change r)).body with
    | .inst type fields =>
      match fields[i]? with
      | some old =>
        changeHeap (·.setBody r (.inst type (fields.set i v)))
        release old
        return true
      | none =>
        release v
        return false
    | _ =>
      release v
      return false
  | _ => return false

end ItemAccess.Machine
