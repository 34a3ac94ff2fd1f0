import ItemAccess.Machine.State
import ItemAccess.Object.Position

/-!
# Keys as indices

A key can serve as an index when its type has the slot for it. The slot gives an integer, which must
fit in 64 bits.
-/

namespace ItemAccess.Machine

variable {υ : SlotKind → Type} {ε : Type}

def isIndexLike (key : Value) : Action υ ε Bool := do
  return (← typeObject (← typeOf key)).asIndex.isSome

def intAsIndex (obj : Value) : SlotAction υ Value := do
  match obj with
  | .int i => return .int i
  | .bool b => return .int (if b then 1 else 0)
  | .ref r =>
    match ← readHeap (·.body r) with
    | .bigInt _ => retain obj
    | _ => complain (.notAnIndex (← nameOfType obj))
  | _ => complain (.notAnIndex (← nameOfType obj))

def callAsIndex (H : Host υ) (s : Slot υ .asIndex) (obj : Value) : SlotAction υ Value :=
  match s with
  | .builtin .intAsIndex => intAsIndex obj
  | .host u => H.asIndex u obj

/-- What the integer that an index slot gave comes to. -/
inductive NativeIndex where
  | fits (i : Int64)
  | tooLarge
  | notInteger
deriving DecidableEq

def NativeIndex.ofInt (n : Int) : NativeIndex :=
  match Position.ofInt? n with
  | some i => .fits i
  | none => .tooLarge

def nativeIndex (v : Value) : Action υ ε NativeIndex := do
  match v with
  | .int i => return .fits i
  | .bool b => return .fits (if b then 1 else 0)
  | .ref r =>
    match ← readHeap (·.body r) with
    | .bigInt n => return .ofInt n
    | _ => return .notInteger
  | _ => return .notInteger

/-- The index that a key means. The integer in between is released. -/
def toIndex (H : Host υ) (key : Value) : Action υ Failure Int64 := do
  let keyType ← typeOf key
  let t ← typeObject keyType
  match t.asIndex with
  | none => refuse (.notAnIndex t.name)
  | some s =>
    let v ← settle (callAsIndex H s key)
    let native ← nativeIndex v
    let type ← typeOf v
    release v
    match native with
    | .fits i => return i
    | .tooLarge => refuse (.indexTooLarge (← typeName keyType))
    | .notInteger => refuse (.indexNotInteger (← typeName type))

def ownIndex (H : Host υ) (u : IndexUse) (key : Value) : SlotAction υ Int64 := do
  if ← isIndexLike key then passOn (toIndex H key)
  else complain (.ownIndex u (← nameOfType key))

end ItemAccess.Machine
