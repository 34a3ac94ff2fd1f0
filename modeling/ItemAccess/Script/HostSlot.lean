import ItemAccess.Machine.Access
import ItemAccess.Machine.Build

/-!
# A host's slots

A collection of slots for the types of a host, each under a name. Some work on the fields of an
instance, some only fail, and some hand the access on to what the instance holds in its first field.
Handing on can go round in a circle; the meaning of the slots therefore has a depth, beyond which
they do not answer.
-/

namespace ItemAccess

inductive HostSlot : SlotKind → Type where
  | keyError : HostSlot .get
  | echoKey : HostSlot .get
  | typeName : HostSlot .get
  | innerGet : HostSlot .get
  | swap : HostSlot .get
  | forget : HostSlot .get
  | twice : HostSlot .get
  | bare : HostSlot .get
  | leak : HostSlot .get
  | readOnly : HostSlot .set
  | innerSet : HostSlot .set
  | store : HostSlot .set
  | refuseDel : HostSlot .del
  | innerDel : HostSlot .del
  | noop : HostSlot .del
  | echo : HostSlot .getAt
  | fieldGet : HostSlot .getAt
  | squares : HostSlot .getAt
  | fieldSet : HostSlot .setAt
  | refuseSet : HostSlot .setAt
  | zero : HostSlot .length
  | three : HostSlot .length
  | most : HostSlot .length
  | fieldLength : HostSlot .length
  | fieldIndex : HostSlot .asIndex
  | raiseIndex : HostSlot .asIndex
  | selfIndex : HostSlot .asIndex
  | countdown : HostSlot .asIndex
  | huge : HostSlot .asIndex
  | bytesIndex : HostSlot .asIndex

namespace HostSlot

open Machine

/-- The slots by name; one name can mean a slot of several jobs. -/
def ofName? : (k : SlotKind) → String → Option (HostSlot k)
  | .get, "key_error" => some .keyError
  | .get, "echo_key" => some .echoKey
  | .get, "type_name" => some .typeName
  | .get, "field0" => some .innerGet
  | .get, "swap" => some .swap
  | .get, "forget" => some .forget
  | .get, "twice" => some .twice
  | .get, "bare" => some .bare
  | .get, "leak" => some .leak
  | .set, "read_only" => some .readOnly
  | .set, "field0" => some .innerSet
  | .set, "store" => some .store
  | .del, "refuse" => some .refuseDel
  | .del, "field0" => some .innerDel
  | .del, "noop" => some .noop
  | .getAt, "echo" => some .echo
  | .getAt, "field" => some .fieldGet
  | .getAt, "squares" => some .squares
  | .setAt, "field" => some .fieldSet
  | .setAt, "refuse" => some .refuseSet
  | .length, "zero" => some .zero
  | .length, "three" => some .three
  | .length, "max" => some .most
  | .length, "field0" => some .fieldLength
  | .asIndex, "field0" => some .fieldIndex
  | .asIndex, "raise" => some .raiseIndex
  | .asIndex, "self" => some .selfIndex
  | .asIndex, "countdown" => some .countdown
  | .asIndex, "huge" => some .huge
  | .asIndex, "bytes" => some .bytesIndex
  | _, _ => none

variable {υ : SlotKind → Type} {α ε : Type}

def inner (obj : Value) : SlotAction υ Value := do
  match ← field obj 0 with
  | some v => return v
  | none => raise (.withMessage .valueError "no field 0")

/-- Does something with the first field, which is released in any case. -/
def withInner (obj : Value) (a : Value → Action υ Failure α) : SlotAction υ α := do
  let v ← inner obj
  let x ← (a v).handle fun f => do
    release v
    raise f.exception
  release v
  return x

def failing (cls : ExceptionClass) (message : String) : SlotAction HostSlot α :=
  raise (.withMessage cls message)

def lengthField (m : Machine HostSlot) (obj : Value) : Except Fault Nat :=
  match obj with
  | .ref r => do
    match ← m.heap.body r with
    | .inst _ (.int n :: _) => return n.toInt.toNat
    | _ => return 0
  | _ => return 0

def fieldAt (obj : Value) (i : Int64) : Action HostSlot ε (Option Value) :=
  if i < 0 then return none else field obj i.toInt.toNat

def setFieldAt (obj : Value) (i : Int64) (v : Value) : Action HostSlot ε Bool :=
  if i < 0 then return false else setField obj i.toInt.toNat v

def get (H : Host HostSlot) : HostSlot .get → (obj key : Value) → SlotAction HostSlot Value
  | .keyError, _, key => do failing .keyError ("no field " ++ (← textOf key))
  | .echoKey, _, key => retain key
  | .typeName, _, key => do passOn (newBytes (← nameOfType key).toUTF8.toList)
  | .innerGet, obj, key => withInner obj (getItem H · key)
  | .swap, obj, key => do
    let old ← inner obj
    let _ ← setField obj 0 key
    return old
  | .forget, _, _ => do
    recordPending (.withMessage .keyError "dropped")
    modify fun m => { m with pending := m.pending.fetch.2 }
    throw {}
  | .twice, _, _ => do
    recordPending (.withMessage .valueError "first")
    failing .overflowError "second"
  | .bare, _, _ => raise ⟨.lookupError, none⟩
  | .leak, _, _ => do
    recordPending (.withMessage .valueError "left behind")
    return .none

def set (H : Host HostSlot) : HostSlot .set → (obj key v : Value) → SlotAction HostSlot Unit
  | .readOnly, _, _, _ => failing .valueError "read-only"
  | .innerSet, obj, key, v => withInner obj (setItem H v · key)
  | .store, obj, key, v => do
    if ← setField obj 0 key then
      if ← setField obj 1 v then return
    failing .valueError ""

def del (H : Host HostSlot) : HostSlot .del → (obj key : Value) → SlotAction HostSlot Unit
  | .refuseDel, _, _ => failing .valueError "cannot forget"
  | .innerDel, obj, key => withInner obj (delItem H · key)
  | .noop, _, _ => return

def getAt : HostSlot .getAt → (obj : Value) → (i : Int64) → SlotAction HostSlot Value
  | .echo, _, i => return .int i
  | .fieldGet, obj, i => do
    match ← fieldAt obj i with
    | some v => return v
    | none => failing .indexError ("field " ++ toString i.toInt ++ " out of range")
  | .squares, obj, i => do
    let m ← MonadStateOf.get
    let n ← lengthField m obj
    if 0 ≤ i.toInt ∧ i.toInt < n then passOn (newInt (i.toInt * i.toInt))
    else failing .indexError ("Squares index " ++ toString i.toInt ++ " out of range")

def setAt : HostSlot .setAt → (obj : Value) → (i : Int64) → (v : Value) → SlotAction HostSlot Unit
  | .fieldSet, obj, i, v => do
    if ← setFieldAt obj i v then return
    failing .indexError ("assignment field " ++ toString i.toInt ++ " out of range")
  | .refuseSet, _, i, _ => failing .arithmeticError ("refused " ++ toString i.toInt)

def length : HostSlot .length → Machine HostSlot → (obj : Value) → Except Fault Nat
  | .zero, _, _ => return 0
  | .three, _, _ => return 3
  | .most, _, _ => return UInt64.size - 1
  | .fieldLength, m, obj => lengthField m obj

def asIndex : HostSlot .asIndex → (obj : Value) → SlotAction HostSlot Value
  | .fieldIndex, obj => inner obj
  | .raiseIndex, _ => failing .valueError "no index today"
  | .selfIndex, obj => retain obj
  | .countdown, obj => do
    match ← inner obj with
    | .int n =>
      let _ ← setField obj 0 (.int (n - 1))
      return .int n
    | v => return v
  | .huge, _ => passOn (newInt 0x400000000000000000)
  | .bytesIndex, _ => passOn (newBytes [0x37])

def host : Nat → Host HostSlot
  | 0 =>
    { get := fun _ _ _ => Attempt.fault .endless
      set := fun _ _ _ _ => Attempt.fault .endless
      del := fun _ _ _ => Attempt.fault .endless
      getAt := getAt
      setAt := setAt
      length := length
      asIndex := asIndex }
  | depth + 1 =>
    { get := get (host depth)
      set := set (host depth)
      del := del (host depth)
      getAt := getAt
      setAt := setAt
      length := length
      asIndex := asIndex }

/-- Handing on passes through different objects unless it goes round in a circle, so the number of
slots in the store bounds its depth. -/
def hostOf (m : Machine HostSlot) : Host HostSlot :=
  host (m.heap.slots.size + 1)

end HostSlot

end ItemAccess
