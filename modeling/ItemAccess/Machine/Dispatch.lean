import ItemAccess.Machine.Items

/-!
# Choosing the slot that serves an access

The mapping table comes first. The sequence table is asked when the mapping table has no slot for
the job and the key can serve as an index; a negative index is then raised by the length, if the
type has one. Deletion knows the mapping table only.
-/

namespace ItemAccess.Machine

variable {υ : SlotKind → Type} {ε : Type}

def callGet (H : Host υ) (s : Slot υ .get) (obj key : Value) : SlotAction υ Value :=
  match s with
  | .builtin .listGet => listGet H obj key
  | .builtin .tupleGet => tupleGet H obj key
  | .builtin .bytesGet => bytesGet H obj key
  | .builtin .dictGet => dictGet obj key
  | .host u => H.get u obj key

def callSet (H : Host υ) (s : Slot υ .set) (obj key v : Value) : SlotAction υ Unit :=
  match s with
  | .builtin .listSet => listSet H obj key v
  | .builtin .dictSet => dictSet obj key v
  | .host u => H.set u obj key v

def callDel (H : Host υ) (s : Slot υ .del) (obj key : Value) : SlotAction υ Unit :=
  match s with
  | .builtin .listDel => listDel H obj key
  | .builtin .dictDel => dictDel obj key
  | .host u => H.del u obj key

def callGetAt (H : Host υ) (s : Slot υ .getAt) (obj : Value) (i : Int64) : SlotAction υ Value :=
  match s with
  | .builtin .listGetAt => listGetAt obj i
  | .builtin .tupleGetAt => tupleGetAt obj i
  | .builtin .bytesGetAt => bytesGetAt obj i
  | .host u => H.getAt u obj i

def callSetAt (H : Host υ) (s : Slot υ .setAt) (obj : Value) (i : Int64) (v : Value) :
    SlotAction υ Unit :=
  match s with
  | .builtin .listSetAt => listSetAt obj i v
  | .host u => H.setAt u obj i v

def callLength (H : Host υ) (s : Slot υ .length) (obj : Value) : Action υ ε Nat :=
  match s with
  | .builtin .listLength => do return (← listItems obj).length
  | .builtin .tupleLength => do return (← tupleItems obj).length
  | .builtin .bytesLength => do return (← bytesData obj).length
  | .host u => do
    let m ← get
    H.length u m obj

def wrapIndex (H : Host υ) (table : SequenceTable υ) (obj : Value) (i : Int64) :
    Action υ ε Int64 := do
  match table.length with
  | some s => if i < 0 then return Position.wrap i (← callLength H s obj) else return i
  | none => return i

def noteDispatch (op : Operation) (route : Route) (type : TypeId) : Action υ ε Unit := do
  note (.dispatch op route (← typeName type))

def lookup (H : Host υ) (op : Operation) (source key : Value) : Action υ Failure Value := do
  let type ← typeOf source
  let capabilities := (← typeObject type).capabilities
  match capabilities.get?, capabilities.sequence? with
  | some s, _ =>
    noteDispatch op .mapping type
    settle (callGet H s source key)
  | none, some table =>
    if ← isIndexLike key then
      match table.get with
      | none => refuse (.noIndexing (← typeName type))
      | some s =>
        let i ← toIndex H key
        let i ← wrapIndex H table source i
        noteDispatch op .sequence type
        settle (callGetAt H s source i)
    else if table.get.isSome then refuse (.sequenceIndex (← nameOfType key))
    else refuse (.notSubscriptable (← typeName type))
  | none, none => refuse (.notSubscriptable (← typeName type))

def assign (H : Host υ) (v target key : Value) : Action υ Failure Unit := do
  let type ← typeOf target
  let capabilities := (← typeObject type).capabilities
  match capabilities.set?, capabilities.sequence? with
  | some s, _ =>
    noteDispatch .set .mapping type
    settle (callSet H s target key v)
  | none, some table =>
    if ← isIndexLike key then
      match table.set with
      | none => refuse (.noAssignment (← typeName type))
      | some s =>
        let i ← toIndex H key
        let i ← wrapIndex H table target i
        noteDispatch .set .sequence type
        settle (callSetAt H s target i v)
    else if table.set.isSome then refuse (.sequenceIndex (← nameOfType key))
    else refuse (.noAssignment (← typeName type))
  | none, none => refuse (.noAssignment (← typeName type))

def delete (H : Host υ) (target key : Value) : Action υ Failure Unit := do
  let type ← typeOf target
  noteDispatch .del .generic type
  match (← typeObject type).capabilities.del? with
  | some s => settle (callDel H s target key)
  | none => refuse (.noDeletion (← typeName type))

end ItemAccess.Machine
