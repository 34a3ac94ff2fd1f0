import ItemAccess.Script.Step

/-!
# Running scripts

A session is a machine with the variables of a script. A variable owns a reference to its value. An
operand of a step that is a variable or a raw value is only borrowed; any other is a temporary,
which is released when the step is over, after its result and however it ends. Inside a container
and on the right of a binding a variable is copied, with a reference of its own.
-/

namespace ItemAccess.Script

open Machine

/-- The state of a script. Of the tracers that were replaced, the last of each kind is kept. -/
structure Session where
  machine : Machine HostSlot
  bindings : List (String × Value) := []
  temporaries : List Value := []
  recording : Recording := {}
  profile : Profile := {}
  log : List String := []

inductive Trouble where
  | failure (f : Failure)
  | mistake (m : Mistake)

abbrev ScriptM := Attempt Session Trouble

variable {α : Type}

def request (a : Action HostSlot Failure α) : ScriptM α := fun s =>
  match a.run s.machine with
  | .done x machine => .done x { s with machine }
  | .failed f machine => .failed (.failure f) { s with machine }
  | .fault f => .fault f

def requestWith (a : Host HostSlot → Action HostSlot Failure α) : ScriptM α := do
  request (a (HostSlot.hostOf (← get).machine))

def mistaken (m : Mistake) : ScriptM α :=
  throw (.mistake m)

def boundTo (name : String) : ScriptM (Option Value) := do
  return (← get).bindings.lookup name

def lookupVariable (name : String) : ScriptM Value := do
  match ← boundTo name with
  | some v => return v
  | none => mistaken .noSuchVariable

/-- Binds a variable, and then releases what it was bound to before. -/
def bindVariable (name : String) (v : Value) : ScriptM Unit := do
  let old ← boundTo name
  modify fun s =>
    { s with bindings := (name, v) :: s.bindings.filter (·.1 != name) }
  request (releaseAll old.toList)

def resolveType (t : TypeRef) : ScriptM TypeId := do
  match t with
  | .numbered index => return ⟨index⟩
  | .named name =>
    match (← get).machine.registry.find? name with
    | some id => return id
    | none => mistaken .badValue

/-- Runs `a`; if it gives no result, the values built so far are released in order. -/
def orRelease (built : List Value) (a : ScriptM α) : ScriptM α :=
  a.handle fun t => do
    request (releaseAll built)
    throw t

def pairUp : List Value → List (Value × Value)
  | key :: value :: rest => (key, value) :: pairUp rest
  | _ => []

mutual

def own : Expr → ScriptM Value
  | .raw v => return v
  | .integer n => request (newInt n)
  | .bytes data => request (newBytes data)
  | .list items => do request (newList (← ownAll [] items))
  | .tuple items => do request (newTuple (← ownAll [] items))
  | .dict pairs => do request (newDict (pairUp (← ownPairs [] pairs)))
  | .inst type fields => do
    let id ← resolveType type
    request (newInstance id (← ownAll [] fields))
  | .var name => do
    let v ← lookupVariable name
    request (retain v)
  | .malformed => mistaken .badValue

def ownAll (built : List Value) : List Expr → ScriptM (List Value)
  | [] => return built
  | e :: es => do
    let v ← orRelease built (own e)
    ownAll (built ++ [v]) es

def ownPairs (built : List Value) : List (Expr × Expr) → ScriptM (List Value)
  | [] => return built
  | (key, value) :: es => do
    let k ← orRelease built (own key)
    let v ← orRelease (built ++ [k]) (own value)
    ownPairs (built ++ [k, v]) es

end

def operand (e : Expr) : ScriptM Value := do
  match e with
  | .raw v => return v
  | .var name => lookupVariable name
  | e =>
    let v ← own e
    modify fun s => { s with temporaries := s.temporaries ++ [v] }
    return v

def shown (v : Value) : ScriptM Shown := do
  let text ← request (textOf v)
  let type ← request (nameOfType v)
  let handle := v.handle?
  return ⟨text, type, handle, handle.bind (← get).machine.heap.count?⟩

/-- Shows a value that the script owns, and binds or releases it. -/
def deliver (v : Value) (into : Option String) : ScriptM Result := do
  let s ← shown v
  match into with
  | some name => bindVariable name v
  | none => request (release v)
  return .shown s

def typeInfoOf (id : TypeId) : ScriptM TypeInfo := do
  let t ← request (typeObject id)
  return ⟨id, t.name, t.builtin, t.capabilities.shapeName, t.capabilities.slotKinds,
    t.asIndex.isSome⟩

/-- The slot that is meant by a choice; of another type it may be absent. -/
def chosen {k : SlotKind} (c : Option (SlotChoice k)) : ScriptM (Option (Slot HostSlot k)) := do
  match c with
  | none => return none
  | some (.own s) => return some (.host s)
  | some (.sameAs type) => return (← request (typeObject (← resolveType (.named type)))).slot? k

def mappingOf (d : MappingDraft) : ScriptM (MappingTable HostSlot) := do
  return ⟨← chosen d.get, ← chosen d.set, ← chosen d.del⟩

def sequenceOf (d : SequenceDraft) : ScriptM (SequenceTable HostSlot) := do
  return ⟨← chosen d.get, ← chosen d.set, ← chosen d.length⟩

def specOf (d : TypeDraft) : ScriptM (TypeSpec HostSlot) := do
  return ⟨d.name, ← d.mapping.mapM mappingOf, ← d.sequence.mapM sequenceOf, ← chosen d.asIndex⟩

def wrap (w : Wrapping) : Nat → Value → ScriptM Value
  | 0, v => return v
  | n + 1, v => do
    let v ← request (match w with
      | .list => newList [v]
      | .tuple => newTuple [v]
      | .dict => newDict [(.int 0, v)])
    wrap w n v

def slotOf (type : TypeRef) (k : SlotKind) : ScriptM (Slot HostSlot k) := do
  match (← request (typeObject (← resolveType type))).slot? k with
  | some s => return s
  | none => mistaken .absentSlot

def callSlot (type : TypeRef) (obj : Value) : SlotCall → ScriptM Result
  | .get key into => do
    let s ← slotOf type .get
    let key ← operand key
    deliver (← requestWith fun H => settle (callGet H s obj key)) into
  | .set key value => do
    let s ← slotOf type .set
    let key ← operand key
    let value ← operand value
    requestWith fun H => settle (callSet H s obj key value)
    return .nothing
  | .del key => do
    let s ← slotOf type .del
    let key ← operand key
    requestWith fun H => settle (callDel H s obj key)
    return .nothing
  | .getAt i into => do
    let s ← slotOf type .getAt
    deliver (← requestWith fun H => settle (callGetAt H s obj i)) into
  | .setAt value i => do
    let s ← slotOf type .setAt
    let value ← operand value
    requestWith fun H => settle (callSetAt H s obj i value)
    return .nothing
  | .length => do
    let s ← slotOf type .length
    return .length (← requestWith fun H => callLength H s obj)
  | .asIndex into => do
    let s ← slotOf type .asIndex
    deliver (← requestWith fun H => settle (callAsIndex H s obj)) into

namespace Session

def currentRecording (s : Session) : Recording :=
  match s.machine.tracer with
  | .recording r => r
  | _ => s.recording

def currentProfile (s : Session) : Profile :=
  match s.machine.tracer with
  | .profiling p => p
  | _ => s.profile

def currentLog (s : Session) : List String :=
  match s.machine.tracer with
  | .logging l => s.log ++ l.lines
  | _ => s.log

def keepTracer (s : Session) : Session :=
  { s with
    recording := s.currentRecording
    profile := s.currentProfile
    log := s.currentLog }

/-- Empties the last recording tracer, and with it those before, which are not shown again. -/
def clearRecording (s : Session) : Session :=
  { s with
    machine := { s.machine with tracer := s.machine.tracer.clear }
    recording := s.recording.clear }

def clearLog (s : Session) : Session :=
  match s.machine.tracer with
  | .logging l =>
    { s with machine := { s.machine with tracer := .logging { l with lines := [] } }, log := [] }
  | _ => { s with log := [] }

end Session

def registerType (draft : TypeDraft) : ScriptM TypeId := do
  request (Machine.register (← specOf draft))

def perform : Step → ScriptM Result
  | .bind name value => do
    let v ← own value
    let s ← shown v
    bindVariable name v
    return .shown s
  | .nest name seed wrapping times => do
    let v ← wrap wrapping times (← own seed)
    let type ← request (nameOfType v)
    bindVariable name v
    return .placed type v.handle?
  | .drop name => do
    let v ← lookupVariable name
    modify fun s => { s with bindings := s.bindings.filter (·.1 != name) }
    request (release v)
    return .nothing
  | .discard value => do
    request (release (← own value))
    return .nothing
  | .get source key into => do
    let source ← operand source
    let key ← operand key
    deliver (← requestWith fun H => getItem H source key) into
  | .getConst source key i into => do
    let source ← operand source
    let key ← operand key
    deliver (← requestWith fun H => getItemConst H source key i) into
  | .set value target key => do
    let value ← operand value
    let target ← operand target
    let key ← operand key
    requestWith fun H => setItem H value target key
    return .text (← request (textOf target))
  | .del target key => do
    let target ← operand target
    let key ← operand key
    requestWith fun H => delItem H target key
    return .text (← request (textOf target))
  | .inspect value => do return .shown (← shown (← operand value))
  | .count value => do
    let v ← operand value
    return .count (v.handle?.bind (← get).machine.heap.count?)
  | .typeOf value => do
    let v ← operand value
    return .typeInfo (← typeInfoOf (← request (Machine.typeOf v)))
  | .bytesOf value => do return .bytes (← request (Machine.bytesOf (← operand value)))
  | .same a b => do
    let a ← operand a
    let b ← operand b
    return .flag (a.same b)
  | .field obj i into => do
    let obj ← operand obj
    match ← request (Machine.field obj i) with
    | some v => deliver v into
    | none => return .nothing
  | .setField obj value i => do
    let obj ← operand obj
    let value ← operand value
    return .flag (← request (Machine.setField obj i value))
  | .register draft => do return .typeInfo (← typeInfoOf (← registerType draft))
  | .findType name => do return .typeId ((← get).machine.registry.find? name)
  | .typeInfo type => do return .typeInfo (← typeInfoOf (← resolveType type))
  | .call type obj slot => do callSlot type (← operand obj) slot
  | .raise e => do
    request (recordPending e)
    return .nothing
  | .pending => do return .pending (← get).machine.pending.occurred
  | .fetch => do return .exception (← request fetchPending)
  | .trace t => do
    modify Session.keepTracer
    request (setTracer t)
    return .nothing
  | .events => do return .events (← get).currentRecording.events
  | .clear => do
    modify Session.clearRecording
    return .nothing
  | .report => do return .report (← get).currentProfile
  | .log => do
    let lines := (← get).currentLog
    modify Session.clearLog
    return .text (Log.join lines)
  | .census => do return .census (← get).machine.heap.census
  | .settings => do return .text (← get).machine.settings.toJson

/-- Releases the temporaries of a step and sums up the store. -/
def close (s : Session) (a : Heap.Summary → Answer) : Except Fault (Answer × Session) := do
  let heap ← s.machine.heap.releaseAll s.temporaries
  return (a heap.summary, { s with machine := { s.machine with heap }, temporaries := [] })

def answer (step : Step) (s : Session) : Except Fault (Answer × Session) :=
  match (perform step).run s with
  | .done r s => close s (.done r)
  | .failed (.failure f) s => close s (.failed f)
  | .failed (.mistake m) s => close s (.mistaken m)
  | .fault f => .error f

/-- The answers to the steps of a script; a fault is the last of them. -/
def answers : List Step → Session → List Answer
  | [], _ => []
  | step :: steps, s =>
    match answer step s with
    | .ok (a, s) => a :: answers steps s
    | .error f => [.faulted f]

def run (settings : Settings) (steps : List Step) : List Answer :=
  answers steps { machine := .start settings }

end ItemAccess.Script
