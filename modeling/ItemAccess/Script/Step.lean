import ItemAccess.Script.HostSlot

/-!
# Scripts

A script drives a machine. Its expressions build values or name them, and each of its steps is one
request to the machine, with an answer.
-/

namespace ItemAccess.Script

inductive TypeRef where
  | named (name : String)
  | numbered (index : Nat)
deriving Repr

/-- An expression for a value. A raw value is used as it is: no reference is added for it, whether
or not it is live. -/
inductive Expr where
  | raw (v : Value)
  | integer (n : Int)
  | bytes (data : List UInt8)
  | list (items : List Expr)
  | tuple (items : List Expr)
  | dict (pairs : List (Expr × Expr))
  | inst (type : TypeRef) (fields : List Expr)
  | var (name : String)
  | malformed

inductive Wrapping where
  | list
  | tuple
  | dict
deriving DecidableEq, Repr

/-- A slot of a type to be registered: one of the host's, or that of another type. -/
inductive SlotChoice (k : SlotKind) where
  | own (s : HostSlot k)
  | sameAs (type : String)

structure MappingDraft where
  get : Option (SlotChoice .get) := none
  set : Option (SlotChoice .set) := none
  del : Option (SlotChoice .del) := none

structure SequenceDraft where
  get : Option (SlotChoice .getAt) := none
  set : Option (SlotChoice .setAt) := none
  length : Option (SlotChoice .length) := none

structure TypeDraft where
  name : String
  mapping : Option MappingDraft := none
  sequence : Option SequenceDraft := none
  asIndex : Option (SlotChoice .asIndex) := none

/-- A slot called by itself, without the checks of an access. -/
inductive SlotCall where
  | get (key : Expr) (into : Option String)
  | set (key value : Expr)
  | del (key : Expr)
  | getAt (i : Int64) (into : Option String)
  | setAt (value : Expr) (i : Int64)
  | length
  | asIndex (into : Option String)

inductive Step where
  | bind (name : String) (value : Expr)
  | nest (name : String) (seed : Expr) (wrapping : Wrapping) (times : Nat)
  | drop (name : String)
  | discard (value : Expr)
  | get (source key : Expr) (into : Option String)
  | getConst (source key : Expr) (i : Int64) (into : Option String)
  | set (value target key : Expr)
  | del (target key : Expr)
  | inspect (value : Expr)
  | count (value : Expr)
  | typeOf (value : Expr)
  | bytesOf (value : Expr)
  | same (a b : Expr)
  | field (obj : Expr) (i : Nat) (into : Option String)
  | setField (obj value : Expr) (i : Nat)
  | register (draft : TypeDraft)
  | findType (name : String)
  | typeInfo (type : TypeRef)
  | call (type : TypeRef) (obj : Expr) (slot : SlotCall)
  | raise (e : Exception)
  | pending
  | fetch
  | trace (t : Tracer)
  | events
  | clear
  | report
  | log
  | census
  | settings

inductive Mistake where
  | noSuchVariable
  | absentSlot
  | badValue
deriving DecidableEq, Repr

def Mistake.message : Mistake → String
  | .noSuchVariable => "no such variable"
  | .absentSlot => "slot is absent"
  | .badValue => "bad value"

structure Shown where
  text : String
  type : String
  handle : Option Handle
  count : Option Nat

structure TypeInfo where
  id : TypeId
  name : String
  builtin : Option BuiltinKind
  shape : String
  slots : List SlotKind
  asIndex : Bool

inductive Result where
  | nothing
  | shown (v : Shown)
  | text (s : String)
  | placed (type : String) (handle : Option Handle)
  | count (n : Option Nat)
  | flag (b : Bool)
  | typeInfo (t : TypeInfo)
  | typeId (id : Option TypeId)
  | bytes (data : Option (List UInt8))
  | length (n : Nat)
  | pending (cls : Option ExceptionClass)
  | exception (e : Option Exception)
  | events (es : List Event)
  | report (p : Profile)
  | census (counts : List (String × Nat))

/-- The answer to a step, with a summary of the store after it. A fault leaves no store to look at.
-/
inductive Answer where
  | done (r : Result) (s : Heap.Summary)
  | failed (f : Failure) (s : Heap.Summary)
  | mistaken (m : Mistake) (s : Heap.Summary)
  | faulted (f : Fault)

end ItemAccess.Script
