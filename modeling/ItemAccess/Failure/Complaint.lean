import ItemAccess.Failure.Exception

/-!
# What can be wrong with a request

Each way in which the machine itself turns a request down is a `Complaint`. A complaint determines
the exception that reports it; all wording is here.
-/

namespace ItemAccess

inductive IndexUse where
  | list
  | listAssignment
  | tuple
  | bytes
deriving DecidableEq, Repr

namespace IndexUse

def all : List IndexUse := [list, listAssignment, tuple, bytes]

def name : IndexUse → String
  | list => "List"
  | listAssignment => "ListAssignment"
  | tuple => "Tuple"
  | bytes => "Str"

def ofName? (s : String) : Option IndexUse :=
  all.find? (·.name == s)

def message : IndexUse → String
  | list => "list index out of range"
  | listAssignment => "list assignment index out of range"
  | tuple => "tuple index out of range"
  | bytes => "string index out of range"

def owner : IndexUse → String
  | list => "list"
  | listAssignment => "list"
  | tuple => "tuple"
  | bytes => "string"

end IndexUse

inductive LimitError where
  | allocations (limit count : Nat)
  | memory (limit used : Nat)
deriving DecidableEq, Repr

def LimitError.message : LimitError → String
  | .allocations limit count => s!"allocation limit exceeded: {count} > {limit}"
  | .memory limit used => s!"memory limit exceeded: {used} bytes > {limit} bytes"

/-- A refusal of the machine. Types are given by their names. -/
inductive Complaint where
  | outOfRange (u : IndexUse)
  | notSubscriptable (type : String)
  | noIndexing (type : String)
  | noAssignment (type : String)
  | noDeletion (type : String)
  | sequenceIndex (keyType : String)
  | ownIndex (u : IndexUse) (keyType : String)
  | notAnIndex (type : String)
  | indexTooLarge (keyType : String)
  | indexNotInteger (type : String)
  | unhashable (type : String)
  | missingKey (shown : String)
  | notInstantiable (type : String)
  | unregistered (id : Nat)
  | limit (e : LimitError)
deriving DecidableEq, Repr

namespace Complaint

def cls : Complaint → ExceptionClass
  | outOfRange _ => .indexError
  | indexTooLarge _ => .indexError
  | missingKey _ => .keyError
  | limit _ => .memoryError
  | _ => .typeError

def message : Complaint → String
  | outOfRange u => u.message
  | notSubscriptable type => s!"'{type}' object is unsubscriptable"
  | noIndexing type => s!"'{type}' object does not support indexing"
  | noAssignment type => s!"'{type}' object does not support item assignment"
  | noDeletion type => s!"'{type}' object does not support item deletion"
  | sequenceIndex keyType => s!"sequence index must be integer, not '{keyType}'"
  | ownIndex u keyType => u.owner ++ s!" indices must be integers, not '{keyType}'"
  | notAnIndex type => s!"'{type}' object cannot be interpreted as an index"
  | indexTooLarge keyType => s!"cannot fit '{keyType}' into an index-sized integer"
  | indexNotInteger type => s!"__index__ returned non-int (type {type})"
  | unhashable type => s!"unhashable type: '{type}'"
  | missingKey shown => shown
  | notInstantiable type => s!"cannot create '{type}' instances"
  | unregistered id => s!"TypeId({id}) was not registered with this runtime"
  | limit e => e.message

def exception (c : Complaint) : Exception :=
  .withMessage c.cls c.message

end Complaint

end ItemAccess
