import ItemAccess.Failure.Failure
import ItemAccess.Object.Value

/-!
# Events of item access

An access reports how it was served, and then its failure if it fails. It is served by the short way
for containers that the machine knows, or through a slot of the type.
-/

namespace ItemAccess

inductive Operation where
  | get
  | getConst
  | set
  | del
deriving DecidableEq, Repr

namespace Operation

def all : List Operation := [get, getConst, set, del]

def name : Operation → String
  | get => "Get"
  | getConst => "GetConst"
  | set => "Set"
  | del => "Del"

def ofName? (s : String) : Option Operation :=
  all.find? (·.name == s)

end Operation

/-- The table whose slot serves an access. Deletion names none. -/
inductive Route where
  | mapping
  | sequence
  | generic
deriving DecidableEq, Repr

namespace Route

def all : List Route := [mapping, sequence, generic]

def name : Route → String
  | mapping => "Mapping"
  | sequence => "Sequence"
  | generic => "Generic"

def ofName? (s : String) : Option Route :=
  all.find? (·.name == s)

end Route

inductive Event where
  | direct (kind : BuiltinKind) (position : Nat)
  | dispatch (op : Operation) (route : Route) (type : String)
  | failure (op : Operation) (f : Failure)
deriving DecidableEq, Repr

/-- Of a failure only the kind and the class of the exception, without its message. -/
def Event.recorded : Event → Event
  | failure op f => failure op ⟨f.kind, ⟨f.cls, none⟩⟩
  | e => e

end ItemAccess
