import ItemAccess.Json.Basic
import ItemAccess.Number.Layout

/-!
# Values, handles and types

A value is an immediate or a handle, which names a slot of the store. The types built into the
machine have the first eight numbers; the types of the host follow.
-/

namespace ItemAccess

structure Handle where
  index : Nat
deriving DecidableEq, Repr

inductive Value where
  | none
  | bool (b : Bool)
  | int (i : Int64)
  | float (x : Binary64)
  | ref (r : Handle)
deriving DecidableEq

namespace Value

def handle? : Value → Option Handle
  | ref r => some r
  | _ => Option.none

/-- Immediates are the same when they are of one sort and equal, handles when they name one slot. -/
def same : Value → Value → Bool
  | none, none => true
  | bool a, bool b => a == b
  | int i, int j => i == j
  | float x, float y => x.sameNumber y
  | ref r, ref s => r == s
  | _, _ => false

end Value

inductive BuiltinKind where
  | noneType
  | bool
  | int
  | float
  | list
  | tuple
  | dict
  | bytes
deriving DecidableEq, Repr

namespace BuiltinKind

/-- In the order of their type numbers. -/
def all : List BuiltinKind := [noneType, bool, int, float, list, tuple, dict, bytes]

def name : BuiltinKind → String
  | noneType => "NoneType"
  | bool => "Bool"
  | int => "Int"
  | float => "Float"
  | list => "List"
  | tuple => "Tuple"
  | dict => "Dict"
  | bytes => "ByteStr"

def byName : List BuiltinKind := [bool, bytes, dict, float, int, list, noneType, tuple]

def ofName? (s : String) : Option BuiltinKind :=
  all.find? (·.name == s)

def ofJson? (j : Json) : Option BuiltinKind :=
  j.variant?.bind ofName?

end BuiltinKind

structure TypeId where
  index : Nat
deriving DecidableEq, Repr

def BuiltinKind.typeId : BuiltinKind → TypeId
  | noneType => ⟨0⟩
  | bool => ⟨1⟩
  | int => ⟨2⟩
  | float => ⟨3⟩
  | list => ⟨4⟩
  | tuple => ⟨5⟩
  | dict => ⟨6⟩
  | bytes => ⟨7⟩

end ItemAccess
