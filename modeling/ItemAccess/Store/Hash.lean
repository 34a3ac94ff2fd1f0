import ItemAccess.Store.Heap

/-!
# What a value stands for as a key

Lists and dicts have no key, and neither has a tuple that holds one through any number of tuples.
Tuples nest no deeper than there are slots, unless one holds itself; the walk therefore counts down
from the number of slots.
-/

namespace ItemAccess.Heap

/-- The key of a value, or the type that keeps it from having one. -/
def hashWithin (h : Heap) : Nat → Value → ExceptT TypeId (Except Fault) Key
  | 0, _ => throwThe Fault .endless
  | depth + 1, v =>
    match v with
    | .none => return .none
    | .bool b => return .integer (if b then 1 else 0)
    | .int i => return .integer i
    | .float x => return .ofBinary64 x
    | .ref r => do
      match ← h.body r with
      | .bytes data => return .bytes data
      | .bigInt n => return .bigInt n
      | .tuple items => return .tuple (← items.mapM (h.hashWithin depth))
      | .inst _ _ => return .identity r
      | b@(.list _) => throw b.typeId
      | b@(.dict _) => throw b.typeId

def hash (h : Heap) (v : Value) : ExceptT TypeId (Except Fault) Key :=
  h.hashWithin (h.slots.size + 1) v

end ItemAccess.Heap
