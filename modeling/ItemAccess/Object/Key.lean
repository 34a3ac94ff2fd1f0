import ItemAccess.Object.Position
import ItemAccess.Object.Value

/-!
# Keys of a dict

A dict compares what its keys stand for. Numbers of any sort that equal one integer have one key, of
one kind if the integer fits an index and of another if it does not; a float that equals no integer is
told by its bits, byte strings by their bytes, tuples by the keys of their items and instances by the
slot they live in.
-/

namespace ItemAccess

inductive Key where
  | none
  | integer (i : Int64)
  | bigInt (n : Int)
  | float (x : Binary64)
  | bytes (data : List UInt8)
  | tuple (items : List Key)
  | identity (r : Handle)

namespace Key

mutual

def decEq : (a b : Key) → Decidable (a = b)
  | none, none => isTrue rfl
  | integer i, integer j => decidable_of_iff (i = j) (by simp)
  | bigInt m, bigInt n => decidable_of_iff (m = n) (by simp)
  | float x, float y => decidable_of_iff (x = y) (by simp)
  | bytes s, bytes t => decidable_of_iff (s = t) (by simp)
  | tuple as, tuple bs => match decEqItems as bs with
    | isTrue h => isTrue (by rw [h])
    | isFalse h => isFalse (by simpa using h)
  | identity r, identity s => decidable_of_iff (r = s) (by simp)
  | none, integer _ | none, bigInt _ | none, float _ | none, bytes _ | none, tuple _
  | none, identity _ | integer _, none | integer _, bigInt _ | integer _, float _
  | integer _, bytes _ | integer _, tuple _ | integer _, identity _ | bigInt _, none
  | bigInt _, integer _ | bigInt _, float _ | bigInt _, bytes _ | bigInt _, tuple _
  | bigInt _, identity _ | float _, none | float _, integer _ | float _, bigInt _ | float _, bytes _
  | float _, tuple _ | float _, identity _ | bytes _, none | bytes _, integer _ | bytes _, bigInt _
  | bytes _, float _ | bytes _, tuple _ | bytes _, identity _ | tuple _, none | tuple _, integer _
  | tuple _, bigInt _ | tuple _, float _ | tuple _, bytes _ | tuple _, identity _ | identity _, none
  | identity _, integer _ | identity _, bigInt _ | identity _, float _ | identity _, bytes _
  | identity _, tuple _ => isFalse (by simp)

def decEqItems : (as bs : List Key) → Decidable (as = bs)
  | [], [] => isTrue rfl
  | [], _ :: _ => isFalse (by simp)
  | _ :: _, [] => isFalse (by simp)
  | a :: as, b :: bs => match decEq a b with
    | isFalse h => isFalse (by simp [h])
    | isTrue h => match decEqItems as bs with
      | isTrue hs => isTrue (by rw [h, hs])
      | isFalse hs => isFalse (by simp [hs])

end

instance : DecidableEq Key := decEq

def ofInt (n : Int) : Key :=
  match Position.ofInt? n with
  | some i => integer i
  | Option.none => bigInt n

-- The upper bound is rounded to the first integer that does not fit, so it is excluded.
def ofBinary64 (x : Binary64) : Key :=
  if !x.isFinite || x.hasFraction then float x
  else if (Binary64.ofInt64 Int64.minValue).le x && x.lt (.ofInt64 Int64.maxValue) then
    integer x.toInt64
  else match x.wholePart? with
    | some n => bigInt n
    | Option.none => float x

end Key

end ItemAccess
