import ItemAccess.Failure.Failure

/-!
# Indices and positions

An index counts from the front, or, if negative, from the end; a position always counts from the
front. Indices are 64-bit integers, lengths are naturals.
-/

namespace ItemAccess.Position

def checked (i : Int64) (len : Nat) : Option Nat :=
  if i < 0 then
    if i.toInt.natAbs ≤ len then some (len - i.toInt.natAbs) else none
  else if i.toInt.toNat < len then some i.toInt.toNat
  else none

def normalize (u : IndexUse) (i : Int64) (len : Nat) : Except Failure Nat :=
  match checked i len with
  | some p => .ok p
  | none => .error (.ofComplaint (.outOfRange u))

/-- The position that an index means when counting from the end is not understood. -/
def absolute (i : Int64) (len : Nat) : Option Nat :=
  if i < 0 then none
  else if i.toInt.toNat < len then some i.toInt.toNat
  else none

/-- A negative index raised by a length, at most to the largest index. -/
def wrap (i : Int64) (len : Nat) : Int64 :=
  if i < 0 then
    if i.toInt + len ≤ Int64.maxValue.toInt then Int64.ofInt (i.toInt + len) else Int64.maxValue
  else i

def ofInt? (n : Int) : Option Int64 :=
  if Int64.minValue.toInt ≤ n ∧ n ≤ Int64.maxValue.toInt then some (Int64.ofInt n) else none

end ItemAccess.Position
