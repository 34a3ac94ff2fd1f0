import ItemAccess.Object.Value

/-!
# Faults

A fault is a broken promise of the host, such as the use of a handle that it does not own. It ends
the computation: unlike a failure it cannot be handled, and nothing is observed afterwards.
-/

namespace ItemAccess

inductive Touch where
  | get
  | change
  | retain
  | release
  | grow
  | shrink
deriving DecidableEq, Repr

def Touch.name : Touch → String
  | .get => "Heap::get"
  | .change => "Heap::get_mut"
  | .retain => "Heap::inc_ref"
  | .release => "Heap::dec_ref"
  | .grow => "Heap::grow"
  | .shrink => "Heap::shrink"

inductive Container where
  | list
  | tuple
  | dict
  | bytes
deriving DecidableEq, Repr

def Container.name : Container → String
  | .list => "list"
  | .tuple => "tuple"
  | .dict => "dict"
  | .bytes => "string"

inductive Fault where
  | freed (t : Touch)
  | missing (t : Touch)
  | operandFreed (r : Handle)
  | pendingOnEntry
  | wrongReceiver (c : Container)
  | immediateReceiver (c : Container)
  | outOfBounds (count index : Nat)
  | noRemoval (count index : Nat)
  | endless
deriving DecidableEq, Repr

def Fault.message : Fault → String
  | .freed t => t.name ++ ": object already freed"
  | .missing t => t.name ++ ": slot missing"
  | .operandFreed r => s!"subscript operand HeapId({r.index}) has been freed"
  | .pendingOnEntry => "subscript operation entered with an untranslated pending error"
  | .wrongReceiver c =>
    s!"internal error: entered unreachable code: {c.name} slot called on a non-{c.name} value"
  | .immediateReceiver c => s!"{c.name} slot called on an immediate value"
  | .outOfBounds count index =>
    s!"index out of bounds: the len is {count} but the index is {index}"
  | .noRemoval count index =>
    s!"removal index (is {index}) should be < len (is {count})"
  | .endless => "computation without end"

end ItemAccess
