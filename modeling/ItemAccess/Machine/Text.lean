import ItemAccess.Machine.State
import ItemAccess.Text.ByteLiteral

/-!
# The text of a value

Containers are written with their items. While one is being written it is noted as open, and an open
container that comes up again is written as its brackets around three dots. So no path through the store
is longer than there are slots.
-/

namespace ItemAccess.Machine

variable {υ : SlotKind → Type} {ε : Type}

def bytesMark : TextModel → String
  | .byteString => ""
  | .unicode => "b"

/-- Computations that keep a note of the containers that are open. -/
abbrev Writing (υ : SlotKind → Type) (ε : Type) : Type → Type :=
  StateT (List Handle) (Action υ ε)

/-- Opens a container, writes it and closes it again, unless it is open already. -/
def enclosed (r : Handle) (dots : String) (inside : Writing υ ε String) : Writing υ ε String := do
  if r ∈ (← get) then return dots
  modify (r :: ·)
  let text ← inside
  modify (·.erase r)
  return text

def write : Nat → Value → Writing υ ε String
  | 0, _ => StateT.lift (Attempt.fault .endless)
  | depth + 1, v =>
    match v with
    | .none => return "None"
    | .bool true => return "True"
    | .bool false => return "False"
    | .int i => return toString i.toInt
    | .float x => return x.text
    | .ref r => do
      match ← StateT.lift (readHeap (·.body r)) with
      | .bytes data =>
        let m ← StateT.lift get
        return bytesMark m.settings.textModel ++ String.ofList (ByteLiteral.write data)
      | .bigInt n => return toString n
      | .inst type _ => return "<" ++ (← StateT.lift (typeName type)) ++ " object>"
      | .list items => enclosed r "[...]" do
        let parts ← items.mapM (write depth)
        return "[" ++ ", ".intercalate parts ++ "]"
      | .tuple items => enclosed r "(...)" do
        let parts ← items.mapM (write depth)
        return "(" ++ ", ".intercalate parts ++ (if items.length = 1 then ",)" else ")")
      | .dict entries => enclosed r "\x7b...\x7d" do
        let parts ← entries.mapM fun e => do
          let key ← write depth e.key
          let value ← write depth e.value
          return key ++ ": " ++ value
        return "\x7b" ++ ", ".intercalate parts ++ "\x7d"

def textOf (v : Value) : Action υ ε String := do
  let m ← get
  (write (m.heap.slots.size + 1) v).run' []

end ItemAccess.Machine
