import ItemAccess.Object.Key

/-!
# What a slot of the store holds

Lists, tuples, dicts and instances hold values; byte strings and big integers hold none. A dict
keeps its entries in the order in which their keys were first put in.
-/

namespace ItemAccess

/-- An entry of a dict: what the key stands for, the key as it was first given, and the value. -/
structure DictEntry where
  hash : Key
  key : Value
  value : Value
deriving DecidableEq

namespace Dict

def get? (entries : List DictEntry) (k : Key) : Option Value :=
  (entries.find? (·.hash = k)).map (·.value)

/-- Stores a value. An equal key that is there already stays, with its place; the given key object
and the old value are then left over. -/
def insert (entries : List DictEntry) (k : Key) (key value : Value) :
    List DictEntry × List Value :=
  match entries with
  | [] => ([⟨k, key, value⟩], [])
  | e :: rest =>
    if e.hash = k then ({ e with value := value } :: rest, [key, e.value])
    else
      let (rest, leftOver) := insert rest k key value
      (e :: rest, leftOver)

def remove? (entries : List DictEntry) (k : Key) : Option (DictEntry × List DictEntry) :=
  (entries.find? (·.hash = k)).map (·, entries.eraseP (·.hash = k))

def children (entries : List DictEntry) : List Value :=
  entries.flatMap fun e => [e.key, e.value]

end Dict

inductive Body where
  | list (items : List Value)
  | tuple (items : List Value)
  | dict (entries : List DictEntry)
  | bytes (data : List UInt8)
  | bigInt (n : Int)
  | inst (type : TypeId) (fields : List Value)
deriving DecidableEq

namespace Body

def typeId : Body → TypeId
  | list _ => BuiltinKind.list.typeId
  | tuple _ => BuiltinKind.tuple.typeId
  | dict _ => BuiltinKind.dict.typeId
  | bytes _ => BuiltinKind.bytes.typeId
  | bigInt _ => BuiltinKind.int.typeId
  | inst type _ => type

def list? : Body → Option (List Value)
  | list items => some items
  | _ => none

def tuple? : Body → Option (List Value)
  | tuple items => some items
  | _ => none

def dict? : Body → Option (List DictEntry)
  | dict entries => some entries
  | _ => none

def bytes? : Body → Option (List UInt8)
  | bytes data => some data
  | _ => none

/-- The values held, in the order in which they are released. -/
def children : Body → List Value
  | list items => items
  | tuple items => items
  | dict entries => Dict.children entries
  | bytes _ => []
  | bigInt _ => []
  | inst _ fields => fields

def bitLength (n : Nat) : Nat :=
  if n = 0 then 0 else n.log2 + 1

def itemSize : Nat := 16

def entrySize : Nat := 48

def baseSize : Nat := 88

def size : Body → Nat
  | list items => baseSize + items.length * itemSize
  | tuple items => baseSize + items.length * itemSize
  | dict entries => baseSize + entries.length * entrySize
  | bytes data => baseSize + data.length
  | bigInt n => baseSize + (bitLength n.natAbs + 7) / 8
  | inst _ fields => baseSize + fields.length * itemSize

def kindName : Body → String
  | list _ => "List"
  | tuple _ => "Tuple"
  | dict _ => "Dict"
  | bytes _ => "ByteStr"
  | bigInt _ => "LongInt"
  | inst _ _ => "Instance"

def kindNames : List String := ["ByteStr", "Dict", "Instance", "List", "LongInt", "Tuple"]

end Body

end ItemAccess
