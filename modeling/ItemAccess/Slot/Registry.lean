import ItemAccess.Settings
import ItemAccess.Slot.Table

/-!
# The registry of types

Types are numbered in the order of their registration, the built-in ones first, and no type ever
changes. Beside the types there is a table of names, in which a registration overwrites what its name
meant before. Numbers are natural numbers; they fit 32 bits as long as there are no more than `2 ^ 32`
types, and a machine that numbers types by such words stops at the registration that comes after.
-/

namespace ItemAccess

structure TypeSpec (υ : SlotKind → Type) where
  name : String
  mapping : Option (MappingTable υ) := none
  sequence : Option (SequenceTable υ) := none
  asIndex : Option (Slot υ .asIndex) := none

structure TypeObject (υ : SlotKind → Type) where
  name : String
  builtin : Option BuiltinKind
  capabilities : Capabilities υ
  asIndex : Option (Slot υ .asIndex)

variable {υ : SlotKind → Type}

namespace TypeObject

def ofSpec (builtin : Option BuiltinKind) (spec : TypeSpec υ) : TypeObject υ :=
  ⟨spec.name, builtin, .resolve spec.mapping spec.sequence, spec.asIndex⟩

def slot? (t : TypeObject υ) : (k : SlotKind) → Option (Slot υ k)
  | .get => t.capabilities.get?
  | .set => t.capabilities.set?
  | .del => t.capabilities.del?
  | .getAt => t.capabilities.sequence?.bind (·.get)
  | .setAt => t.capabilities.sequence?.bind (·.set)
  | .length => t.capabilities.sequence?.bind (·.length)
  | .asIndex => t.asIndex

end TypeObject

/-- The name of byte strings: they are the text of a machine whose text is bytes. -/
def TextModel.bytesName : TextModel → String
  | .byteString => "str"
  | .unicode => "bytes"

def BuiltinKind.spec (model : TextModel) : BuiltinKind → TypeSpec υ
  | .noneType => { name := "NoneType" }
  | .bool => { name := "bool", asIndex := some (.builtin .intAsIndex) }
  | .int => { name := "int", asIndex := some (.builtin .intAsIndex) }
  | .float => { name := "float" }
  | .list =>
    { name := "list"
      mapping := some
        { get := some (.builtin .listGet), set := some (.builtin .listSet),
          del := some (.builtin .listDel) }
      sequence := some
        { get := some (.builtin .listGetAt), set := some (.builtin .listSetAt),
          length := some (.builtin .listLength) } }
  | .tuple =>
    { name := "tuple"
      mapping := some { get := some (.builtin .tupleGet) }
      sequence := some
        { get := some (.builtin .tupleGetAt), length := some (.builtin .tupleLength) } }
  | .dict =>
    { name := "dict"
      mapping := some
        { get := some (.builtin .dictGet), set := some (.builtin .dictSet),
          del := some (.builtin .dictDel) } }
  | .bytes =>
    { name := model.bytesName
      mapping := some { get := some (.builtin .bytesGet) }
      sequence := some
        { get := some (.builtin .bytesGetAt), length := some (.builtin .bytesLength) } }

@[ext]
structure Registry (υ : SlotKind → Type) where
  types : List (TypeObject υ)
  names : List (String × TypeId)

namespace Registry

def empty : Registry υ := ⟨[], []⟩

def insert (g : Registry υ) (builtin : Option BuiltinKind) (spec : TypeSpec υ) :
    TypeId × Registry υ :=
  let id : TypeId := ⟨g.types.length⟩
  (id, ⟨g.types ++ [.ofSpec builtin spec], (spec.name, id) :: g.names.filter (·.1 != spec.name)⟩)

def builtins (model : TextModel) : Registry υ :=
  BuiltinKind.all.foldl (fun g k => (g.insert (some k) (k.spec model)).2) empty

def register (g : Registry υ) (spec : TypeSpec υ) : TypeId × Registry υ :=
  g.insert none spec

def get? (g : Registry υ) (id : TypeId) : Option (TypeObject υ) :=
  g.types[id.index]?

def find? (g : Registry υ) (name : String) : Option TypeId :=
  g.names.lookup name

end Registry

end ItemAccess
