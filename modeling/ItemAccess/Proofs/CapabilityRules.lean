import ItemAccess.Proofs.Machine.Serving
import ItemAccess.Script.HostSlot

/-!
# A type serves its instances by the tables it was registered with

The tables may be missing, empty or partly filled, and the slots in them are arbitrary. Reading and
storing look for a slot by key, then for one by position; deleting looks for a slot by key only. The
rules are stated of the tables as they were given.
-/

namespace ItemAccess

open Attempt Machine

variable {υ : SlotKind → Type} {H : Host υ} {m : Machine υ} {id kid : TypeId} {kt : TypeObject υ}
  {spec : TypeSpec υ} {key : Value} {r : Handle} {fields : List Value}

namespace TypeSpec

def slot? (spec : TypeSpec υ) : (k : SlotKind) → Option (Slot υ k)
  | .get => spec.mapping.bind (·.get)
  | .set => spec.mapping.bind (·.set)
  | .del => spec.mapping.bind (·.del)
  | .getAt => spec.sequence.bind (·.get)
  | .setAt => spec.sequence.bind (·.set)
  | .length => spec.sequence.bind (·.length)
  | .asIndex => spec.asIndex

def reading (spec : TypeSpec υ) (H : Host υ) (op : Operation) (source key : Value) :
    Service υ Value where
  op := op
  byKey := (spec.slot? .get).map fun s => callGet H s source key
  byPosition := (spec.slot? .getAt).map fun s => callGetAt H s source
  length := spec.slot? .length
  sequential := spec.sequence.any fun S => S.get.isSome || S.set.isSome || S.length.isSome
  noIndexing :=
    ⟨.typeMismatch, .withMessage .typeError s!"'{spec.name}' object does not support indexing"⟩
  unserved := ⟨.typeMismatch, .withMessage .typeError s!"'{spec.name}' object is unsubscriptable"⟩

def noAssignment (spec : TypeSpec υ) : Failure :=
  ⟨.typeMismatch, .withMessage .typeError s!"'{spec.name}' object does not support item assignment"⟩

def storing (spec : TypeSpec υ) (H : Host υ) (v target key : Value) : Service υ Unit where
  op := .set
  byKey := (spec.slot? .set).map fun s => callSet H s target key v
  byPosition := (spec.slot? .setAt).map fun s i => callSetAt H s target i v
  length := spec.slot? .length
  sequential := spec.sequence.any fun S => S.get.isSome || S.set.isSome || S.length.isSome
  noIndexing := spec.noAssignment
  unserved := spec.noAssignment

def deleting (spec : TypeSpec υ) (H : Host υ) (target key : Value) : Action υ Failure Unit :=
  match spec.slot? .del with
  | some s => settle (callDel H s target key)
  | none =>
    throw ⟨.typeMismatch, .withMessage .typeError s!"'{spec.name}' object does not support item deletion"⟩

end TypeSpec

namespace Machine

variable {obj v : Value}

/-- A slot of the host is called with the object and with what the rules hand over, and with nothing
else. -/
theorem callGet_host (u : υ .get) : callGet H (.host u) obj key = H.get u obj key := rfl

theorem callSet_host (u : υ .set) : callSet H (.host u) obj key v = H.set u obj key v := rfl

theorem callDel_host (u : υ .del) : callDel H (.host u) obj key = H.del u obj key := rfl

theorem callGetAt_host (u : υ .getAt) (i : Int64) :
    callGetAt H (.host u) obj i = H.getAt u obj i := rfl

theorem callSetAt_host (u : υ .setAt) (i : Int64) :
    callSetAt H (.host u) obj i v = H.setAt u obj i v := rfl

theorem callAsIndex_host (u : υ .asIndex) : callAsIndex H (.host u) obj = H.asIndex u obj := rfl

/-- A length is read off the machine, which stays as it is. -/
theorem run_callLength_host {ε : Type} (u : υ .length) :
    (callLength H (.host u) obj : Action υ ε Nat).run m =
      match H.length u m obj with
      | .ok n => .done n m
      | .error f => .fault f := by
  simp only [callLength, run_bind, run_get, run_liftM]
  cases H.length u m obj <;> rfl

end Machine

namespace Capabilities

variable {mapping : Option (MappingTable υ)} {sequence : Option (SequenceTable υ)}

end Capabilities

namespace TypeObject

variable {b : Option BuiltinKind}

end TypeObject

/-- The type was registered with the tables of `spec`, and since then types have only been added. -/
def Registry.Registered (g : Registry υ) (id : TypeId) (spec : TypeSpec υ) : Prop :=
  ∃ g₀ : Registry υ, (g₀.register spec).1 = id ∧ (g₀.register spec).2.types <+: g.types

theorem Registry.Registered.get? {g : Registry υ} (h : g.Registered id spec) :
    g.get? id = some (.ofSpec none spec) := by
  obtain ⟨g₀, rfl, hp⟩ := h
  exact get?_extend hp (by simp [Registry.get?, register, insert])

end ItemAccess
