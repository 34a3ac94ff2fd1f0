import ItemAccess.Failure.Fault
import ItemAccess.Slot.Registry
import Mathlib.Data.List.Infix

/-!
# The types of a registry

A registry holds the built-in types and behind them the types of the host. Every slot of a built-in
type is one of the machine's own, made for that type.
-/

namespace ItemAccess

variable {υ : SlotKind → Type}

def Container.kind : Container → BuiltinKind
  | list => .list
  | tuple => .tuple
  | dict => .dict
  | bytes => .bytes

/-- What a slot of the machine works on; whether something is an index can be asked of any value. -/
def BuiltinSlot.receiver? : {k : SlotKind} → BuiltinSlot k → Option Container
  | _, listGet | _, listSet | _, listDel | _, listGetAt | _, listSetAt | _, listLength =>
    some .list
  | _, tupleGet | _, tupleGetAt | _, tupleLength => some .tuple
  | _, bytesGet | _, bytesGetAt | _, bytesLength => some .bytes
  | _, dictGet | _, dictSet | _, dictDel => some .dict
  | _, intAsIndex => none

/-- The slots of a built-in type are the machine's, and made for this type. -/
theorem BuiltinKind.slot?_spec {model : TextModel} {kind : BuiltinKind} {k : SlotKind} {s : Slot υ k}
    (hs : (TypeObject.ofSpec (some kind) (kind.spec model)).slot? k = some s) :
    ∃ b, s = .builtin b ∧ ∀ c, b.receiver? = some c → c.kind = kind := by
  cases kind <;> cases k <;> cases hs
  all_goals exact ⟨_, rfl, fun c hc => by cases hc <;> rfl⟩

/-- The slots by which the objects of a type are accessed are the host's. -/
def TypeObject.HostServed (t : TypeObject υ) : Prop :=
  ∀ k, k ≠ .asIndex → ∀ s, t.slot? k = some s → ∃ u, s = .host u

def Slot.isHost {k : SlotKind} : Slot υ k → Bool
  | builtin _ => false
  | host _ => true

theorem Slot.isHost_iff {k : SlotKind} {s : Slot υ k} : s.isHost = true ↔ ∃ u, s = host u := by
  cases s <;> simp [isHost]

theorem TypeObject.hostServed_iff {t : TypeObject υ} :
    t.HostServed ↔ ∀ k ∈ [SlotKind.get, .set, .del, .getAt, .setAt, .length],
      (t.slot? k).all (·.isHost) = true := by
  simp only [HostServed, Option.all_eq_true, Slot.isHost_iff]
  exact ⟨fun h k hk => h k (by rintro rfl; simp at hk), fun h k hk => h k (by cases k <;> simp_all)⟩

instance (t : TypeObject υ) : Decidable t.HostServed :=
  decidable_of_iff _ TypeObject.hostServed_iff.symm

namespace Registry

variable {g : Registry υ} {id : TypeId} {t : TypeObject υ}

/-- The built-in types come first, and no other type is built in. -/
def Built (g : Registry υ) : Prop :=
  ∃ model hosts, g.types = (builtins model).types ++ hosts ∧ ∀ t ∈ hosts, t.builtin = none

def HostServed (g : Registry υ) : Prop :=
  ∀ t ∈ g.types, t.builtin = none → t.HostServed

theorem types_builtins (model : TextModel) : (builtins model : Registry υ).types =
    BuiltinKind.all.map fun k => .ofSpec (some k) (k.spec model) := rfl

theorem builtins_built (model : TextModel) : (builtins model : Registry υ).Built :=
  ⟨model, [], (List.append_nil _).symm, fun _ ht => absurd ht List.not_mem_nil⟩

theorem builtins_hostServed (model : TextModel) : (builtins model : Registry υ).HostServed := by
  intro t ht hb
  rw [types_builtins] at ht
  obtain ⟨k, -, rfl⟩ := List.mem_map.1 ht
  cases hb

theorem get?_builtins (model : TextModel) (k : BuiltinKind) :
    (builtins model : Registry υ).get? k.typeId = some (.ofSpec (some k) (k.spec model)) := by
  cases k <;> rfl

theorem get?_extend {g' : Registry υ} (hp : g.types <+: g'.types) (ht : g.get? id = some t) :
    g'.get? id = some t := by
  obtain ⟨rest, hrest⟩ := hp
  obtain ⟨hlt, -⟩ := List.getElem?_eq_some_iff.1 ht
  rw [Registry.get?, ← hrest, List.getElem?_append_left hlt]
  exact ht

theorem Built.get? (hg : g.Built) (k : BuiltinKind) :
    ∃ model, g.get? k.typeId = some (.ofSpec (some k) (k.spec model)) := by
  obtain ⟨model, hosts, htypes, -⟩ := hg
  have hp : (builtins model).types <+: g.types := htypes ▸ List.prefix_append _ hosts
  exact ⟨model, get?_extend hp (get?_builtins model k)⟩

/-- A type is a built-in one with its number, or the host's. -/
theorem Built.cases (hg : g.Built) (ht : g.get? id = some t) :
    (∃ model k, id = BuiltinKind.typeId k ∧ t = .ofSpec (some k) (k.spec model)) ∨
      t.builtin = none := by
  obtain ⟨model, hosts, htypes, hhosts⟩ := hg
  rw [Registry.get?, htypes, List.getElem?_append] at ht
  split at ht
  case isTrue hlt =>
    obtain ⟨k, hk, rfl⟩ : ∃ k, BuiltinKind.all[id.index]? = some k ∧
        TypeObject.ofSpec (some k) (k.spec model) = t := by
      simpa [types_builtins] using ht
    refine .inl ⟨model, k, ?_, rfl⟩
    have hall : BuiltinKind.all.map BuiltinKind.typeId = (List.range 8).map TypeId.mk := rfl
    have hid := congrArg (·[id.index]?) hall
    have hlt : id.index < 8 := by simpa [types_builtins, BuiltinKind.all] using hlt
    simp only [List.getElem?_map, hk, Option.map_some, List.getElem?_range hlt] at hid
    exact (Option.some.inj hid).symm
  case isFalse => exact .inr (hhosts t (List.mem_of_getElem? ht))

/-- The numbers of the built-in types belong to no type of the host. -/
theorem Built.ne_typeId (hg : g.Built) (ht : g.get? id = some t) (hb : t.builtin = none)
    (k : BuiltinKind) : id ≠ k.typeId := by
  rintro rfl
  obtain ⟨model, hk⟩ := hg.get? k
  obtain rfl := Option.some.inj (ht.symm.trans hk)
  cases hb

/-- A slot of the machine that works on a container stands in the container's type. -/
theorem Built.receiver (hg : g.Built) (hserved : g.HostServed) (ht : g.get? id = some t)
    {k : SlotKind} {b : BuiltinSlot k} (hs : t.slot? k = some (.builtin b)) {c : Container}
    (hc : b.receiver? = some c) : id = c.kind.typeId := by
  obtain ⟨model, kind, rfl, rfl⟩ | hhost := hg.cases ht
  · obtain ⟨b', heq, hb'⟩ := BuiltinKind.slot?_spec hs
    cases heq
    rw [hb' c hc]
  · have hk : k ≠ .asIndex := by
      rintro rfl
      cases b
      cases hc
    obtain ⟨u, hu⟩ := hserved t (List.mem_of_getElem? ht) hhost k hk _ hs
    cases hu

/-- A type with a sequence table but without a slot to read by key is the host's. -/
theorem Built.served (hg : g.Built) (hserved : g.HostServed) (ht : g.get? id = some t)
    (hget : t.slot? .get = none) {table : SequenceTable υ}
    (htable : t.capabilities.sequence? = some table) : t.HostServed := by
  obtain ⟨model, kind, rfl, rfl⟩ | hhost := hg.cases ht
  · cases kind with
    | list => cases hget
    | tuple => cases hget
    | bytes => cases hget
    | _ => cases htable
  · exact hserved t (List.mem_of_getElem? ht) hhost

theorem Built.register (hg : g.Built) (spec : TypeSpec υ) : (g.register spec).2.Built := by
  obtain ⟨model, hosts, htypes, hhosts⟩ := hg
  refine ⟨model, hosts ++ [.ofSpec none spec], ?_, ?_⟩
  · simp [Registry.register, Registry.insert, htypes]
  · intro t ht
    obtain ht | ht := List.mem_append.1 ht
    · exact hhosts t ht
    · obtain rfl := List.mem_singleton.1 ht
      rfl

theorem HostServed.register (hg : g.HostServed) {spec : TypeSpec υ}
    (hs : (TypeObject.ofSpec none spec).HostServed) : (g.register spec).2.HostServed := by
  intro t ht hb
  obtain ht | ht := List.mem_append.1 ht
  · exact hg t ht hb
  · obtain rfl := List.mem_singleton.1 ht
    exact hs

theorem prefix_register (g : Registry υ) (spec : TypeSpec υ) :
    g.types <+: (g.register spec).2.types :=
  List.prefix_append _ _

end Registry

end ItemAccess
