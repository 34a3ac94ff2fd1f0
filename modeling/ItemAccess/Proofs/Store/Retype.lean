import ItemAccess.Proofs.Slot.Registry
import ItemAccess.Proofs.Store.ReleaseOrder
import ItemAccess.Proofs.Store.Walk

/-!
# The numbers of types in the store

Instances carry the number of their type, and the store never looks at it: if the types are numbered in
another way, every operation of the store does the same as before. A store is typed by a registry if the
numbers that its objects carry belong to types of the registry; the operations keep that too.
-/

namespace ItemAccess

variable {υ : SlotKind → Type} {g : Registry υ} {f : TypeId → TypeId}

def Body.retype (f : TypeId → TypeId) : Body → Body
  | .inst type fields => .inst (f type) fields
  | b => b

def Entry.retype (f : TypeId → TypeId) (e : Entry) : Entry :=
  { e with body := e.body.retype f }

def Heap.retype (f : TypeId → TypeId) (h : Heap) : Heap :=
  { h with slots := h.slots.map (Option.map (Entry.retype f)) }

namespace Body

theorem retype_id (b : Body) : b.retype id = b := by
  cases b <;> rfl

@[simp] theorem size_retype (b : Body) : (b.retype f).size = b.size := by
  cases b <;> rfl

theorem list?_retype (b : Body) : (b.retype f).list? = b.list? := by
  cases b <;> rfl

theorem tuple?_retype (b : Body) : (b.retype f).tuple? = b.tuple? := by
  cases b <;> rfl

theorem dict?_retype (b : Body) : (b.retype f).dict? = b.dict? := by
  cases b <;> rfl

theorem bytes?_retype (b : Body) : (b.retype f).bytes? = b.bytes? := by
  cases b <;> rfl

theorem typeId_retype (hf : ∀ k : BuiltinKind, f k.typeId = k.typeId) (b : Body) :
    (b.retype f).typeId = f b.typeId := by
  cases b with
  | list items => exact (hf .list).symm
  | tuple items => exact (hf .tuple).symm
  | dict entries => exact (hf .dict).symm
  | bytes data => exact (hf .bytes).symm
  | bigInt n => exact (hf .int).symm
  | inst type fields => rfl

end Body

namespace Heap

variable {h h' : Heap} {r : Handle} {v : Value}

theorem retype_id (h : Heap) : h.retype id = h := by
  have hentry : Entry.retype id = id := by
    funext e
    simp [Entry.retype, Body.retype_id]
  simp [retype, hentry]

theorem getElem?_retype (h : Heap) (i : Nat) :
    (h.retype f).slots[i]? = h.slots[i]?.map (Option.map (Entry.retype f)) :=
  Array.getElem?_map

@[simp] theorem size_retype (h : Heap) : (h.retype f).slots.size = h.slots.size :=
  Array.size_map

theorem lookup?_retype (h : Heap) (r : Handle) :
    (h.retype f).lookup? r = (h.lookup? r).map (Entry.retype f) := by
  rw [lookup?, lookup?, getElem?_retype]
  cases h.slots[r.index]? <;> rfl

theorem entry_retype (h : Heap) (t : Touch) (r : Handle) :
    (h.retype f).entry t r = (h.entry t r).map (Entry.retype f) := by
  rw [entry, entry, getElem?_retype]
  rcases h.slots[r.index]? with _ | _ | e <;> rfl

theorem body_retype (h : Heap) (r : Handle) : (h.retype f).body r = (h.body r).map (Body.retype f) := by
  rw [body, body, entry_retype]
  cases h.entry .get r <;> rfl

/-- Numbers that no object carries make no difference. -/
theorem retype_eq_self (hf : ∀ r e, h.lookup? r = some e → f e.body.typeId = e.body.typeId) :
    h.retype f = h := by
  have hslots : h.slots.map (Option.map (Entry.retype f)) = h.slots := by
    apply Array.ext_getElem?
    intro i
    rw [Array.getElem?_map]
    rcases hslot : h.slots[i]? with _ | _ | e
    · rfl
    · rfl
    · have hid := hf ⟨i⟩ e (lookup?_eq_some.2 hslot)
      have hbody : e.body.retype f = e.body := by
        cases hb : e.body with
        | inst type fields =>
          rw [hb] at hid
          exact congrArg (Body.inst · fields) hid
        | _ => rfl
      simp [Entry.retype, hbody]
  rw [retype, hslots]

theorem isLive_retype (h : Heap) (r : Handle) : (h.retype f).isLive r = h.isLive r := by
  rw [isLive, isLive, lookup?_retype, Option.isSome_map]

theorem typeOf_retype (hf : ∀ k : BuiltinKind, f k.typeId = k.typeId) (h : Heap) (v : Value) :
    (h.retype f).typeOf v = (h.typeOf v).map f := by
  cases v with
  | none => exact congrArg Except.ok (hf .noneType).symm
  | bool b => exact congrArg Except.ok (hf .bool).symm
  | int i => exact congrArg Except.ok (hf .int).symm
  | float x => exact congrArg Except.ok (hf .float).symm
  | ref r =>
    rw [typeOf, typeOf, body_retype]
    cases h.body r with
    | error k => rfl
    | ok b => exact congrArg Except.ok (Body.typeId_retype hf b)

theorem hashWithin_retype (h : Heap) (depth : Nat) (v : Value) :
    (h.retype f).hashWithin depth v = h.hashWithin depth v := by
  induction depth generalizing v with
  | zero => rfl
  | succ depth ih =>
    cases v with
    | ref r =>
      have hwithin : (h.retype f).hashWithin depth = h.hashWithin depth := funext ih
      cases hb : h.body r with
      | error k =>
        have hb' : (h.retype f).body r = .error k := by rw [body_retype, hb]; rfl
        rw [hashWithin, hashWithin, hb, hb']
        rfl
      | ok b =>
        have hb' : (h.retype f).body r = .ok (b.retype f) := by rw [body_retype, hb]; rfl
        rw [hashWithin_ref depth hb, hashWithin_ref depth hb']
        cases b with
        | tuple items => simp only [Body.retype, hwithin]
        | _ => rfl
    | _ => rfl

theorem hash_retype (h : Heap) (v : Value) : (h.retype f).hash v = h.hash v := by
  rw [hash, hash, size_retype, hashWithin_retype]

end Heap

def Registry.Knows (g : Registry υ) (id : TypeId) : Prop :=
  ∃ t, g.get? id = some t

theorem Registry.Built.knows (hg : g.Built) (k : BuiltinKind) : g.Knows k.typeId := by
  obtain ⟨model, hk⟩ := hg.get? k
  exact ⟨_, hk⟩

namespace Heap

variable {h h' : Heap} {r : Handle} {e e' : Entry} {b b' : Body} {v : Value} {vs : List Value}
  {id : TypeId}

def TypedBy (h : Heap) (g : Registry υ) : Prop :=
  ∀ r e, h.lookup? r = some e → g.Knows e.body.typeId

namespace TypedBy

theorem body (ht : h.TypedBy g) (hb : h.body r = .ok b) : g.Knows b.typeId := by
  obtain ⟨e, he, rfl⟩ := body_eq_ok.1 hb
  exact ht r e he

theorem typeOf (ht : h.TypedBy g) (hg : g.Built) (hv : h.typeOf v = .ok id) : g.Knows id := by
  cases v with
  | none => cases hv; exact hg.knows .noneType
  | bool b => cases hv; exact hg.knows .bool
  | int i => cases hv; exact hg.knows .int
  | float x => cases hv; exact hg.knows .float
  | ref r =>
    obtain ⟨b, hb, rfl⟩ := except_map_eq_ok.1 hv
    exact ht.body hb

theorem of_slots (ht : h.TypedBy g) (hslots : h'.slots = h.slots) : h'.TypedBy g := by
  intro r e he
  rw [lookup?, hslots] at he
  exact ht r e he

theorem put (ht : h.TypedBy g) (he : h.lookup? r = some e) (hb : g.Knows e'.body.typeId) :
    (h.put r e').TypedBy g := by
  intro s e₁ he₁
  rw [lookup?_put he] at he₁
  split_ifs at he₁
  · cases he₁
    exact hb
  · exact ht s e₁ he₁

theorem retain (ht : h.TypedBy g) (hr : h.retain v = .ok h') : h'.TypedBy g := by
  cases v with
  | ref r =>
    obtain ⟨e, he, rfl⟩ := retainHandle_cases hr
    exact ht.put he (ht r e he)
  | _ => cases hr; exact ht

theorem releaseAll (ht : h.TypedBy g) (hr : h.releaseAll vs = .ok h') : h'.TypedBy g := by
  induction hr using releaseAll_induction with
  | nil h => exact ht
  | step hd _ ih =>
    apply ih
    cases hd with
    | immediate => exact ht
    | @fewer r e he => exact ht.put he (ht r e he)
    | last he =>
      intro s e₁ he₁
      rw [lookup?_vacate he] at he₁
      split_ifs at he₁
      exact ht s e₁ he₁

theorem setBody (ht : h.TypedBy g) (hb : g.Knows b.typeId)
    (hs : h.setBody r b = .ok h') : h'.TypedBy g := by
  obtain ⟨e, he, rfl⟩ := setBody_cases hs
  exact ht.put he hb

theorem grow {bytes : Nat} (ht : h.TypedBy g) (hg : h.grow r bytes = .ok (.ok h')) : h'.TypedBy g := by
  obtain ⟨charge, meter, e, -, he, rfl⟩ := grow_cases hg
  have hmeter : ({ h with meter := meter } : Heap).TypedBy g := ht.of_slots rfl
  exact hmeter.put he (ht r e he)

theorem shrink {bytes : Nat} (ht : h.TypedBy g) (hs : h.shrink r bytes = .ok h') : h'.TypedBy g := by
  obtain ⟨e, he, rfl⟩ := shrink_cases hs
  have hmeter : ({ h with meter := h.meter.free (min e.charge bytes) } : Heap).TypedBy g :=
    ht.of_slots rfl
  exact hmeter.put he (ht r e he)

theorem allocate (ht : h.TypedBy g) (hb : g.Knows b.typeId)
    (ha : h.allocate b = .ok (.ok (r, h'))) : h'.TypedBy g := by
  obtain ⟨charge, hlookup⟩ := lookup?_allocate ha
  intro s e he
  rw [hlookup] at he
  split_ifs at he
  · cases he
    exact hb
  · exact ht s e he

theorem byteString {x : UInt8} (ht : h.TypedBy g) (hg : g.Built)
    (hb : h.byteString x = .ok (.ok (r, h'))) : h'.TypedBy g := by
  rcases byteString_cases hb with ⟨-, hr⟩ | ⟨h₁, charge, -, ha, he, rfl⟩
  · exact ht.retain (v := .ref r) hr
  · have hbytes : g.Knows (Body.bytes [x]).typeId := hg.knows .bytes
    exact ((ht.allocate hbytes ha).put he hbytes).of_slots rfl

end TypedBy

end Heap

end ItemAccess
