import ItemAccess.Proofs.Slot.Registry
import ItemAccess.Proofs.Store.Keys

/-!
# Sound stores

What a host that uses only what it owns can rely on: the references that it owns are accounted for,
though others may be lost to it; tuples are nested finitely deep; every object is of the type that its
type number says, and the type is registered. Moves keep a store sound.
-/

namespace ItemAccess

variable {υ : SlotKind → Type} {g : Registry υ}

def Body.kind? : Body → Option BuiltinKind
  | list _ => some .list
  | tuple _ => some .tuple
  | dict _ => some .dict
  | bytes _ => some .bytes
  | bigInt _ => some .int
  | inst _ _ => none

theorem Body.kind?_of_typeId {b : Body} (hb : b.Allowed g) (hg : g.Built) {k : BuiltinKind}
    (ht : b.typeId = k.typeId) : b.kind? = some k := by
  cases b with
  | inst type fields =>
    obtain ⟨t, htype, hbuiltin⟩ := hb
    exact absurd ht (hg.ne_typeId htype hbuiltin k)
  | _ => cases k <;> first | rfl | exact absurd ht (by simp [typeId, BuiltinKind.typeId])

theorem Body.exists_list {b : Body} (hb : b.kind? = some .list) : ∃ items, b = list items := by
  cases b <;> first | exact ⟨_, rfl⟩ | cases hb

theorem Body.exists_tuple {b : Body} (hb : b.kind? = some .tuple) : ∃ items, b = tuple items := by
  cases b <;> first | exact ⟨_, rfl⟩ | cases hb

theorem Body.exists_dict {b : Body} (hb : b.kind? = some .dict) : ∃ entries, b = dict entries := by
  cases b <;> first | exact ⟨_, rfl⟩ | cases hb

theorem Body.exists_bytes {b : Body} (hb : b.kind? = some .bytes) : ∃ data, b = bytes data := by
  cases b <;> first | exact ⟨_, rfl⟩ | cases hb

theorem Body.Becomes.allowed {h : Heap} {b b' : Body} (hbb : b.Becomes h b') (hb : b.Allowed g) :
    b'.Allowed g := by
  cases hbb with
  | refl => exact hb
  | inst => exact hb
  | _ => exact trivial

theorem Body.Allowed.extend {g' : Registry υ} (hp : g.types <+: g'.types) {b : Body}
    (hb : b.Allowed g) : b.Allowed g' := by
  cases b with
  | inst type fields =>
    obtain ⟨t, ht, hbuiltin⟩ := hb
    exact ⟨t, Registry.get?_extend hp ht, hbuiltin⟩
  | bigInt n => exact hb
  | _ => exact trivial

namespace Heap

variable {writes : Handle → Prop} {h h' : Heap} {r : Handle} {v : Value}
  {owned taken given : Multiset Handle}

structure Sound (h : Heap) (g : Registry υ) (owned : Multiset Handle) : Prop where
  accounted : ∃ lost, h.Accounted (owned + lost)
  grounded : h.Grounded
  allowed : ∀ r e, h.lookup? r = some e → e.body.Allowed g
  built : g.Built
  served : g.HostServed

theorem empty_accounted (limits : Limits) : (empty limits).Accounted 0 := by
  refine ⟨fun r => ?_, fun r e he => ?_, nofun, List.nodup_nil⟩
  · simp [references, count?, lookup?, stored, total, kept, empty]
  · simp [lookup?, empty] at he

theorem empty_grounded (limits : Limits) : (empty limits).Grounded := by
  refine ⟨fun r => ⟨r, fun s hs => ?_⟩⟩
  obtain ⟨e, items, he, -⟩ := hs
  simp [lookup?, empty] at he

theorem empty_sound (limits : Limits) (model : TextModel) :
    (empty limits).Sound (.builtins model : Registry υ) 0 where
  accounted := ⟨0, empty_accounted limits⟩
  grounded := empty_grounded limits
  allowed := fun r e he => by simp [lookup?, empty] at he
  built := Registry.builtins_built model
  served := Registry.builtins_hostServed model

theorem Move.allowed (hm : Move g writes h taken given h') (hf : h.FreeListed)
    (ha : ∀ r e, h.lookup? r = some e → e.body.Allowed g) :
    ∀ r e, h'.lookup? r = some e → e.body.Allowed g := by
  intro r e' he'
  have hc := hm.slotChange hf r
  rw [he'] at hc
  cases he : h.lookup? r with
  | none =>
    rw [he] at hc
    cases hc with
    | made hb _ _ => exact hb
  | some e =>
    rw [he] at hc
    cases hc with
    | kept hb _ => exact hb.allowed (ha r e he)

namespace Sound

theorem move (hs : h.Sound g (owned + taken)) (hm : Move g writes h taken given h') :
    h'.Sound g (owned + given) := by
  obtain ⟨lost, ha⟩ := hs.accounted
  rw [add_right_comm] at ha
  refine ⟨⟨lost, ?_⟩, hm.grounded ha hs.grounded, hm.allowed ha.free hs.allowed, hs.built, hs.served⟩
  rw [add_right_comm]
  exact hm.accounted ha

theorem moves (hs : h.Sound g (owned + taken)) (hm : Moves g writes (h, taken) (h', given)) :
    h'.Sound g (owned + given) :=
  hm.invariant (fun h owned => h.Sound g owned) (fun hm hs => hs.move hm) hs

theorem hash_moves (hs : h.Sound g (owned + taken)) (hm : Moves g writes (h, taken) (h', given))
    (hv : ∀ r, v = .ref r → r ∈ owned) {k : Key} (hk : (h.hash v).run = .ok (.ok k)) :
    (h'.hash v).run = .ok (.ok k) := by
  obtain ⟨lost, ha⟩ := hs.accounted
  rw [add_right_comm] at ha
  exact (hm.hash ha (fun r hr => Multiset.mem_add.2 (.inl (hv r hr))) hk).2

/-- What is owned keeps its contents where nothing is written. -/
theorem stays {b : Body} (hs : h.Sound g (owned + taken))
    (hm : Moves g (fun _ => False) (h, taken) (h', given)) (hr : r ∈ owned)
    (hb : h.body r = .ok b) : h'.body r = .ok b := by
  obtain ⟨lost, ha⟩ := hs.accounted
  rw [add_right_comm] at ha
  obtain ⟨e, he, rfl⟩ := body_eq_ok.1 hb
  obtain ⟨-, -, e', he', -, hbody⟩ := hm.stays ha (.owned (Multiset.mem_add.2 (.inl hr))) he
  rw [← hbody id]
  exact body_of_lookup? he'

theorem register (hs : h.Sound g owned) {spec : TypeSpec υ}
    (hspec : (TypeObject.ofSpec none spec).HostServed) : h.Sound (g.register spec).2 owned where
  accounted := hs.accounted
  grounded := hs.grounded
  allowed := fun r e he => (hs.allowed r e he).extend (g.prefix_register spec)
  built := hs.built.register spec
  served := hs.served.register hspec

/-- References may be lost. -/
theorem lose {more : Multiset Handle} (hs : h.Sound g (owned + more)) : h.Sound g owned := by
  obtain ⟨lost, ha⟩ := hs.accounted
  exact ⟨⟨more + lost, add_assoc owned more lost ▸ ha⟩, hs.grounded, hs.allowed, hs.built, hs.served⟩

theorem closed (hs : h.Sound g owned) : h.Closed := by
  obtain ⟨lost, ha⟩ := hs.accounted
  exact ha.closed

/-- What an object holds is there. -/
theorem child (hs : h.Sound g owned) {b : Body} (hb : h.body r = .ok b) (hv : v ∈ b.children) :
    h.Present v := by
  obtain ⟨e, he, rfl⟩ := body_eq_ok.1 hb
  exact hs.closed r e he v hv

theorem free (hs : h.Sound g owned) : h.FreeListed := by
  obtain ⟨lost, ha⟩ := hs.accounted
  exact ha.free

theorem present (hs : h.Sound g owned) (hv : ∀ r, v = .ref r → r ∈ owned) : h.Present v := by
  rintro r rfl
  obtain ⟨lost, ha⟩ := hs.accounted
  exact ha.exists_of_owned (Multiset.mem_add.2 (.inl (hv r rfl)))

theorem releaseAll {vs : List Value} (hs : h.Sound g (owned + handles vs)) :
    ∃ h', h.releaseAll vs = .ok h' := by
  obtain ⟨lost, ha⟩ := hs.accounted
  exact Accounted.releaseAll (add_right_comm owned (handles vs) lost ▸ ha)

theorem byteString (hs : h.Sound g owned) (b : UInt8) : ∃ x, h.byteString b = .ok x := by
  obtain ⟨lost, ha⟩ := hs.accounted
  exact ha.byteString b

theorem hash (hs : h.Sound g owned) (hv : h.Present v) : ∃ x, (h.hash v).run = .ok x := by
  obtain ⟨lost, ha⟩ := hs.accounted
  exact ha.hash hs.grounded hv

/-- Every value that is there has a type. -/
theorem typeObject (hs : h.Sound g owned) {id : TypeId} (hv : h.typeOf v = .ok id) :
    ∃ t, g.get? id = some t := by
  have hbuiltin (k : BuiltinKind) : ∃ t, g.get? k.typeId = some t :=
    (hs.built.get? k).imp' _ fun _ hk => hk
  cases v with
  | ref r =>
    obtain ⟨b, hb, rfl⟩ := except_map_eq_ok.1 hv
    obtain ⟨e, he, rfl⟩ := body_eq_ok.1 hb
    have hallowed := hs.allowed r e he
    cases hbody : e.body with
    | inst type fields =>
      rw [hbody] at hallowed
      obtain ⟨t, ht, -⟩ := hallowed
      exact ⟨t, ht⟩
    | _ => exact hbuiltin _
  | _ => cases hv; exact hbuiltin _

/-- An object is of the built-in type that its number says. -/
theorem kind? (hs : h.Sound g owned) {k : BuiltinKind} (hv : h.typeOf (.ref r) = .ok k.typeId) :
    ∃ b, h.body r = .ok b ∧ b.kind? = some k := by
  obtain ⟨b, hb, ht⟩ := except_map_eq_ok.1 hv
  obtain ⟨e, he, rfl⟩ := body_eq_ok.1 hb
  exact ⟨e.body, hb, Body.kind?_of_typeId (hs.allowed r e he) hs.built ht⟩

/-- A value with the type number of a container is a container of this kind. -/
theorem container (hs : h.Sound g owned) {c : Container} (hv : h.typeOf v = .ok c.kind.typeId) :
    ∃ r b, v = .ref r ∧ h.body r = .ok b ∧ b.kind? = some c.kind := by
  cases v with
  | ref r =>
    obtain ⟨b, hb, hk⟩ := hs.kind? hv
    exact ⟨r, b, rfl, hb, hk⟩
  | _ => cases c <;> cases hv

end Sound

end Heap

end ItemAccess
