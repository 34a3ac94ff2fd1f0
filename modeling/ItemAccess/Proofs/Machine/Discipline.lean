import ItemAccess.Proofs.Machine.State

/-!
# Disciplines

A discipline is a way of looking at the references that are owned: what holds of them and the store
before a request holds after it. The moves of the store keep it, and so do the slots of the host by
assumption; hence all operations of the machine do. A discipline that excludes faults promises that
the store is sound.
-/

namespace ItemAccess

open Attempt

variable {υ : SlotKind → Type}

def Value.Within (v : Value) (owned : Multiset Handle) : Prop :=
  ∀ r, v = .ref r → r ∈ owned

instance (v : Value) (owned : Multiset Handle) : Decidable (v.Within owned) :=
  decidable_of_iff (∀ r ∈ v.handle?, r ∈ owned) (by cases v <;> simp [Value.Within, Value.handle?])

theorem Value.Within.mono {v : Value} {owned : Multiset Handle} (hv : v.Within owned)
    (more : Multiset Handle) : v.Within (owned + more) :=
  fun r hr => Multiset.mem_add.2 (.inl (hv r hr))

def SlotKind.Changes : SlotKind → Prop
  | .set | .del | .setAt => True
  | .get | .getAt | .length | .asIndex => False

structure Discipline (υ : SlotKind → Type) where
  /-- What holds of the store, the types and the references that are owned. -/
  good : Heap → Registry υ → Multiset Handle → Prop
  /-- Whether faults are excluded. -/
  safe : Prop
  /-- What may be pending when a slot of the host is called. -/
  calm : Pending → Prop
  /-- The objects whose contents may change, where faults are excluded. -/
  writes : Handle → Prop
  /-- Whether what is owned must keep its key. -/
  keyed : Prop
  /-- Whether what is held must change as its kind allows. -/
  evolving : Prop
  moved : ∀ {h h' : Heap} {g : Registry υ} {owned taken given : Multiset Handle},
    Heap.Move g (fun r => safe → writes r) h taken given h' → good h g (owned + taken) →
      good h' g (owned + given)
  registered : ∀ {h : Heap} {g : Registry υ} {owned : Multiset Handle} {spec : TypeSpec υ},
    (safe → (TypeObject.ofSpec none spec).HostServed) → good h g owned →
      good h (g.register spec).2 owned
  accounted : ∀ {h : Heap} {g : Registry υ} {owned : Multiset Handle}, good h g owned →
    ∃ lost, h.Accounted (owned + lost)
  sound : ∀ {h : Heap} {g : Registry υ} {owned : Multiset Handle}, safe → good h g owned →
    h.Sound g owned
  quiet : calm {}

namespace Machine

/-- What is owned keeps its type, and what is held its contents unless they may change; then they
change as its kind allows. Other objects may be gone, but contents that may not change are not new unless
an object has been made. Types are only added. -/
structure Steady (D : Discipline υ) (owned : Multiset Handle) (m m' : Machine υ) : Prop where
  typeOf : ∀ v id, v.Within owned → m.heap.typeOf v = .ok id → m'.heap.typeOf v = .ok id
  spared : ∀ r b, m.heap.Held D.writes owned r → ¬ D.writes r → m.heap.body r = .ok b →
    m'.heap.body r = .ok b
  evolves : D.evolving → ∀ r b, m.heap.Held D.writes owned r → m.heap.body r = .ok b →
    ∃ b', m'.heap.body r = .ok b' ∧ b.Evolves b'
  still : ∀ r, ¬ D.writes r → Heap.Still r m.heap m'.heap
  types : m.registry.types <+: m'.registry.types

variable {D : Discipline υ} {owned more : Multiset Handle} {m m' m₁ m₂ m₃ : Machine υ}

theorem Steady.refl (owned : Multiset Handle) (m : Machine υ) : Steady D owned m m :=
  ⟨fun _ _ _ h => h, fun _ _ _ _ h => h, fun _ _ b _ hb => ⟨b, hb, .refl⟩,
    fun r _ => .refl r m.heap, List.prefix_rfl⟩

theorem Steady.trans (h₁₂ : Steady D owned m₁ m₂) (h₂₃ : Steady D owned m₂ m₃) :
    Steady D owned m₁ m₃ where
  typeOf := fun v id hv h => h₂₃.typeOf v id hv (h₁₂.typeOf v id hv h)
  spared := fun r b hr hw hb =>
    h₂₃.spared r b (hr.of_spared h₁₂.spared) hw (h₁₂.spared r b hr hw hb)
  evolves := fun hd r b hr hb => by
    obtain ⟨b₂, hb₂, hevolves₂⟩ := h₁₂.evolves hd r b hr hb
    obtain ⟨b₃, hb₃, hevolves₃⟩ := h₂₃.evolves hd r b₂ (hr.of_spared h₁₂.spared) hb₂
    exact ⟨b₃, hb₃, hevolves₂.trans hevolves₃⟩
  still := fun r hr => (h₁₂.still r hr).trans (h₂₃.still r hr)
  types := h₁₂.types.trans h₂₃.types

theorem Steady.mono (h : Steady D (owned + more) m₁ m₂) : Steady D owned m₁ m₂ where
  typeOf := fun v id hv => h.typeOf v id (hv.mono more)
  spared := fun r b hr => h.spared r b (hr.mono more)
  evolves := fun hd r b hr => h.evolves hd r b (hr.mono more)
  still := h.still
  types := h.types

def Offers (m : Machine υ) (v : Value) {k : SlotKind} (s : Slot υ k) : Prop :=
  ∃ id t, m.heap.typeOf v = .ok id ∧ m.registry.get? id = some t ∧ t.slot? k = some s

theorem Steady.offers (h : Steady D owned m m') {v : Value} (hv : v.Within owned) {k : SlotKind}
    {s : Slot υ k} (ho : m.Offers v s) : m'.Offers v s := by
  obtain ⟨id, t, hid, ht, hs⟩ := ho
  exact ⟨id, t, h.typeOf v id hv hid, Registry.get?_extend h.types ht, hs⟩

end Machine

namespace Discipline

open Machine

variable {D : Discipline υ} {m m₁ m₂ : Machine υ} {v : Value}
  {owned more taken given : Multiset Handle}

/-- A state that may follow `m` when it is looked at by someone who owned `owned` and now owns
`more` as well. -/
structure After (D : Discipline υ) (owned : Multiset Handle) (m m' : Machine υ)
    (more : Multiset Handle) : Prop where
  good : D.good m'.heap m'.registry (owned + more)
  steady : D.safe → Steady D owned m m'
  hash : D.keyed → ∀ v k, v.Within owned → (m.heap.hash v).run = .ok (.ok k) →
    (m'.heap.hash v).run = .ok (.ok k)

namespace After

/-- Someone may look at the present state as the owner of a part. -/
theorem now (hg : D.good m.heap m.registry (owned + more)) : D.After owned m m more :=
  ⟨hg, fun _ => .refl owned m, fun _ _ _ _ h => h⟩

theorem refl (hg : D.good m.heap m.registry owned) : D.After owned m m 0 :=
  .now (by rwa [add_zero])

theorem trans (h₁ : D.After owned m m₁ more) (h₂ : D.After (owned + more) m₁ m₂ given) :
    D.After owned m m₂ (more + given) where
  good := by
    rw [← add_assoc]
    exact h₂.good
  steady := fun hs => (h₁.steady hs).trans (h₂.steady hs).mono
  hash := fun hd v k hv hk => h₂.hash hd v k (hv.mono more) (h₁.hash hd v k hv hk)

/-- Tracer and pending place do not matter. -/
theorem of_eq (h : D.After owned m m₁ more) (hheap : m₂.heap = m₁.heap)
    (hregistry : m₂.registry = m₁.registry) : D.After owned m m₂ more := by
  refine ⟨by rw [hheap, hregistry]; exact h.good, fun hs => ?_, hheap ▸ h.hash⟩
  obtain ⟨htype, hspared, hevolves, hstill, htypes⟩ := h.steady hs
  exact ⟨hheap ▸ htype, hheap ▸ hspared, hheap ▸ hevolves, hheap ▸ hstill, hregistry ▸ htypes⟩

theorem sound (h : D.After owned m m₁ more) (hs : D.safe) :
    m₁.heap.Sound m₁.registry (owned + more) :=
  D.sound hs h.good

theorem present (h : D.After owned m m₁ more) (hv : v.Within (owned + more)) (hs : D.safe) :
    m₁.heap.Present v :=
  (h.sound hs).present hv

theorem typed (h : D.After owned m m₁ more) (hv : v.Within (owned + more)) (hs : D.safe) :
    m₁.Typed v :=
  .of_sound (h.sound hs) (h.present hv hs)

/-- What is held stays as it is when the store is changed by moves. -/
theorem steady_moves (h : D.After owned m m₁ (more + taken)) {h' : Heap}
    (hm : Heap.Moves m₁.registry (fun r => D.safe → D.writes r) (m₁.heap, taken) (h', given))
    (hs : D.safe) : Steady D owned m₁ { m₁ with heap := h' } := by
  obtain ⟨lost, ha⟩ := (h.sound hs).accounted
  have hsplit : m₁.heap.Accounted (owned + (more + lost) + taken) := by
    simpa only [add_assoc, add_comm, add_left_comm] using ha
  have hstays {r : Handle} {b : Body} (hr : m₁.heap.Held D.writes owned r)
      (hb : m₁.heap.body r = .ok b) :
      ∃ b', h'.body r = .ok b' ∧ b.Evolves b' ∧ (¬ D.writes r → b' = b) := by
    obtain ⟨e, he, rfl⟩ := Heap.body_eq_ok.1 hb
    have hheld : m₁.heap.Held (fun r => D.safe → D.writes r) owned r := hr.of_imp fun _ hw => hw hs
    obtain ⟨-, -, e', he', hb', hw⟩ := hm.stays hsplit (hheld.mono (more + lost)) he
    exact ⟨e'.body, Heap.body_of_lookup? he', hb', fun hn => hw fun hwrites => hn (hwrites hs)⟩
  constructor
  · intro v id hv hid
    cases v with
    | ref r =>
      obtain ⟨b, hb, rfl⟩ := except_map_eq_ok.1 hid
      obtain ⟨b', hb', hevolves, -⟩ := hstays (.owned (hv r rfl)) hb
      rw [← hevolves.typeId]
      exact Heap.typeOf_ref hb'
    | _ => exact hid
  · intro r b hr hn hb
    obtain ⟨b', hb', -, hw⟩ := hstays hr hb
    exact hw hn ▸ hb'
  · intro _ r b hr hb
    obtain ⟨b', hb', hevolves, -⟩ := hstays hr hb
    exact ⟨b', hb', hevolves⟩
  · exact fun r hr => hm.still fun hwrites => hr (hwrites hs)
  · exact List.prefix_rfl

/-- What is owned keeps its key when the store is changed by moves. -/
theorem hash_moves (h : D.After owned m m₁ (more + taken)) {h' : Heap}
    (hm : Heap.Moves m₁.registry (fun r => D.safe → D.writes r) (m₁.heap, taken) (h', given))
    (hv : v.Within (owned + more)) {k : Key} (hk : (m₁.heap.hash v).run = .ok (.ok k)) :
    (h'.hash v).run = .ok (.ok k) := by
  obtain ⟨lost, ha⟩ := D.accounted h.good
  have hsplit : m₁.heap.Accounted (owned + more + lost + taken) := by
    simpa only [add_assoc, add_comm, add_left_comm] using ha
  exact (hm.hash hsplit (fun r hr => Multiset.mem_add.2 (.inl (hv r hr))) hk).2

/-- The store is changed by moves. -/
theorem moves (h : D.After owned m m₁ (more + taken)) {h' : Heap}
    (hm : Heap.Moves m₁.registry (fun r => D.safe → D.writes r) (m₁.heap, taken) (h', given)) :
    D.After owned m { m₁ with heap := h' } (more + given) := by
  constructor
  · have hg := h.good
    rw [← add_assoc] at hg ⊢
    exact hm.invariant (fun h owned => D.good h m₁.registry owned) D.moved hg
  · exact fun hs => (h.steady hs).trans (h.steady_moves hm hs)
  · exact fun hd v k hv hk => h.hash_moves hm (hv.mono more) (h.hash hd v k hv hk)

theorem gain (h : D.After owned m m₁ more) {h' : Heap}
    (hm : Heap.Moves m₁.registry (fun r => D.safe → D.writes r) (m₁.heap, 0) (h', given)) :
    D.After owned m { m₁ with heap := h' } (more + given) := by
  rw [← add_zero more] at h
  exact h.moves hm

theorem hash_gain (h : D.After owned m m₁ more) {h' : Heap}
    (hm : Heap.Moves m₁.registry (fun r => D.safe → D.writes r) (m₁.heap, 0) (h', given))
    (hv : v.Within owned) {k : Key} (hk : (m₁.heap.hash v).run = .ok (.ok k)) :
    (h'.hash v).run = .ok (.ok k) := by
  rw [← add_zero more] at h
  exact h.hash_moves hm (hv.mono more) hk

theorem spend (h : D.After owned m m₁ (more + taken)) {h' : Heap}
    (hm : Heap.Moves m₁.registry (fun r => D.safe → D.writes r) (m₁.heap, taken) (h', 0)) :
    D.After owned m { m₁ with heap := h' } more := by
  have h₂ := h.moves hm
  rwa [add_zero] at h₂

/-- One step after another by someone who keeps nothing in between. -/
theorem next (h₁ : D.After owned m m₁ 0) (h₂ : D.After owned m₁ m₂ more) :
    D.After owned m m₂ more := by
  have h := h₁.trans (by rwa [add_zero])
  rwa [zero_add] at h

end After

def Writable (D : Discipline υ) (v : Value) : Prop :=
  ∀ r, v = .ref r → D.safe → D.writes r

theorem Writable.of_not_safe (hD : ¬ D.safe) : D.Writable v :=
  fun _ _ hs => absurd hs hD

/-- A slot is called on an object, with operands that are owned. A slot that stores or deletes is
called on what may change. -/
structure Call (D : Discipline υ) (m : Machine υ) (owned : Multiset Handle) {k : SlotKind}
    (s : Slot υ k) (obj : Value) (args : List Value) : Prop where
  good : D.good m.heap m.registry owned
  receiver : obj.Within owned
  operands : ∀ v ∈ args, v.Within owned
  calm : D.safe → D.calm m.pending
  offers : D.safe → m.Offers obj s
  writable : k.Changes → D.Writable obj

theorem Call.after {k : SlotKind} {s : Slot υ k} {obj : Value} {args : List Value}
    (hc : D.Call m owned s obj args) : D.After owned m m 0 :=
  .refl hc.good

/-- A computation gives its value to whoever asked for it, and nothing if it fails. -/
def Gives (D : Discipline υ) {ε α : Type} (a : Action υ ε α) (m : Machine υ)
    (owned : Multiset Handle) (given : α → Multiset Handle) : Prop :=
  a.Ends m D.safe (fun x m' => D.After owned m m' (given x)) fun _ m' => D.After owned m m' 0

end Discipline

/-- The slots of the host keep to a discipline. A slot that gives an index leaves nothing pending that
would disturb the next slot. -/
structure Host.Keeps (D : Discipline υ) (H : Host υ) : Prop where
  get : ∀ {u obj key m owned}, D.Call m owned (.host u) obj [key] →
    D.Gives (H.get u obj key) m owned Value.handles
  set : ∀ {u obj key value m owned}, D.Call m owned (.host u) obj [key, value] →
    D.Gives (H.set u obj key value) m owned fun _ => 0
  del : ∀ {u obj key m owned}, D.Call m owned (.host u) obj [key] →
    D.Gives (H.del u obj key) m owned fun _ => 0
  getAt : ∀ {u obj i m owned}, D.Call m owned (.host u) obj [] →
    D.Gives (H.getAt u obj i) m owned Value.handles
  setAt : ∀ {u obj i value m owned}, D.Call m owned (.host u) obj [value] →
    D.Gives (H.setAt u obj i value) m owned fun _ => 0
  length : ∀ {u obj m owned}, D.Call m owned (.host u) obj [] → D.safe →
    ∃ n, H.length u m obj = .ok n
  asIndex : ∀ {u obj m owned}, D.Call m owned (.host u) obj [] →
    (H.asIndex u obj).Ends m D.safe
      (fun v m' => D.After owned m m' v.handles ∧ (D.safe → D.calm m'.pending))
      fun _ m' => D.After owned m m' 0

end ItemAccess
