import ItemAccess.Proofs.Machine.Access

/-!
# What a failed slot leaves behind

The machine's own slots look before they change anything. Where they do change something first, when
a large integer is made an index, they undo it. So a slot that fails leaves its exception behind and
nothing else.
-/

namespace ItemAccess

open Attempt

variable {υ : SlotKind → Type} {α ε : Type} {H : Host υ} {m m₁ : Machine υ} {safe : Prop}
  {owned : Multiset Handle} {obj key v : Value}

namespace Heap

variable {h h' : Heap}

theorem typeOf_retain (hr : h.retain v = .ok h') (w : Value) : h'.typeOf w = h.typeOf w := by
  cases w with
  | ref r => exact congrArg (Except.map Body.typeId) (body_retain hr r)
  | _ => rfl

/-- A reference that is given back at once was never there. -/
theorem release_retain (ha : h.Accounted owned) (hr : h.retain v = .ok h') :
    h'.release v = .ok h := by
  cases v with
  | ref r =>
    obtain ⟨e, he, rfl⟩ := retainHandle_cases hr
    have he' : (h.put r { e with count := e.count + 1 }).lookup? r =
        some { e with count := e.count + 1 } := by
      rw [lookup?_put he, if_pos rfl]
    have hmore : 1 < e.count + 1 := Nat.lt_succ_of_le (ha.positive r e he)
    rw [release, releaseAll_ref he', if_pos hmore, releaseAll, put_put]
    exact congrArg Except.ok (put_self he)
  | _ =>
    cases hr
    simp [release, releaseAll]

end Heap

namespace Machine

def WellFormed (m : Machine υ) : Prop :=
  ∃ owned, m.heap.Sound m.registry owned

def Alike (m m' : Machine υ) : Prop :=
  ∃ tracer, m' = { m with tracer := tracer }

/-- The type of the value has no slot of the host for a job. -/
def Unserved (m : Machine υ) (v : Value) (k : SlotKind) : Prop :=
  ∀ u : υ k, ¬ m.Offers v (.host u)

/-- Unless it is built in, the type of the value has no slot for the jobs. -/
def HostFree (m : Machine υ) (v : Value) (jobs : List SlotKind) : Prop :=
  ∀ id t, m.heap.typeOf v = .ok id → m.registry.get? id = some t → t.builtin = none →
    ∀ k ∈ jobs, t.slot? k = none

theorem HostFree.of_builtin (hg : m.registry.Built) {kind : BuiltinKind}
    (hv : m.heap.typeOf v = .ok kind.typeId) (jobs : List SlotKind) : m.HostFree v jobs := by
  intro id t hid ht hhost
  obtain rfl := Except.ok.inj (hv.symm.trans hid)
  exact absurd rfl (hg.ne_typeId ht hhost kind)

theorem HostFree.unserved {jobs : List SlotKind} (hv : m.HostFree v jobs) (hg : m.registry.Built)
    {k : SlotKind} (hk : k ∈ jobs) : m.Unserved v k := by
  rintro u ⟨id, t, hid, ht, hslot⟩
  obtain ⟨model, kind, rfl, rfl⟩ | hhost := hg.cases ht
  · obtain ⟨b, hb, -⟩ := BuiltinKind.slot?_spec hslot
    cases hb
  · rw [hv id t hid ht hhost k hk] at hslot
    cases hslot

theorem clear_pending (hquiet : m.pending = {}) : { m with pending := {} } = m := by
  rw [← hquiet]

/-- A slot that fails has done nothing but leave its exception. -/
def Clean (safe : Prop) (a : SlotAction υ α) (m : Machine υ) : Prop :=
  a.Ends m safe (fun _ _ => True) fun _ m' => ∃ e, m' = { m with pending := ⟨some e⟩ }

/-- The integer that an index slot of the machine gives has one more reference. -/
theorem intAsIndex_ends (hs : m.heap.Sound m.registry owned) (hobj : m.heap.Present obj) :
    (intAsIndex obj).Ends m safe
      (fun v m' => ∃ h', m.heap.retain v = .ok h' ∧ m' = { m with heap := h' })
      fun _ m' => ∃ e, m' = { m with pending := ⟨some e⟩ } := by
  have htyped : m.Typed obj := .of_sound hs hobj
  cases obj with
  | int i => exact ⟨m.heap, rfl, rfl⟩
  | bool b => exact ⟨m.heap, rfl, rfl⟩
  | ref r =>
    simp only [intAsIndex, ends_bind]
    refine readHeap_ends (fun _ => hobj.body) fun b _ => ?_
    cases b with
    | bigInt n => exact retain_ends (fun _ => hobj) fun h' hh => ⟨h', hh, rfl⟩
    | _ =>
      simp only [ends_bind, ends_complain]
      exact nameOfType_ends (fun _ => htyped) fun _ => ⟨_, rfl⟩
  | _ =>
    simp only [intAsIndex, ends_bind, ends_complain]
    exact nameOfType_ends (fun _ => htyped) fun _ => ⟨_, rfl⟩

/-- To find an index changes nothing, whether or not the key means one. -/
theorem toIndex_ends (hs : m.heap.Sound m.registry owned) (hquiet : m.pending = {})
    (hkey : m.heap.Present key) (hindex : m.Unserved key .asIndex) :
    (toIndex H key).Ends m safe (fun _ m' => m' = m) fun _ m' => m' = m := by
  simp only [toIndex, ends_bind]
  refine typeOf_ends (fun _ => hkey) fun keyType hid => ?_
  refine typeObject_ends (fun _ => hs.typeObject hid) fun t ht => ?_
  cases hslot : t.asIndex with
  | none => rfl
  | some s =>
    cases s with
    | host u => exact absurd ⟨keyType, t, hid, ht, hslot⟩ (hindex u)
    | builtin b =>
      cases b
      simp only [callAsIndex, ends_bind, ends_settle]
      refine (intAsIndex_ends hs hkey).mono ?_ ?_
      · rintro v m₁ ⟨h₁, hretain, rfl⟩
        obtain ⟨lost, ha⟩ := hs.accounted
        have hback : h₁.release v = .ok m.heap := Heap.release_retain ha hretain
        have hv : h₁.Present v := by
          rintro r rfl
          obtain ⟨e, he, rfl⟩ := Heap.retainHandle_cases hretain
          exact ⟨_, by rw [Heap.lookup?_put he, if_pos rfl]⟩
        refine nativeIndex_ends (fun _ => hv) fun native => ?_
        refine typeOf_ends (fun _ => hv) fun type htype => ?_
        refine changeHeap_ends (fun _ => ⟨_, hback⟩) fun h₂ hh₂ => ?_
        obtain rfl : m.heap = h₂ := Except.ok.inj (hback.symm.trans hh₂)
        cases native with
        | fits i => rfl
        | tooLarge =>
          simp only [ends_bind, ends_refuse]
          exact typeName_ends (fun _ => ⟨t, ht⟩) fun _ => rfl
        | notInteger =>
          rw [Heap.typeOf_retain hretain] at htype
          simp only [ends_bind, ends_refuse]
          exact typeName_ends (fun _ => hs.typeObject htype) fun _ => rfl
      · rintro _ m₁ ⟨e, rfl⟩
        exact clear_pending hquiet

theorem ownIndex_ends {u : IndexUse} (hs : m.heap.Sound m.registry owned) (hquiet : m.pending = {})
    (hkey : m.heap.Present key) (hindex : m.Unserved key .asIndex) :
    (ownIndex H u key).Ends m safe (fun _ m' => m' = m)
      fun _ m' => ∃ e, m' = { m with pending := ⟨some e⟩ } := by
  have htyped : m.Typed key := .of_sound hs hkey
  simp only [ownIndex, ends_bind]
  refine isIndexLike_ends (fun _ => htyped) fun b => ends_ite (fun _ => ?_) fun _ => ?_
  · rw [ends_passOn]
    refine (toIndex_ends hs hquiet hkey hindex).mono (fun _ _ h => h) ?_
    rintro f _ rfl
    exact ⟨f.exception, rfl⟩
  · simp only [ends_bind, ends_complain]
    exact nameOfType_ends (fun _ => htyped) fun _ => ⟨_, rfl⟩

/-- What follows on an index is clean if it is clean for every index. -/
theorem clean_ownIndex {u : IndexUse} {next : Int64 → SlotAction υ α}
    (hs : m.heap.Sound m.registry owned) (hquiet : m.pending = {}) (hkey : m.heap.Present key)
    (hindex : m.Unserved key .asIndex) (h : ∀ i, Clean safe (next i) m) :
    Clean safe (ownIndex H u key >>= next) m := by
  rw [Clean, ends_bind]
  refine (ownIndex_ends hs hquiet hkey hindex).mono ?_ fun _ _ h => h
  rintro i _ rfl
  exact h i

theorem itemAt_clean {u : IndexUse} {items : List Value} {position : Option Nat}
    (hs : m.heap.Sound m.registry owned) {r : Handle} {b : Body} (hb : m.heap.body r = .ok b)
    (hitems : b.children = items) (hp : ∀ p, position = some p → p < items.length) :
    Clean safe (itemAt u items position) m := by
  cases position with
  | none => exact ⟨_, rfl⟩
  | some p =>
    simp only [Clean, itemAt, ends_bind]
    refine ends_liftM (fun _ => atPosition_ok (hp p rfl)) fun v hv => ?_
    have hmem : v ∈ b.children := hitems ▸ mem_of_atPosition hv
    exact retain_ends (fun _ => hs.child hb hmem) fun _ _ => trivial

theorem byteAt_clean {data : List UInt8} {position : Option Nat}
    (hs : m.heap.Sound m.registry owned) (hp : ∀ p, position = some p → p < data.length) :
    Clean safe (byteAt data position) m := by
  cases position with
  | none => exact ⟨_, rfl⟩
  | some p =>
    simp only [Clean, byteAt, Machine.byteString, ends_bind, ends_handle, ends_get, ends_complain]
    refine ends_liftM (fun _ => atPosition_ok (hp p rfl)) fun b _ => ?_
    refine ends_liftM (fun _ => hs.byteString b) fun x _ => ?_
    cases x with
    | error e => exact ⟨_, rfl⟩
    | ok p => trivial

theorem hashKey_clean (hs : m.heap.Sound m.registry owned) (hkey : m.heap.Present key)
    {P : Key → Machine υ → Prop} (h : ∀ k, P k m) :
    (hashKey key).Ends m safe P fun _ m' => ∃ e, m' = { m with pending := ⟨some e⟩ } :=
  hashKey_ends (fun _ => hs.hash hkey) (fun _ => hs.built) (fun k _ => h k) fun e => ⟨e, rfl⟩

theorem missingKey_clean (hs : m.heap.Sound m.registry owned) (hkey : m.heap.Present key) :
    Clean safe ((textOf key >>= fun shown => complain (.missingKey shown)) : SlotAction υ α) m := by
  simp only [Clean, ends_bind, ends_complain]
  exact textOf_ends (fun _ => hs) (fun _ => hkey) fun _ => ⟨_, rfl⟩

/-- Reading through one of the machine's own slots. -/
theorem callGet_clean (hs : m.heap.Sound m.registry owned) (hquiet : m.pending = {})
    (hkey : m.heap.Present key) (hindex : m.Unserved key .asIndex) {b : BuiltinSlot .get}
    (ho : m.Offers obj (.builtin b)) : Clean safe (callGet H (.builtin b) obj key) m := by
  cases b with
  | listGet =>
    refine clean_ownIndex hs hquiet hkey hindex fun i => ?_
    rw [Clean, ends_bind]
    refine part_ends list?_eq_some (fun _ => ho.list rfl hs) fun r items _ hb => ?_
    exact itemAt_clean hs hb rfl fun p => Position.checked_lt
  | tupleGet =>
    refine clean_ownIndex hs hquiet hkey hindex fun i => ?_
    rw [Clean, ends_bind]
    refine part_ends tuple?_eq_some (fun _ => ho.tuple rfl hs) fun r items _ hb => ?_
    exact itemAt_clean hs hb rfl fun p => Position.checked_lt
  | bytesGet =>
    refine clean_ownIndex hs hquiet hkey hindex fun i => ?_
    rw [Clean, ends_bind]
    refine part_ends bytes?_eq_some (fun _ => ho.bytes rfl hs) fun r data _ hb => ?_
    exact byteAt_clean hs fun p => Position.checked_lt
  | dictGet =>
    simp only [Clean, callGet, dictGet]
    rw [ends_bind]
    refine hashKey_clean hs hkey fun k => ?_
    rw [ends_bind]
    refine part_ends dict?_eq_some (fun _ => ho.dict rfl hs) fun r entries _ hb => ?_
    cases hv : Dict.get? entries k with
    | none => exact missingKey_clean hs hkey
    | some v =>
      have hmem : v ∈ (Body.dict entries).children := Dict.mem_children_of_get? hv
      exact retain_ends (fun _ => hs.child hb hmem) fun _ _ => trivial

theorem storeItem_ends {p : Nat} {Q : ε → Machine υ → Prop} :
    (storeItem obj p v : Action υ ε Unit).Ends m False (fun _ _ => True) Q := by
  simp only [storeItem, ends_bind]
  refine retain_ends False.elim fun _ _ => ?_
  refine partToChange_ends list?_eq_some False.elim fun r items _ _ => ?_
  refine ends_liftM False.elim fun old _ => ?_
  exact changeHeap_ends False.elim fun _ _ => changeHeap_ends False.elim fun _ _ => trivial

theorem callSet_clean (hs : m.heap.Sound m.registry owned) (hquiet : m.pending = {})
    (hkey : m.heap.Present key) (hindex : m.Unserved key .asIndex) (b : BuiltinSlot .set) :
    Clean False (callSet H (.builtin b) obj key v) m := by
  cases b with
  | listSet =>
    refine clean_ownIndex hs hquiet hkey hindex fun i => ?_
    rw [Clean, ends_bind]
    refine part_ends list?_eq_some False.elim fun r items _ _ => ?_
    cases Position.checked i items.length with
    | none => exact ⟨_, rfl⟩
    | some p => exact storeItem_ends
  | dictSet =>
    simp only [Clean, callSet, dictSet]
    rw [ends_bind]
    refine hashKey_clean hs hkey fun k => ?_
    rw [ends_bind]
    apply part_ends dict?_eq_some False.elim
    rintro r entries rfl hb
    by_cases hnew : (Dict.get? entries k).isNone = true
    · rw [if_pos hnew, ends_bind]
      apply growDict_ends False.elim
      · intro h' hgrow
        exact dictStore_ends (by rw [Heap.body_grow hgrow, hb]) fun _ _ _ _ _ _ _ _ => trivial
      · exact fun _ => ⟨_, rfl⟩
    · rw [if_neg hnew]
      exact dictStore_ends hb fun _ _ _ _ _ _ _ _ => trivial

theorem callDel_clean (hs : m.heap.Sound m.registry owned) (hquiet : m.pending = {})
    (hkey : m.heap.Present key) (hindex : m.Unserved key .asIndex) (b : BuiltinSlot .del) :
    Clean False (callDel H (.builtin b) obj key) m := by
  cases b with
  | listDel =>
    refine clean_ownIndex hs hquiet hkey hindex fun i => ?_
    rw [Clean, ends_bind]
    refine part_ends list?_eq_some False.elim fun r items _ _ => ?_
    cases Position.checked i items.length with
    | none => exact ⟨_, rfl⟩
    | some p =>
      simp only [removeItem, ends_bind]
      refine partToChange_ends list?_eq_some False.elim fun r items _ _ => ?_
      refine ends_liftM False.elim fun removed _ => changeHeap_ends False.elim fun _ _ => ?_
      exact changeHeap_ends False.elim fun _ _ => changeHeap_ends False.elim fun _ _ => trivial
  | dictDel =>
    simp only [Clean, callDel, dictDel]
    rw [ends_bind]
    refine hashKey_clean hs hkey fun k => ?_
    rw [ends_bind]
    refine partToChange_ends dict?_eq_some False.elim fun r entries _ _ => ?_
    cases hrem : Dict.remove? entries k with
    | none => simpa only [hrem, Clean] using missingKey_clean hs hkey
    | some p =>
      simp only [ends_bind]
      refine changeHeap_ends False.elim fun _ _ => ?_
      exact changeHeap_ends False.elim fun _ _ => changeHeap_ends False.elim fun _ _ => trivial

/-- The exception is taken from where the slot left it; what remains is what the tracer was told
before. -/
theorem Clean.settle {a : SlotAction υ α} {tracer : Tracer}
    (ha : Clean safe a { m with tracer := tracer }) (hquiet : m.pending = {}) :
    (settle a).Ends { m with tracer := tracer } safe (fun _ _ => True) fun _ m' => m.Alike m' := by
  rw [ends_settle]
  refine Ends.mono ha (fun _ _ h => h) ?_
  rintro _ _ ⟨e, rfl⟩
  exact ⟨tracer, clear_pending (m := { m with tracer := tracer }) hquiet⟩

end Machine

end ItemAccess
