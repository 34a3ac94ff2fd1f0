import ItemAccess.Machine.Items
import ItemAccess.Proofs.Machine.Index
import ItemAccess.Proofs.Machine.Text
import ItemAccess.Proofs.Store.Contents

/-!
# The machine's own slots keep to every discipline

A slot that is called on the container it is made for finds that container, also after the host has
run to give an index: what is owned keeps its type.
-/

namespace ItemAccess

open Attempt

variable {υ : SlotKind → Type} {α ε : Type} {H : Host υ} {m m₁ : Machine υ}
  {owned more : Multiset Handle} {obj key v : Value}

namespace Machine

def Holds (m : Machine υ) (obj : Value) (mk : α → Body) : Prop :=
  ∃ r a, obj = .ref r ∧ m.heap.body r = .ok (mk a)

theorem part_ends {safe : Prop} {c : Container} {part? : Body → Option α} {mk : α → Body}
    (hmk : ∀ b a, part? b = some a ↔ b = mk a) {P : α → Machine υ → Prop}
    {Q : ε → Machine υ → Prop} (hobj : safe → Holds m obj mk)
    (h : ∀ r a, obj = .ref r → m.heap.body r = .ok (mk a) → P a m) :
    (part c part? obj : Action υ ε α).Ends m safe P Q := by
  cases obj with
  | ref r =>
    simp only [part, ends_bind]
    refine readHeap_ends (fun hs => ?_) fun b hb => ?_
    · obtain ⟨r', a, heq, hb⟩ := hobj hs
      cases heq
      exact ⟨mk a, hb⟩
    · cases hp : part? b with
      | some a => exact h r a rfl ((hmk b a).1 hp ▸ hb)
      | none =>
        intro hs
        obtain ⟨r', a, heq, hb'⟩ := hobj hs
        cases heq
        obtain rfl := Except.ok.inj (hb.symm.trans hb')
        rw [(hmk _ a).2 rfl] at hp
        cases hp
  | _ =>
    intro hs
    obtain ⟨r, a, heq, -⟩ := hobj hs
    cases heq

theorem partToChange_ends {safe : Prop} {c : Container} {part? : Body → Option α} {mk : α → Body}
    (hmk : ∀ b a, part? b = some a ↔ b = mk a) {P : Handle × α → Machine υ → Prop}
    {Q : ε → Machine υ → Prop} (hobj : safe → Holds m obj mk)
    (h : ∀ r a, obj = .ref r → m.heap.body r = .ok (mk a) → P (r, a) m) :
    (partToChange c part? obj : Action υ ε (Handle × α)).Ends m safe P Q := by
  cases obj with
  | ref r =>
    simp only [partToChange, ends_bind]
    refine readHeap_ends (fun hs => ?_) fun e he => ?_
    · obtain ⟨r', a, heq, hb⟩ := hobj hs
      cases heq
      obtain ⟨e, he, -⟩ := Heap.body_eq_ok.1 hb
      exact ⟨e, Heap.entry_eq_ok.2 he⟩
    · have hb := Heap.body_of_lookup? (Heap.entry_eq_ok.1 he)
      cases hp : part? e.body with
      | some a => exact h r a rfl ((hmk e.body a).1 hp ▸ hb)
      | none =>
        intro hs
        obtain ⟨r', a, heq, hb'⟩ := hobj hs
        cases heq
        rw [(hmk _ a).2 (Except.ok.inj (hb.symm.trans hb'))] at hp
        cases hp
  | _ =>
    intro hs
    obtain ⟨r, a, heq, -⟩ := hobj hs
    cases heq

theorem list?_eq_some (b : Body) (items : List Value) : b.list? = some items ↔ b = .list items := by
  cases b <;> simp [Body.list?]

theorem tuple?_eq_some (b : Body) (items : List Value) :
    b.tuple? = some items ↔ b = .tuple items := by
  cases b <;> simp [Body.tuple?]

theorem dict?_eq_some (b : Body) (entries : List DictEntry) :
    b.dict? = some entries ↔ b = .dict entries := by
  cases b <;> simp [Body.dict?]

theorem bytes?_eq_some (b : Body) (data : List UInt8) : b.bytes? = some data ↔ b = .bytes data := by
  cases b <;> simp [Body.bytes?]

namespace Offers

variable {k : SlotKind} {b : BuiltinSlot k}

/-- A slot of the machine is offered by the containers that it is made for. -/
theorem container (ho : m.Offers obj (.builtin b)) {c : Container} (hb : b.receiver? = some c)
    (hs : m.heap.Sound m.registry owned) :
    ∃ r body, obj = .ref r ∧ m.heap.body r = .ok body ∧ body.kind? = some c.kind := by
  obtain ⟨id, t, hid, ht, hslot⟩ := ho
  obtain rfl := hs.built.receiver hs.served ht hslot hb
  exact hs.container hid

theorem list (ho : m.Offers obj (.builtin b)) (hb : b.receiver? = some .list)
    (hs : m.heap.Sound m.registry owned) : Holds m obj Body.list := by
  obtain ⟨r, body, rfl, hbody, hk⟩ := ho.container hb hs
  obtain ⟨items, rfl⟩ := Body.exists_list hk
  exact ⟨r, items, rfl, hbody⟩

theorem tuple (ho : m.Offers obj (.builtin b)) (hb : b.receiver? = some .tuple)
    (hs : m.heap.Sound m.registry owned) : Holds m obj Body.tuple := by
  obtain ⟨r, body, rfl, hbody, hk⟩ := ho.container hb hs
  obtain ⟨items, rfl⟩ := Body.exists_tuple hk
  exact ⟨r, items, rfl, hbody⟩

theorem dict (ho : m.Offers obj (.builtin b)) (hb : b.receiver? = some .dict)
    (hs : m.heap.Sound m.registry owned) : Holds m obj Body.dict := by
  obtain ⟨r, body, rfl, hbody, hk⟩ := ho.container hb hs
  obtain ⟨entries, rfl⟩ := Body.exists_dict hk
  exact ⟨r, entries, rfl, hbody⟩

theorem bytes (ho : m.Offers obj (.builtin b)) (hb : b.receiver? = some .bytes)
    (hs : m.heap.Sound m.registry owned) : Holds m obj Body.bytes := by
  obtain ⟨r, body, rfl, hbody, hk⟩ := ho.container hb hs
  obtain ⟨data, rfl⟩ := Body.exists_bytes hk
  exact ⟨r, data, rfl, hbody⟩

end Offers

theorem atPosition_ok {xs : List α} {p : Nat} (hp : p < xs.length) : ∃ x, atPosition xs p = .ok x := by
  unfold atPosition
  rw [List.getElem?_eq_getElem hp]
  exact ⟨_, rfl⟩

theorem atPosition_eq_ok {xs : List α} {p : Nat} {x : α} :
    atPosition xs p = .ok x ↔ xs[p]? = some x := by
  unfold atPosition
  split <;> simp_all

theorem mem_of_atPosition {xs : List α} {p : Nat} {x : α} (hx : atPosition xs p = .ok x) : x ∈ xs :=
  List.mem_of_getElem? (atPosition_eq_ok.1 hx)

theorem removalAt_eq_ok {xs : List α} {p : Nat} {x : α} :
    removalAt xs p = .ok x ↔ xs[p]? = some x := by
  unfold removalAt
  split <;> simp_all

theorem hashKey_ends {safe : Prop} {P : Key → Machine υ → Prop} {Q : Raised → Machine υ → Prop}
    (hkey : safe → ∃ x, (m.heap.hash key).run = .ok x) (hbuilt : safe → m.registry.Built)
    (h : ∀ k, (m.heap.hash key).run = .ok (.ok k) → P k m)
    (hQ : ∀ e, Q {} { m with pending := m.pending.record e }) :
    (hashKey key : SlotAction υ Key).Ends m safe P Q := by
  simp only [hashKey, ends_bind]
  refine readHeap_ends hkey fun x hx => ?_
  cases x with
  | ok k => exact h k hx
  | error type =>
    simp only [ends_bind, ends_complain]
    refine typeName_ends (fun hs => ?_) fun _ => hQ _
    obtain rfl | rfl := Heap.hashWithin_error hx
    · exact ((hbuilt hs).get? .list).imp' _ fun _ hk => hk
    · exact ((hbuilt hs).get? .dict).imp' _ fun _ hk => hk

theorem growDict_ends {safe : Prop} {r : Handle} {P : Unit → Machine υ → Prop}
    {Q : Raised → Machine υ → Prop} (hr : safe → ∃ x, m.heap.grow r Body.entrySize = .ok x)
    (h : ∀ h', m.heap.grow r Body.entrySize = .ok (.ok h') → P () { m with heap := h' })
    (hQ : ∀ e, Q {} { m with pending := m.pending.record e }) :
    (growDict (.ref r)).Ends m safe P Q := by
  simp only [growDict, ends_bind, ends_get]
  apply ends_liftM hr
  intro x hx
  cases x with
  | ok h' => exact h h' hx
  | error e => exact hQ _

/-- What is stored in a dict: the key and the value are retained, and what is left over is released. -/
theorem dictStore_ends {r : Handle} {entries : List DictEntry} {k : Key}
    {P : Unit → Machine υ → Prop} {Q : ε → Machine υ → Prop} (hb : m.heap.body r = .ok (.dict entries))
    (h : ∀ h₁ h₂ h₃ h₄, m.heap.retain key = .ok h₁ → h₁.retain v = .ok h₂ →
      h₂.setBody r (.dict (Dict.insert entries k key v).1) = .ok h₃ →
      h₃.releaseAll (Dict.insert entries k key v).2 = .ok h₄ → P () { m with heap := h₄ }) :
    (do
      let key ← retain key
      let v ← retain v
      let (r, entries) ← dictToChange (.ref r)
      let (entries, leftOver) := Dict.insert entries k key v
      changeHeap (·.setBody r (.dict entries))
      releaseAll leftOver : Action υ ε Unit).Ends m False P Q := by
  simp only [ends_bind]
  apply retain_ends False.elim
  intro h₁ hkey
  apply retain_ends False.elim
  intro h₂ hv
  apply partToChange_ends dict?_eq_some False.elim
  rintro _ entries' ⟨⟩ hb'
  obtain rfl : entries = entries' := by
    have hsame : h₂.body r = m.heap.body r := by rw [Heap.body_retain hv, Heap.body_retain hkey]
    simpa [hb] using hsame.symm.trans hb'
  apply changeHeap_ends False.elim
  intro h₃ hset
  apply changeHeap_ends False.elim
  intro h₄ hrelease
  exact h h₁ h₂ h₃ h₄ hkey hv hset hrelease

end Machine

namespace Discipline

open Machine

variable {D : Discipline υ}

namespace Call

variable {k : SlotKind} {s : Slot υ k} {b : BuiltinSlot k} {args : List Value}

/-- What the object offered when it was called, it still offers. -/
theorem still (hc : D.Call m owned s obj args) (ha : D.After owned m m₁ more) (hs : D.safe) :
    m₁.Offers obj s :=
  (ha.steady hs).offers hc.receiver (hc.offers hs)

theorem list (hc : D.Call m owned (.builtin b) obj args) (hb : b.receiver? = some .list)
    (ha : D.After owned m m₁ more) (hs : D.safe) : Holds m₁ obj Body.list :=
  (hc.still ha hs).list hb (ha.sound hs)

theorem tuple (hc : D.Call m owned (.builtin b) obj args) (hb : b.receiver? = some .tuple)
    (ha : D.After owned m m₁ more) (hs : D.safe) : Holds m₁ obj Body.tuple :=
  (hc.still ha hs).tuple hb (ha.sound hs)

theorem dict (hc : D.Call m owned (.builtin b) obj args) (hb : b.receiver? = some .dict)
    (ha : D.After owned m m₁ more) (hs : D.safe) : Holds m₁ obj Body.dict :=
  (hc.still ha hs).dict hb (ha.sound hs)

theorem bytes (hc : D.Call m owned (.builtin b) obj args) (hb : b.receiver? = some .bytes)
    (ha : D.After owned m m₁ more) (hs : D.safe) : Holds m₁ obj Body.bytes :=
  (hc.still ha hs).bytes hb (ha.sound hs)

end Call

/-- An item of a container that is there. -/
theorem itemAt_keeps {u : IndexUse} {items : List Value} {position : Option Nat}
    (ha : D.After owned m m₁ 0) {r : Handle} {b : Body} (hb : m₁.heap.body r = .ok b)
    (hitems : b.children = items) (hp : ∀ p, position = some p → p < items.length) :
    (itemAt u items position).Ends m₁ D.safe (fun v m' => D.After owned m m' v.handles)
      fun _ m' => D.After owned m m' 0 := by
  cases position with
  | none => exact ha.of_eq rfl rfl
  | some p =>
    simp only [itemAt, ends_bind]
    refine ends_liftM (fun _ => atPosition_ok (hp p rfl)) fun v hv => ?_
    have hmem : v ∈ b.children := hitems ▸ mem_of_atPosition hv
    refine retain_ends (fun hs => (ha.sound hs).child hb hmem) fun h' hh => ?_
    simpa using ha.gain (Heap.retain_moves _ hh)

theorem byteString_keeps {Q : LimitError → Machine υ → Prop} (ha : D.After owned m m₁ 0) (b : UInt8)
    (hQ : ∀ e, Q e m₁) :
    (Machine.byteString b).Ends m₁ D.safe (fun v m' => D.After owned m m' v.handles) Q := by
  simp only [Machine.byteString, ends_bind, ends_get]
  refine ends_liftM (fun hs => (ha.sound hs).byteString b) fun x hx => ?_
  cases x with
  | error e => exact hQ e
  | ok p =>
    obtain ⟨r, h'⟩ := p
    simp only [ends_bind, ends_set, ends_pure]
    simpa using ha.gain (Heap.byteString_moves _ hx)

theorem byteAt_keeps {data : List UInt8} {position : Option Nat} (ha : D.After owned m m₁ 0)
    (hp : ∀ p, position = some p → p < data.length) :
    (byteAt data position).Ends m₁ D.safe (fun v m' => D.After owned m m' v.handles)
      fun _ m' => D.After owned m m' 0 := by
  cases position with
  | none => exact ha.of_eq rfl rfl
  | some p =>
    simp only [byteAt, ends_bind, ends_handle, ends_complain]
    refine ends_liftM (fun _ => atPosition_ok (hp p rfl)) fun b _ => ?_
    exact byteString_keeps ha b fun e => ha.of_eq rfl rfl

theorem ownIndex_keeps (hH : H.Keeps D) {u : IndexUse} (hg : D.good m.heap m.registry owned)
    (hkey : key.Within owned) (hcalm : D.safe → D.calm m.pending) :
    (ownIndex H u key).Ends m D.safe (fun _ m' => D.After owned m m' 0)
      fun _ m' => D.After owned m m' 0 := by
  have hafter : D.After owned m m 0 := .refl hg
  simp only [ownIndex, ends_bind]
  refine isIndexLike_ends (hafter.typed (hkey.mono 0)) fun b => ends_ite (fun _ => ?_) fun _ => ?_
  · simp only [ends_passOn]
    exact (toIndex_keeps hH hg hkey hcalm).mono (fun _ _ h => h.1) fun _ _ h => h.of_eq rfl rfl
  · simp only [ends_bind, ends_complain]
    exact nameOfType_ends (hafter.typed (hkey.mono 0)) fun _ => hafter.of_eq rfl rfl

theorem listGet_keeps (hH : H.Keeps D) (hc : D.Call m owned (.builtin .listGet) obj [key]) :
    D.Gives (listGet H obj key) m owned Value.handles := by
  simp only [Gives, listGet, ends_bind]
  refine (ownIndex_keeps hH hc.good (hc.operands key (by simp)) hc.calm).mono ?_ fun _ _ h => h
  intro i m₁ ha
  refine part_ends list?_eq_some (hc.list rfl ha) fun r items _ hb => ?_
  exact itemAt_keeps ha hb rfl fun p => Position.checked_lt

theorem tupleGet_keeps (hH : H.Keeps D) (hc : D.Call m owned (.builtin .tupleGet) obj [key]) :
    D.Gives (tupleGet H obj key) m owned Value.handles := by
  simp only [Gives, tupleGet, ends_bind]
  refine (ownIndex_keeps hH hc.good (hc.operands key (by simp)) hc.calm).mono ?_ fun _ _ h => h
  intro i m₁ ha
  refine part_ends tuple?_eq_some (hc.tuple rfl ha) fun r items _ hb => ?_
  exact itemAt_keeps ha hb rfl fun p => Position.checked_lt

theorem bytesGet_keeps (hH : H.Keeps D) (hc : D.Call m owned (.builtin .bytesGet) obj [key]) :
    D.Gives (bytesGet H obj key) m owned Value.handles := by
  simp only [Gives, bytesGet, ends_bind]
  refine (ownIndex_keeps hH hc.good (hc.operands key (by simp)) hc.calm).mono ?_ fun _ _ h => h
  intro i m₁ ha
  refine part_ends bytes?_eq_some (hc.bytes rfl ha) fun r data _ hb => ?_
  exact byteAt_keeps ha fun p => Position.checked_lt

theorem listGetAt_keeps (hc : D.Call m owned (.builtin .listGetAt) obj []) (i : Int64) :
    D.Gives (listGetAt obj i) m owned Value.handles := by
  simp only [Gives, listGetAt, ends_bind]
  refine part_ends list?_eq_some (hc.list rfl hc.after) fun r items _ hb => ?_
  exact itemAt_keeps hc.after hb rfl fun p => Position.absolute_lt

theorem tupleGetAt_keeps (hc : D.Call m owned (.builtin .tupleGetAt) obj []) (i : Int64) :
    D.Gives (tupleGetAt obj i) m owned Value.handles := by
  simp only [Gives, tupleGetAt, ends_bind]
  refine part_ends tuple?_eq_some (hc.tuple rfl hc.after) fun r items _ hb => ?_
  exact itemAt_keeps hc.after hb rfl fun p => Position.absolute_lt

theorem bytesGetAt_keeps (hc : D.Call m owned (.builtin .bytesGetAt) obj []) (i : Int64) :
    D.Gives (bytesGetAt obj i) m owned Value.handles := by
  simp only [Gives, bytesGetAt, ends_bind]
  refine part_ends bytes?_eq_some (hc.bytes rfl hc.after) fun r data _ hb => ?_
  exact byteAt_keeps hc.after fun p => Position.absolute_lt

theorem release_keeps {Q : ε → Machine υ → Prop} {vs : List Value}
    (ha : D.After owned m m₁ (more + handles vs)) :
    (Machine.releaseAll vs : Action υ ε Unit).Ends m₁ D.safe
      (fun _ m' => D.After owned m m' more) Q := by
  refine releaseAll_ends (fun hs => ?_) fun h' hh => ha.spend (Heap.releaseAll_moves _ hh)
  have hsound := ha.sound hs
  rw [← add_assoc] at hsound
  exact hsound.releaseAll

/-- Contents are replaced by contents of the same sort. -/
theorem setBody_keeps {Q : ε → Machine υ → Prop} {taken given : Multiset Handle} {r : Handle}
    {b b' : Body} (ha : D.After owned m m₁ (more + taken)) (hb : m₁.heap.body r = .ok b)
    (hw : D.safe → D.writes r) (hbb : b.Becomes m₁.heap b')
    (hc : handles b'.children + given = handles b.children + taken) :
    (changeHeap (·.setBody r b') : Action υ ε Unit).Ends m₁ D.safe
      (fun _ m' => D.After owned m m' (more + given)) Q := by
  refine changeHeap_ends (fun _ => ?_) fun h' hh => ha.moves (Heap.setBody_moves _ hb hw hbb hc hh)
  obtain ⟨e, he, -⟩ := Heap.body_eq_ok.1 hb
  exact ⟨_, except_bind_eq_ok.2 ⟨e, Heap.entry_eq_ok.2 he, rfl⟩⟩

theorem storeItem_keeps {Q : ε → Machine υ → Prop} {r : Handle} {items : List Value} {p : Nat}
    (ha : D.After owned m m₁ 0) (hv : v.Within owned) (hb : m₁.heap.body r = .ok (.list items))
    (hw : D.safe → D.writes r) (hp : p < items.length) :
    (storeItem (.ref r) p v : Action υ ε Unit).Ends m₁ D.safe
      (fun _ m' => D.After owned m m' 0) Q := by
  simp only [storeItem, ends_bind]
  refine retain_ends (ha.present (hv.mono 0)) fun h₂ hh => ?_
  have ha₂ := ha.gain (Heap.retain_moves _ hh)
  have hb₂ := (Heap.body_retain hh r).trans hb
  refine partToChange_ends list?_eq_some (fun _ => ⟨r, items, rfl, hb₂⟩) fun r' items' heq hb' => ?_
  cases heq
  obtain rfl : items = items' := by simpa using hb₂.symm.trans hb'
  refine ends_liftM (fun _ => atPosition_ok hp) fun old hold => ?_
  have hledger := handles_set (atPosition_eq_ok.1 hold) v
  refine (setBody_keeps ha₂ hb₂ hw (.list _ _) hledger).mono ?_ fun _ _ h => h
  intro _ m₃ ha₃
  exact release_keeps (by simpa using ha₃)

theorem listSet_keeps (hH : H.Keeps D) (hc : D.Call m owned (.builtin .listSet) obj [key, v]) :
    D.Gives (listSet H obj key v) m owned fun _ => 0 := by
  simp only [Gives, listSet, ends_bind]
  refine (ownIndex_keeps hH hc.good (hc.operands key (by simp)) hc.calm).mono ?_ fun _ _ h => h
  intro i m₁ ha
  refine part_ends list?_eq_some (hc.list rfl ha) fun r items hr hb => ?_
  subst hr
  cases hp : Position.checked i items.length with
  | none => exact ha.of_eq rfl rfl
  | some p =>
    exact storeItem_keeps ha (hc.operands v (by simp)) hb (hc.writable trivial r rfl)
      (Position.checked_lt hp)

theorem listSetAt_keeps (hc : D.Call m owned (.builtin .listSetAt) obj [v]) (i : Int64) :
    D.Gives (listSetAt obj i v) m owned fun _ => 0 := by
  simp only [Gives, listSetAt, ends_bind]
  have ha := hc.after
  refine part_ends list?_eq_some (hc.list rfl ha) fun r items hr hb => ?_
  subst hr
  cases hp : Position.absolute i items.length with
  | none => exact ha.of_eq rfl rfl
  | some p =>
    exact storeItem_keeps ha (hc.operands v (by simp)) hb (hc.writable trivial r rfl)
      (Position.absolute_lt hp)

/-- Giving bytes back for an object that is owned. -/
theorem shrink_keeps {Q : ε → Machine υ → Prop} {r : Handle} {bytes : Nat}
    (ha : D.After owned m m₁ more) (hr : r ∈ owned) :
    (changeHeap (·.shrink r bytes) : Action υ ε Unit).Ends m₁ D.safe
      (fun _ m' => D.After owned m m' more) Q := by
  refine changeHeap_ends (fun hs => ?_) fun h' hh => ?_
  · refine (ha.present (v := .ref r) ?_ hs).shrink bytes
    rintro _ ⟨⟩
    exact Multiset.mem_add.2 (.inl hr)
  · simpa using ha.gain (Heap.shrink_moves _ hh)

theorem listDel_keeps (hH : H.Keeps D) (hc : D.Call m owned (.builtin .listDel) obj [key]) :
    D.Gives (listDel H obj key) m owned fun _ => 0 := by
  simp only [Gives, listDel, ends_bind]
  refine (ownIndex_keeps hH hc.good (hc.operands key (by simp)) hc.calm).mono ?_ fun _ _ h => h
  intro i m₁ ha
  refine part_ends list?_eq_some (hc.list rfl ha) fun r items hr hb => ?_
  subst hr
  cases hp : Position.checked i items.length with
  | none => exact ha.of_eq rfl rfl
  | some p =>
    simp only [removeItem, ends_bind]
    refine partToChange_ends list?_eq_some (fun _ => ⟨r, items, rfl, hb⟩) fun r' items' heq hb' => ?_
    cases heq
    obtain rfl : items = items' := by simpa using hb.symm.trans hb'
    refine ends_liftM (fun _ => ?_) fun removed hremoved => ?_
    · have hlt := Position.checked_lt hp
      exact ⟨items[p], removalAt_eq_ok.2 (List.getElem?_eq_getElem hlt)⟩
    have hledger : handles (Body.list (items.eraseIdx p)).children + removed.handles =
        handles (Body.list items).children + 0 := by
      rw [add_zero]
      exact handles_eraseIdx (removalAt_eq_ok.1 hremoved)
    have ha₁ : D.After owned m m₁ (0 + 0) := ha
    have hw := hc.writable trivial r rfl
    refine (setBody_keeps ha₁ hb hw (.list _ _) hledger).mono ?_ fun _ _ h => h
    intro _ m₂ ha₂
    have ha₂ : D.After owned m m₂ (0 + handles [removed]) := by simpa using ha₂
    refine (release_keeps ha₂).mono ?_ fun _ _ h => h
    intro _ m₃ ha₃
    exact shrink_keeps ha₃ (hc.receiver r rfl)

theorem hashKey_keeps (ha : D.After owned m m₁ 0) (hkey : key.Within owned)
    {P : Key → Machine υ → Prop} (h : ∀ k, (m₁.heap.hash key).run = .ok (.ok k) → P k m₁) :
    (hashKey key).Ends m₁ D.safe P fun _ m' => D.After owned m m' 0 :=
  hashKey_ends (fun hs => (ha.sound hs).hash (ha.present (hkey.mono 0) hs))
    (fun hs => (ha.sound hs).built) h fun _ => ha.of_eq rfl rfl

/-- A key that is not there is shown in the complaint. -/
theorem missingKey_keeps (ha : D.After owned m m₁ 0) (hkey : key.Within owned)
    {P : α → Machine υ → Prop} :
    ((textOf key >>= fun shown => complain (.missingKey shown)) : SlotAction υ α).Ends m₁ D.safe P
      fun _ m' => D.After owned m m' 0 := by
  simp only [ends_bind, ends_complain]
  exact textOf_ends ha.sound (ha.present (hkey.mono 0)) fun _ => ha.of_eq rfl rfl

theorem dictGet_keeps (hc : D.Call m owned (.builtin .dictGet) obj [key]) :
    D.Gives (dictGet obj key) m owned Value.handles := by
  have ha := hc.after
  have hkey := hc.operands key (by simp)
  simp only [Gives, dictGet]
  rw [ends_bind]
  refine hashKey_keeps ha hkey fun k _ => ?_
  rw [ends_bind]
  refine part_ends dict?_eq_some (hc.dict rfl ha) fun r entries _ hb => ?_
  cases hv : Dict.get? entries k with
  | none => exact missingKey_keeps ha hkey
  | some v =>
    have hmem : v ∈ (Body.dict entries).children := Dict.mem_children_of_get? hv
    refine retain_ends (fun hs => (ha.sound hs).child hb hmem) fun h' hh => ?_
    simpa using ha.gain (Heap.retain_moves _ hh)

theorem growDict_keeps {r : Handle} {P : Unit → Machine υ → Prop} (ha : D.After owned m m₁ 0)
    (hr : r ∈ owned) (h : ∀ h', m₁.heap.grow r Body.entrySize = .ok (.ok h') →
      P () { m₁ with heap := h' }) :
    (growDict (.ref r)).Ends m₁ D.safe P fun _ m' => D.After owned m m' 0 := by
  refine growDict_ends (fun hs => ?_) h fun _ => ha.of_eq rfl rfl
  refine (ha.present (v := .ref r) ?_ hs).grow Body.entrySize
  rintro _ ⟨⟩
  exact Multiset.mem_add.2 (.inl hr)

/-- Storing after the entry has been paid for. -/
theorem dictStore_keeps {Q : ε → Machine υ → Prop} {r : Handle} {entries : List DictEntry} {k : Key}
    (ha : D.After owned m m₁ 0) (hkey : key.Within owned) (hv : v.Within owned)
    (hb : m₁.heap.body r = .ok (.dict entries))
    (hw : D.safe → D.writes r)
    (hk : (m₁.heap.hash key).run = .ok (.ok k)) :
    (do
      let key ← Machine.retain key
      let v ← Machine.retain v
      let (r, entries) ← dictToChange (.ref r)
      let (entries, leftOver) := Dict.insert entries k key v
      changeHeap (·.setBody r (.dict entries))
      Machine.releaseAll leftOver : Action υ ε Unit).Ends m₁ D.safe
      (fun _ m' => D.After owned m m' 0) Q := by
  simp only [ends_bind]
  refine retain_ends (ha.present (hkey.mono 0)) fun h₂ hh₂ => ?_
  have ha₂ := ha.gain (Heap.retain_moves _ hh₂)
  have hk₂ := ha.hash_gain (Heap.retain_moves _ hh₂) hkey hk
  refine retain_ends (ha₂.present (hv.mono _)) fun h₃ hh₃ => ?_
  have ha₃ := ha₂.gain (Heap.retain_moves _ hh₃)
  have hk₃ := ha₂.hash_gain (Heap.retain_moves _ hh₃) hkey hk₂
  have hb₃ := ((Heap.body_retain hh₃ r).trans (Heap.body_retain hh₂ r)).trans hb
  refine partToChange_ends dict?_eq_some (fun _ => ⟨r, entries, rfl, hb₃⟩) fun r' entries' heq hb' => ?_
  cases heq
  obtain rfl : entries = entries' := by simpa using hb₃.symm.trans hb'
  rw [add_assoc] at ha₃
  have hledger := Dict.handles_insert entries k key v
  refine (setBody_keeps ha₃ hb₃ hw (.insert entries v hk₃) hledger).mono ?_ fun _ _ h => h
  exact fun _ m₄ ha₄ => release_keeps ha₄

theorem dictSet_keeps (hc : D.Call m owned (.builtin .dictSet) obj [key, v]) :
    D.Gives (dictSet obj key v) m owned fun _ => 0 := by
  have ha := hc.after
  have hkey := hc.operands key (by simp)
  have hv := hc.operands v (by simp)
  simp only [Gives, dictSet]
  rw [ends_bind]
  refine hashKey_keeps ha hkey fun k hk => ?_
  rw [ends_bind]
  refine part_ends dict?_eq_some (hc.dict rfl ha) fun r entries hr hb => ?_
  subst hr
  have hw := hc.writable trivial r rfl
  by_cases hnew : (Dict.get? entries k).isNone = true
  · rw [if_pos hnew, ends_bind]
    refine growDict_keeps ha (hc.receiver r rfl) fun h' hh => ?_
    have ha' := ha.gain (Heap.grow_moves _ hh)
    have hk' := ha.hash_gain (Heap.grow_moves _ hh) hkey hk
    exact dictStore_keeps ha' hkey hv ((Heap.body_grow hh r).trans hb) hw hk'
  · rw [if_neg hnew]
    exact dictStore_keeps ha hkey hv hb hw hk

theorem dictDel_keeps (hc : D.Call m owned (.builtin .dictDel) obj [key]) :
    D.Gives (dictDel obj key) m owned fun _ => 0 := by
  have ha := hc.after
  have hkey := hc.operands key (by simp)
  simp only [Gives, dictDel]
  rw [ends_bind]
  refine hashKey_keeps ha hkey fun k _ => ?_
  rw [ends_bind]
  refine partToChange_ends dict?_eq_some (hc.dict rfl ha) fun r entries hr hb => ?_
  subst hr
  cases hrem : Dict.remove? entries k with
  | none => simpa only [hrem] using missingKey_keeps ha hkey
  | some p =>
    obtain ⟨e, rest⟩ := p
    simp only [ends_bind]
    have hledger : handles (Body.dict rest).children + handles [e.key, e.value] =
        handles (Body.dict entries).children + 0 := by
      rw [add_zero]
      exact Dict.handles_remove? hrem
    have ha₁ : D.After owned m m (0 + 0) := ha
    have hw := hc.writable trivial r rfl
    refine (setBody_keeps ha₁ hb hw (.remove hrem) hledger).mono ?_ fun _ _ h => h
    intro _ m₂ ha₂
    refine (release_keeps ha₂).mono ?_ fun _ _ h => h
    intro _ m₃ ha₃
    exact shrink_keeps ha₃ (hc.receiver r rfl)

end Discipline

end ItemAccess
