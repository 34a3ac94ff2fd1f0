import ItemAccess.Proofs.Tandem.Machine

/-!
# The machine's own slots in tandem

Each slot, called on corresponding operands, does the same on both sides. Where it looks for a key it
finds the corresponding entry, and where it makes a new one-byte string the renaming is adjusted. Slots
of the host are not called: the key is no index of the host's.
-/

namespace ItemAccess

open Attempt

variable {υ : SlotKind → Type} {T : Terms} {f : Equiv.Perm Handle} {known : Handle → Prop}
  {α β ε : Type} {m₁ m₂ : Machine υ} {R : ε → Machine υ → Prop} {H₁ H₂ : Host υ} {obj key v : Value}

namespace Machine

theorem isIndexLike_tandem (hkey : key.Among known) :
    Tandem T f known R (isIndexLike key) (isIndexLike (key.rename f)) Eq := by
  apply (typeOf_tandem hkey).bind
  rintro id _ rfl
  apply (typeObject_tandem id).bind
  rintro t _ rfl
  exact .pure rfl

theorem intAsIndex_tandem (hobj : obj.Among known) :
    Tandem T f known RaisedRefusal (intAsIndex obj : SlotAction υ Value) (intAsIndex (obj.rename f))
      fun x y => y = x.rename f ∧ x.Among known := by
  have hno (v : Value) (hv : v.Among known) : Tandem T f known RaisedRefusal
      (nameOfType v >>= fun name => complain (.notAnIndex name) : SlotAction υ Value)
      (nameOfType (v.rename f) >>= fun name => complain (.notAnIndex name))
      fun x y => y = x.rename f ∧ x.Among known := by
    apply (nameOfType_tandem hv).bind
    rintro name _ rfl
    exact complain_tandem _
  cases obj with
  | int i => exact .pure ⟨rfl, hobj⟩
  | bool b => exact .pure ⟨rfl, fun r hr => by cases hr⟩
  | ref r =>
    apply (readBody_tandem (hobj r rfl)).bind
    rintro b _ ⟨rfl, -⟩
    cases b with
    | bigInt n =>
      refine (retain_tandem hobj).mono ?_
      rintro _ _ ⟨rfl, rfl⟩
      exact ⟨rfl, hobj⟩
    | _ => exact hno (.ref r) hobj
  | _ => exact hno _ hobj

theorem nativeIndex_tandem (hv : v.Among known) :
    Tandem T f known R (nativeIndex v) (nativeIndex (v.rename f)) Eq := by
  cases v with
  | ref r =>
    apply (readBody_tandem (hv r rfl)).bind
    rintro b _ ⟨rfl, -⟩
    cases b <;> exact .pure rfl
  | _ => exact .pure rfl

/-- The type of a value is the same on both sides; the machines are not changed by looking. -/
theorem typeOf_inStep {k₁ : TypeId → Action υ ε α} {k₂ : TypeId → Action υ ε β}
    {P : α → Machine υ → β → Machine υ → Prop} (hm : m₁.Mirrors T f known m₂) (hv : v.Among known)
    (h : ∀ id, m₁.heap.typeOf v = .ok id → InStep T f known R (k₁ id) (k₂ id) m₁ m₂ P) :
    InStep T f known R (typeOf v >>= k₁) (typeOf (v.rename f) >>= k₂) m₁ m₂ P := by
  apply (readHeap_inStep (hm.heap.typeOf hv)).bind
  rintro id _ _ _ ⟨⟨hid, rfl⟩, rfl, rfl⟩
  exact h _ hid

theorem typeObject_inStep {k₁ : TypeObject υ → Action υ ε α} {k₂ : TypeObject υ → Action υ ε β}
    {P : α → Machine υ → β → Machine υ → Prop} (hm : m₁.Mirrors T f known m₂) {id : TypeId}
    (h : ∀ t, m₁.registry.get? id = some t → InStep T f known R (k₁ t) (k₂ t) m₁ m₂ P) :
    InStep T f known R (typeObject id >>= k₁) (typeObject id >>= k₂) m₁ m₂ P := by
  apply (typeObject_found hm id).bind
  rintro t _ _ _ ⟨⟨ht, rfl⟩, rfl, rfl⟩
  exact h _ ht

/-- An operation that fails by itself and names a type. -/
theorem refuseType_tandem {R : Failure → Machine υ → Prop} {rel : α → β → Prop} (id : TypeId)
    (c : String → Complaint) :
    Tandem T f known R (typeName id >>= fun name => refuse (c name) : Action υ Failure α)
      (typeName id >>= fun name => refuse (c name) : Action υ Failure β) rel := by
  apply (typeName_tandem id).bind
  rintro name _ rfl
  exact refuse_tandem _

/-- The hosts may differ: they are not asked. -/
theorem toIndex_inStep (hm : m₁.Mirrors T f known m₂) (hknown : key.Among known)
    (hkey : m₁.Unserved key .asIndex) :
    InStep T f known FailedRefusal (toIndex H₁ key) (toIndex H₂ (key.rename f)) m₁ m₂
      fun i n₁ j n₂ => i = j ∧ n₁.Mirrors T f known n₂ := by
  refine typeOf_inStep hm hknown fun id hid => typeObject_inStep hm fun t ht => ?_
  cases hslot : t.asIndex with
  | none => exact refuse_tandem _ m₁ m₂ hm
  | some s =>
    cases s with
    | host u => exact absurd ⟨id, t, hid, ht, hslot⟩ (hkey u)
    | builtin b =>
      cases b
      apply (settle_inStep (intAsIndex_tandem hknown m₁ m₂ hm)).bind
      rintro v n₁ _ n₂ ⟨⟨rfl, hv⟩, hn⟩
      refine (nativeIndex_tandem hv).bind ?_ n₁ n₂ hn
      rintro native _ rfl
      apply (typeOf_tandem hv).bind
      rintro type _ rfl
      refine (release_tandem hv).bind fun _ _ _ => ?_
      cases native with
      | fits i => exact .pure rfl
      | tooLarge => exact refuseType_tandem id .indexTooLarge
      | notInteger => exact refuseType_tandem type .indexNotInteger

theorem ownIndex_inStep (hm : m₁.Mirrors T f known m₂) (hknown : key.Among known)
    (hkey : m₁.Unserved key .asIndex) (u : IndexUse) :
    InStep T f known RaisedRefusal (ownIndex H₁ u key) (ownIndex H₂ u (key.rename f)) m₁ m₂
      fun i n₁ j n₂ => i = j ∧ n₁.Mirrors T f known n₂ := by
  simp only [ownIndex, isIndexLike, bind_assoc]
  refine typeOf_inStep hm hknown fun id hid => typeObject_inStep hm fun t ht => ?_
  refine InStep.ite Iff.rfl (fun _ => ?_) fun _ => ?_
  · exact passOn_inStep (toIndex_inStep hm hknown hkey)
  · refine (nameOfType_tandem hknown).bind ?_ m₁ m₂ hm
    rintro name _ rfl
    exact complain_tandem _

def PartOf (known : Handle → Prop) (part? : Body → Option α) (a : α) : Prop :=
  ∃ b, part? b = some a ∧ b.Among known

theorem part_tandem {part? : Body → Option α} {g : α → α}
    (hg : ∀ b : Body, part? (b.rename f) = (part? b).map g) (c : Container) (hobj : obj.Among known) :
    Tandem T f known R (part c part? obj) (part c part? (obj.rename f))
      fun a a' => a' = g a ∧ PartOf known part? a := by
  cases obj with
  | ref r =>
    apply (readBody_tandem (hobj r rfl)).bind
    rintro b _ ⟨rfl, hb⟩
    rw [hg]
    cases ha : part? b with
    | some a => exact .pure ⟨rfl, b, ha, hb⟩
    | none => exact .fault _
  | _ => exact .fault _

/-- What is about to be changed corresponds, and mentions known slots only. -/
theorem readEntry_tandem {r : Handle} (hr : known r) :
    Tandem T f known R (readHeap (·.entry .change r)) (readHeap (·.entry .change (f r)))
      fun e e' => e'.body = e.body.rename f ∧ e.body.Among known := by
  apply readHeap_tandem
  intro h₁ h₂ hh
  apply (hh.entry .change hr).mono
  rintro e e' ⟨he, hmirror⟩
  exact ⟨hmirror.body, (hh.closed r e he).2⟩

theorem partToChange_tandem {part? : Body → Option α} {g : α → α}
    (hg : ∀ b : Body, part? (b.rename f) = (part? b).map g) (c : Container) (hobj : obj.Among known) :
    Tandem T f known R (partToChange c part? obj) (partToChange c part? (obj.rename f))
      fun p p' => p'.1 = f p.1 ∧ p'.2 = g p.2 ∧ known p.1 ∧ PartOf known part? p.2 := by
  cases obj with
  | ref r =>
    apply (readEntry_tandem (hobj r rfl)).bind
    rintro e e' ⟨hbody, hb⟩
    rw [hbody, hg]
    cases ha : part? e.body with
    | some a => exact .pure ⟨rfl, rfl, hobj r rfl, e.body, ha, hb⟩
    | none => exact .fault _
  | _ => exact .fault _

theorem PartOf.list {items : List Value} (h : PartOf known Body.list? items) :
    (Body.list items).Among known := by
  obtain ⟨b, hb, hknown⟩ := h
  cases b <;> cases hb
  exact hknown

theorem PartOf.tuple {items : List Value} (h : PartOf known Body.tuple? items) :
    (Body.tuple items).Among known := by
  obtain ⟨b, hb, hknown⟩ := h
  cases b <;> cases hb
  exact hknown

theorem PartOf.dict {entries : List DictEntry} (h : PartOf known Body.dict? entries) :
    (Body.dict entries).Among known := by
  obtain ⟨b, hb, hknown⟩ := h
  cases b <;> cases hb
  exact hknown

theorem getElem?_both {α β : Type} {g : α → β} {xs : List α} (position : Nat)
    (k : Nat → Nat → Fault) : Both (fun x y => y = g x ∧ xs[position]? = some x)
      (match xs[position]? with | some x => .ok x | none => .error (k xs.length position))
      (match (xs.map g)[position]? with
        | some y => .ok y
        | none => .error (k (xs.map g).length position)) := by
  rw [List.getElem?_map, List.length_map]
  cases hx : xs[position]? with
  | some x => exact .ok ⟨rfl, rfl⟩
  | none => exact .error _

theorem itemAt_tandem (u : IndexUse) {items : List Value} (hitems : ∀ v ∈ items, v.Among known)
    (position : Option Nat) :
    Tandem T f known RaisedRefusal (itemAt u items position : SlotAction υ Value)
      (itemAt u (items.map (Value.rename f)) position) fun x y => y = x.rename f := by
  cases position with
  | none => exact complain_tandem _
  | some position =>
    apply (Tandem.lift (getElem?_both position .outOfBounds)).bind
    rintro v _ ⟨rfl, hv⟩
    exact retain_renamed (hitems v (List.mem_of_getElem? hv))

/-- The results correspond after the renaming has been adjusted: on what was known it is as before. -/
def Gives (T : Terms) (f : Equiv.Perm Handle) (known : Handle → Prop)
    (ren : (Handle → Handle) → α → α) (x : α) (n₁ : Machine υ) (y : α) (n₂ : Machine υ) : Prop :=
  ∃ (f' : Equiv.Perm Handle) (known' : Handle → Prop), (∀ r, known r → f' r = f r ∧ known' r) ∧
    y = ren f' x ∧ n₁.Mirrors T f' known' n₂

def Yields (T : Terms) (f : Equiv.Perm Handle) (known : Handle → Prop) (R : ε → Machine υ → Prop)
    (a₁ a₂ : Action υ ε Value) : Prop :=
  ∀ m₁ m₂, m₁.Mirrors T f known m₂ →
    InStep T f known R a₁ a₂ m₁ m₂ (Gives T f known Value.rename)

theorem Gives.of_mirrors {ren : (Handle → Handle) → α → α} {x : α} (hm : m₁.Mirrors T f known m₂) :
    Gives T f known ren x m₁ (ren f x) m₂ :=
  ⟨f, known, fun _ hr => ⟨rfl, hr⟩, rfl, hm⟩

end Machine

theorem Tandem.yields {a₁ a₂ : Action υ ε Value}
    (ha : Tandem T f known R a₁ a₂ fun x y => y = x.rename f) : Machine.Yields T f known R a₁ a₂ := by
  intro m₁ m₂ hm
  apply (ha m₁ m₂ hm).mono
  rintro x n₁ _ n₂ ⟨rfl, hn⟩
  exact .of_mirrors hn

theorem Tandem.bindYields {a₁ : Action υ ε α} {a₂ : Action υ ε β} {rel : α → β → Prop}
    {k₁ : α → Action υ ε Value} {k₂ : β → Action υ ε Value} (ha : Tandem T f known R a₁ a₂ rel)
    (h : ∀ x y, rel x y → Machine.Yields T f known R (k₁ x) (k₂ y)) :
    Machine.Yields T f known R (a₁ >>= k₁) (a₂ >>= k₂) :=
  fun m₁ m₂ hm => (ha m₁ m₂ hm).bind fun x n₁ y n₂ hP => h x y hP.1 n₁ n₂ hP.2

namespace Machine

theorem Gives.placed {p₁ p₂ : Handle × Heap} (hm : m₁.Mirrors T f known m₂)
    (hp : Heap.Mirrors.Placed T f known p₁ p₂) : Gives T f known Value.rename (.ref p₁.1)
      { m₁ with heap := p₁.2 } (.ref p₂.1) { m₂ with heap := p₂.2 } := by
  obtain ⟨f', known', hagree, -, hr, hh⟩ := hp
  exact ⟨f', known', hagree, congrArg Value.ref hr, hm.withHeap hh⟩

/-- A refusal by a limit is passed on. -/
theorem byteString_yields (b : UInt8) {R : ε → Machine υ → Prop} {k : LimitError → Action υ ε Value}
    (hk : ∀ e, Tandem T f known R (k e) (k e) fun x y => y = x.rename f)
    (hrefused : ∀ e n, ∃ e' n', (k e).run n = .failed e' n' ∧ R e' n') :
    Yields T f known R ((byteString b).handle k) ((byteString b).handle k) := by
  intro m₁ m₂ hm
  have hbytes : InStep T f known (fun _ _ => True) (byteString b) (byteString b) m₁ m₂
      (Gives T f known Value.rename) := by
    have hserved := hm.heap.byteString b
    simp only [InStep, byteString, run_bind, run_get, run_liftM]
    generalize m₁.heap.byteString b = x₁ at hserved ⊢
    generalize m₂.heap.byteString b = x₂ at hserved ⊢
    cases hserved with
    | ok hp => exact .done (.placed hm hp)
    | error e => exact .failed e hm
    | fault k => exact .fault k
    | refused hne e y => exact .refused hne trivial _
  exact hbytes.handle (fun e n₁ n₂ hn => (hk e).yields n₁ n₂ hn) fun e n _ => hrefused e n

theorem byteAt_yields (data : List UInt8) (position : Option Nat) :
    Yields T f known RaisedRefusal (byteAt data position : SlotAction υ Value)
      (byteAt data position) := by
  cases position with
  | none => exact Tandem.yields (complain_tandem _)
  | some position =>
    apply (Tandem.lift (.refl (atPosition data position))).bindYields
    rintro b _ rfl
    exact byteString_yields b (fun e => complain_tandem _) fun e n => ⟨_, _, rfl, rfl⟩

theorem listItems_tandem (hobj : obj.Among known) :
    Tandem T f known R (listItems obj) (listItems (obj.rename f)) fun items items' =>
      items' = items.map (Value.rename f) ∧ PartOf known Body.list? items :=
  part_tandem (Body.list?_rename f) .list hobj

theorem tupleItems_tandem (hobj : obj.Among known) :
    Tandem T f known R (tupleItems obj) (tupleItems (obj.rename f)) fun items items' =>
      items' = items.map (Value.rename f) ∧ PartOf known Body.tuple? items :=
  part_tandem (Body.tuple?_rename f) .tuple hobj

theorem bytesData_tandem (hobj : obj.Among known) :
    Tandem T f known R (bytesData obj) (bytesData (obj.rename f)) Eq := by
  have hpart (b : Body) : (b.rename f).bytes? = b.bytes?.map id := by
    rw [Body.bytes?_rename, Option.map_id, id]
  refine (part_tandem hpart .bytes hobj).mono ?_
  rintro data _ ⟨rfl, -⟩
  rfl

/-- The part of an item access by key that comes after the index has been found. -/
theorem ownIndex_bind {k₁ k₂ : Int64 → SlotAction υ α} {P : α → Machine υ → α → Machine υ → Prop}
    (hm : m₁.Mirrors T f known m₂) (hknown : key.Among known) (hkey : m₁.Unserved key .asIndex)
    (u : IndexUse) (h : ∀ i n₁ n₂, n₁.Mirrors T f known n₂ →
      InStep T f known RaisedRefusal (k₁ i) (k₂ i) n₁ n₂ P) :
    InStep T f known RaisedRefusal (ownIndex H₁ u key >>= k₁) (ownIndex H₂ u (key.rename f) >>= k₂)
      m₁ m₂ P := by
  apply (ownIndex_inStep hm hknown hkey u).bind
  rintro i n₁ _ n₂ ⟨rfl, hn⟩
  exact h i n₁ n₂ hn

theorem listGet_inStep (hm : m₁.Mirrors T f known m₂) (hobj : obj.Among known) (hknown : key.Among known)
    (hkey : m₁.Unserved key .asIndex) :
    InStep T f known RaisedRefusal (listGet H₁ obj key) (listGet H₂ (obj.rename f) (key.rename f))
      m₁ m₂ (Gives T f known Value.rename) := by
  refine ownIndex_bind hm hknown hkey .list fun i => (listItems_tandem hobj).bindYields ?_
  rintro items _ ⟨rfl, hpart⟩
  rw [List.length_map]
  exact (itemAt_tandem .list hpart.list.children _).yields

theorem tupleGet_inStep (hm : m₁.Mirrors T f known m₂) (hobj : obj.Among known) (hknown : key.Among known)
    (hkey : m₁.Unserved key .asIndex) :
    InStep T f known RaisedRefusal (tupleGet H₁ obj key) (tupleGet H₂ (obj.rename f) (key.rename f))
      m₁ m₂ (Gives T f known Value.rename) := by
  refine ownIndex_bind hm hknown hkey .tuple fun i => (tupleItems_tandem hobj).bindYields ?_
  rintro items _ ⟨rfl, hpart⟩
  rw [List.length_map]
  exact (itemAt_tandem .tuple hpart.tuple.children _).yields

theorem bytesGet_inStep (hm : m₁.Mirrors T f known m₂) (hobj : obj.Among known) (hknown : key.Among known)
    (hkey : m₁.Unserved key .asIndex) :
    InStep T f known RaisedRefusal (bytesGet H₁ obj key) (bytesGet H₂ (obj.rename f) (key.rename f))
      m₁ m₂ (Gives T f known Value.rename) := by
  refine ownIndex_bind hm hknown hkey .bytes fun i => (bytesData_tandem hobj).bindYields ?_
  rintro data _ rfl
  exact byteAt_yields data _

theorem listToChange_tandem (hobj : obj.Among known) :
    Tandem T f known R (listToChange obj) (listToChange (obj.rename f)) fun p p' =>
      p'.1 = f p.1 ∧ p'.2 = p.2.map (Value.rename f) ∧ known p.1 ∧ PartOf known Body.list? p.2 :=
  partToChange_tandem (Body.list?_rename f) .list hobj

theorem setBody_tandem {r : Handle} (hr : known r) {b b' : Body} (hb : b.Among known)
    (hb' : b' = b.rename f) :
    Tandem T f known R (changeHeap (·.setBody r b)) (changeHeap (·.setBody (f r) b')) Eq := by
  subst hb'
  exact changeHeap_tandem fun _ _ hh => hh.setBody hr hb

theorem storeItem_tandem (hobj : obj.Among known) (position : Nat) (hv : v.Among known) :
    Tandem T f known R (storeItem obj position v) (storeItem (obj.rename f) position (v.rename f))
      Eq := by
  apply (retain_tandem hv).bind
  rintro _ _ ⟨rfl, rfl⟩
  apply (listToChange_tandem hobj).bind
  rintro ⟨r, items⟩ ⟨_, _⟩ ⟨rfl, rfl, hr, hpart⟩
  apply (Tandem.lift (getElem?_both position .outOfBounds)).bind
  rintro old _ ⟨rfl, hold⟩
  have holdKnown := hpart.list.children old (List.mem_of_getElem? hold)
  refine (setBody_tandem hr ?_ ?_).bind fun _ _ _ => release_tandem holdKnown
  · exact Body.among_of_children rfl (Value.among_set hpart.list.children hv position)
  · rw [Body.rename, List.map_set]

theorem listSet_inStep (hm : m₁.Mirrors T f known m₂) (hobj : obj.Among known) (hknown : key.Among known)
    (hkey : m₁.Unserved key .asIndex) (hv : v.Among known) :
    InStep T f known RaisedRefusal (listSet H₁ obj key v)
      (listSet H₂ (obj.rename f) (key.rename f) (v.rename f)) m₁ m₂
      fun x n₁ y n₂ => x = y ∧ n₁.Mirrors T f known n₂ := by
  refine ownIndex_bind hm hknown hkey .list fun i => (listItems_tandem hobj).bind ?_
  rintro items _ ⟨rfl, -⟩
  rw [List.length_map]
  cases Position.checked i items.length with
  | some position => exact storeItem_tandem hobj position hv
  | none => exact complain_tandem _

theorem shrink_tandem {r : Handle} (hr : known r) (bytes : Nat) :
    Tandem T f known R (changeHeap (·.shrink r bytes)) (changeHeap (·.shrink (f r) bytes)) Eq :=
  changeHeap_tandem fun _ _ hh => hh.shrink hr bytes

theorem listDel_inStep (hm : m₁.Mirrors T f known m₂) (hobj : obj.Among known) (hknown : key.Among known)
    (hkey : m₁.Unserved key .asIndex) :
    InStep T f known RaisedRefusal (listDel H₁ obj key) (listDel H₂ (obj.rename f) (key.rename f))
      m₁ m₂ fun x n₁ y n₂ => x = y ∧ n₁.Mirrors T f known n₂ := by
  refine ownIndex_bind hm hknown hkey .list fun i => (listItems_tandem hobj).bind ?_
  rintro items _ ⟨rfl, -⟩
  rw [List.length_map]
  cases Position.checked i items.length with
  | none => exact complain_tandem _
  | some position =>
    apply (listToChange_tandem hobj).bind
    rintro ⟨r, items⟩ ⟨_, _⟩ ⟨rfl, rfl, hr, hpart⟩
    apply (Tandem.lift (getElem?_both position .noRemoval)).bind
    rintro removed _ ⟨rfl, hremoved⟩
    have hknown := hpart.list.children removed (List.mem_of_getElem? hremoved)
    refine (setBody_tandem hr ?_ ?_).bind fun _ _ _ =>
      (release_tandem hknown).bind fun _ _ _ => shrink_tandem hr _
    · exact Body.among_of_children rfl fun w hw =>
        hpart.list.children w (List.mem_of_mem_eraseIdx hw)
    · rw [Body.rename, List.eraseIdx_map]

theorem dictEntries_tandem (hobj : obj.Among known) :
    Tandem T f known R (dictEntries obj) (dictEntries (obj.rename f)) fun entries entries' =>
      entries' = entries.map (DictEntry.rename f) ∧ PartOf known Body.dict? entries :=
  part_tandem (Body.dict?_rename f) .dict hobj

theorem dictToChange_tandem (hobj : obj.Among known) :
    Tandem T f known R (dictToChange obj) (dictToChange (obj.rename f)) fun p p' =>
      p'.1 = f p.1 ∧ p'.2 = p.2.map (DictEntry.rename f) ∧ known p.1 ∧ PartOf known Body.dict? p.2 :=
  partToChange_tandem (Body.dict?_rename f) .dict hobj

/-- Both sides find the corresponding key, or neither value can be one. -/
theorem readHash_found (hm : m₁.Mirrors T f known m₂) (hg : ¬ T.aligned → m₁.heap.Grounded)
    (hkey : key.Among known) :
    InStep T f known R (readHeap fun h => (h.hash key).run)
      (readHeap fun h => (h.hash (key.rename f)).run) m₁ m₂
      fun x n₁ y n₂ => Heap.Hashed (Key.Renamed f known) x y ∧ m₁ = n₁ ∧ m₂ = n₂ :=
  readHeap_inStep (hm.heap.hash hg hkey)

theorem hashKey_inStep {k₁ k₂ : Key → SlotAction υ α} {P : α → Machine υ → α → Machine υ → Prop}
    (hm : m₁.Mirrors T f known m₂) (hg : ¬ T.aligned → m₁.heap.Grounded) (hkey : key.Among known)
    (h : ∀ k k', Key.Renamed f known k k' → ∀ n₁ n₂, n₁.Mirrors T f known n₂ →
      InStep T f known RaisedRefusal (k₁ k) (k₂ k') n₁ n₂ P) :
    InStep T f known RaisedRefusal (hashKey key >>= k₁) (hashKey (key.rename f) >>= k₂) m₁ m₂ P := by
  have hfound : InStep T f known RaisedRefusal (hashKey key) (hashKey (key.rename f)) m₁ m₂
      fun k n₁ k' n₂ => Key.Renamed f known k k' ∧ n₁.Mirrors T f known n₂ := by
    apply (readHash_found hm hg hkey).bind
    rintro _ _ _ _ ⟨⟨hk⟩ | id, rfl, rfl⟩
    · exact .done ⟨hk, hm⟩
    · refine (typeName_tandem id).bind ?_ m₁ m₂ hm
      rintro name _ rfl
      exact complain_tandem _
  exact hfound.bind fun k n₁ k' n₂ hP => h k k' hP.1 n₁ n₂ hP.2

theorem missingKey_tandem {rel : α → α → Prop} (hkey : key.Among known) :
    Tandem T f known RaisedRefusal
      (textOf key >>= fun shown => complain (.missingKey shown) : SlotAction υ α)
      (textOf (key.rename f) >>= fun shown => complain (.missingKey shown)) rel := by
  apply (textOf_tandem hkey).bind
  rintro shown _ rfl
  exact complain_tandem _

theorem dictGet_inStep (hm : m₁.Mirrors T f known m₂) (hg : ¬ T.aligned → m₁.heap.Grounded)
    (hobj : obj.Among known) (hkey : key.Among known) :
    InStep T f known RaisedRefusal (dictGet obj key) (dictGet (obj.rename f) (key.rename f)) m₁ m₂
      (Gives T f known Value.rename) := by
  refine hashKey_inStep hm hg hkey ?_
  rintro k _ ⟨rfl, -⟩
  apply (dictEntries_tandem hobj).bindYields
  rintro entries _ ⟨rfl, hpart⟩
  rw [Dict.get?_rename]
  cases hget : Dict.get? entries k with
  | some v =>
    have hv := hpart.dict.children v (Dict.mem_children_of_get? hget)
    exact (retain_renamed hv).yields
  | none => exact (missingKey_tandem hkey).yields

theorem growDict_run (r : Handle) (m : Machine υ) :
    (growDict (.ref r) : SlotAction υ Unit).run m =
      match m.heap.grow r Body.entrySize with
      | .ok (.ok h) => .done () { m with heap := h }
      | .ok (.error e) => (complain (.limit e) : SlotAction υ Unit).run m
      | .error k => .fault k := by
  simp only [growDict, run_bind, run_get, run_liftM]
  rcases m.heap.grow r Body.entrySize with k | e | h <;> rfl

theorem growDict_tandem (hobj : obj.Among known) :
    Tandem T f known RaisedRefusal (growDict obj : SlotAction υ Unit) (growDict (obj.rename f)) Eq := by
  cases obj with
  | ref r =>
    intro m₁ m₂ hm
    have hserved := hm.heap.grow (hobj r rfl) Body.entrySize
    unfold InStep
    rw [Value.rename, growDict_run, growDict_run]
    generalize m₁.heap.grow r Body.entrySize = x₁ at hserved ⊢
    generalize m₂.heap.grow (f r) Body.entrySize = x₂ at hserved ⊢
    cases hserved with
    | ok hh => exact .done ⟨rfl, hm.withHeap hh⟩
    | error e => exact complain_tandem _ m₁ m₂ hm
    | fault k => exact .fault k
    | refused hne e y =>
      have hrefusal : RaisedRefusal {} { m₁ with pending := ⟨some (Complaint.limit e).exception⟩ } := rfl
      exact .refused hne hrefusal _
  | _ => exact .pure rfl

/-- The part of storing an item that comes after the dict has been charged. -/
theorem dictStore_tandem (hobj : obj.Among known) {k : Key} (hk : ∀ r, k.Names r → known r)
    (hkey : key.Among known) (hv : v.Among known) :
    Tandem T f known R
      (do
        let key ← retain key
        let v ← retain v
        let (r, entries) ← dictToChange obj
        let (entries, leftOver) := Dict.insert entries k key v
        changeHeap (·.setBody r (.dict entries))
        releaseAll leftOver : Action υ ε Unit)
      (do
        let key ← retain (key.rename f)
        let v ← retain (v.rename f)
        let (r, entries) ← dictToChange (obj.rename f)
        let (entries, leftOver) := Dict.insert entries (k.rename f) key v
        changeHeap (·.setBody r (.dict entries))
        releaseAll leftOver : Action υ ε Unit) Eq := by
  apply (retain_tandem hkey).bind
  rintro _ _ ⟨rfl, rfl⟩
  apply (retain_tandem hv).bind
  rintro _ _ ⟨rfl, rfl⟩
  apply (dictToChange_tandem hobj).bind
  rintro ⟨r, entries⟩ ⟨_, _⟩ ⟨rfl, rfl, hr, hpart⟩
  dsimp only
  rw [Dict.insert_rename]
  exact (setBody_tandem hr (hpart.dict.insert hk hkey hv) rfl).bind fun _ _ _ =>
    releaseAll_tandem (hpart.dict.leftOver hkey)

theorem dictSet_inStep (hm : m₁.Mirrors T f known m₂) (hg : ¬ T.aligned → m₁.heap.Grounded)
    (hobj : obj.Among known) (hkey : key.Among known) (hv : v.Among known) :
    InStep T f known RaisedRefusal (dictSet obj key v)
      (dictSet (obj.rename f) (key.rename f) (v.rename f)) m₁ m₂
      fun x n₁ y n₂ => x = y ∧ n₁.Mirrors T f known n₂ := by
  refine hashKey_inStep hm hg hkey ?_
  rintro k _ ⟨rfl, hk⟩
  apply (dictEntries_tandem hobj).bind
  rintro entries _ ⟨rfl, -⟩
  rw [Dict.get?_rename, Option.isNone_map]
  refine Tandem.ite (fun _ => ?_) fun _ => dictStore_tandem hobj hk hkey hv
  exact (growDict_tandem hobj).bind fun _ _ _ => dictStore_tandem hobj hk hkey hv

theorem dictDel_inStep (hm : m₁.Mirrors T f known m₂) (hg : ¬ T.aligned → m₁.heap.Grounded)
    (hobj : obj.Among known) (hkey : key.Among known) :
    InStep T f known RaisedRefusal (dictDel obj key) (dictDel (obj.rename f) (key.rename f)) m₁ m₂
      fun x n₁ y n₂ => x = y ∧ n₁.Mirrors T f known n₂ := by
  refine hashKey_inStep hm hg hkey ?_
  rintro k _ ⟨rfl, -⟩
  apply (dictToChange_tandem hobj).bind
  rintro ⟨r, entries⟩ ⟨_, _⟩ ⟨rfl, rfl, hr, hpart⟩
  dsimp only
  rw [Dict.remove?_rename]
  cases hremove : Dict.remove? entries k with
  | none => exact missingKey_tandem hkey
  | some p =>
    obtain ⟨e, rest⟩ := p
    obtain ⟨hrest, hremoved⟩ := hpart.dict.remove? hremove
    exact (setBody_tandem hr hrest rfl).bind fun _ _ _ =>
      (releaseAll_tandem hremoved).bind fun _ _ _ => shrink_tandem hr _

end Machine

end ItemAccess
