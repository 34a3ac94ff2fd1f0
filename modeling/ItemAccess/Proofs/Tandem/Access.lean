import ItemAccess.Proofs.Tandem.Items

/-!
# Item access in tandem

The choice of a slot depends on types only, which are the same on both sides. Where it falls on a slot
of the machine, the access goes in step; the slots of the host are left out.
-/

namespace ItemAccess

open Attempt

variable {υ : SlotKind → Type} {T : Terms} {f : Equiv.Perm Handle} {known : Handle → Prop}
  {α β ε : Type} {m₁ m₂ : Machine υ} {R : ε → Machine υ → Prop} {H₁ H₂ : Host υ}
  {source target key v : Value} {jobs : List SlotKind} {id : TypeId} {t : TypeObject υ}

namespace Machine

theorem HostFree.builtin {m : Machine υ} (hv : m.HostFree v jobs) (hg : m.registry.Built)
    (hid : m.heap.typeOf v = .ok id) (ht : m.registry.get? id = some t) {k : SlotKind} (hk : k ∈ jobs)
    {s : Slot υ k} (hs : t.slot? k = some s) : ∃ b, s = .builtin b := by
  cases s with
  | builtin b => exact ⟨b, rfl⟩
  | host u => exact absurd ⟨id, t, hid, ht, hs⟩ (hv.unserved hg hk u)

/-- Where there is no slot by key, there is none by position: the built-in types with the one have the
other. -/
theorem HostFree.byPosition {m : Machine υ} (hv : m.HostFree v jobs) (hg : m.registry.Built)
    (hid : m.heap.typeOf v = .ok id) (ht : m.registry.get? id = some t) :
    (.getAt ∈ jobs → t.slot? .get = none → t.slot? .getAt = none) ∧
      (.setAt ∈ jobs → t.slot? .set = none → t.slot? .setAt = none) := by
  obtain ⟨model, kind, rfl, rfl⟩ | hhost := hg.cases ht
  · refine ⟨fun _ hget => ?_, fun _ hset => ?_⟩
    · cases kind <;> first | rfl | cases hget
    · cases kind <;> first | rfl | cases hset
  · exact ⟨fun hk _ => hv id t hid ht hhost .getAt hk, fun hk _ => hv id t hid ht hhost .setAt hk⟩

/-- Two machines and a key, when an item is about to be accessed. -/
structure Ready (T : Terms) (f : Equiv.Perm Handle) (known : Handle → Prop) (m₁ m₂ : Machine υ)
    (key : Value) : Prop where
  mirrors : m₁.Mirrors T f known m₂
  grounded : ¬ T.aligned → m₁.heap.Grounded
  keyFree : m₁.HostFree key [.asIndex]
  keyKnown : key.Among known

theorem Ready.index (hr : Ready T f known m₁ m₂ key) : m₁.Unserved key .asIndex :=
  hr.keyFree.unserved hr.mirrors.types (by simp)

theorem noteDispatch_inStep {k₁ : Unit → Action υ ε α} {k₂ : Unit → Action υ ε β}
    {P : α → Machine υ → β → Machine υ → Prop} (hr : Ready T f known m₁ m₂ key) (op : Operation)
    (route : Route) (id : TypeId)
    (h : ∀ t₁ t₂, Ready T f known { m₁ with tracer := t₁ } { m₂ with tracer := t₂ } key →
      InStep T f known R (k₁ ()) (k₂ ()) { m₁ with tracer := t₁ } { m₂ with tracer := t₂ } P) :
    InStep T f known R (noteDispatch op route id >>= k₁) (noteDispatch op route id >>= k₂) m₁ m₂ P := by
  have hm := hr.mirrors
  simp only [noteDispatch, bind_assoc]
  apply (typeName_found hm id).bind
  rintro name _ _ _ ⟨rfl, rfl, rfl⟩
  exact h _ _ ⟨hm.noted _, hr.grounded, hr.keyFree, hr.keyKnown⟩

theorem callGet_inStep (hr : Ready T f known m₁ m₂ key) (hsource : source.Among known)
    (b : BuiltinSlot .get) :
    InStep T f known RaisedRefusal (callGet H₁ (.builtin b) source key)
      (callGet H₂ (.builtin b) (source.rename f) (key.rename f)) m₁ m₂
      (Gives T f known Value.rename) := by
  cases b with
  | listGet => exact listGet_inStep hr.mirrors hsource hr.keyKnown hr.index
  | tupleGet => exact tupleGet_inStep hr.mirrors hsource hr.keyKnown hr.index
  | bytesGet => exact bytesGet_inStep hr.mirrors hsource hr.keyKnown hr.index
  | dictGet => exact dictGet_inStep hr.mirrors hr.grounded hsource hr.keyKnown

theorem callSet_inStep (hr : Ready T f known m₁ m₂ key) (htarget : target.Among known)
    (hv : v.Among known) (b : BuiltinSlot .set) :
    InStep T f known RaisedRefusal (callSet H₁ (.builtin b) target key v)
      (callSet H₂ (.builtin b) (target.rename f) (key.rename f) (v.rename f)) m₁ m₂
      fun x n₁ y n₂ => x = y ∧ n₁.Mirrors T f known n₂ := by
  cases b with
  | listSet => exact listSet_inStep hr.mirrors htarget hr.keyKnown hr.index hv
  | dictSet => exact dictSet_inStep hr.mirrors hr.grounded htarget hr.keyKnown hv

theorem callDel_inStep (hr : Ready T f known m₁ m₂ key) (htarget : target.Among known)
    (b : BuiltinSlot .del) :
    InStep T f known RaisedRefusal (callDel H₁ (.builtin b) target key)
      (callDel H₂ (.builtin b) (target.rename f) (key.rename f)) m₁ m₂
      fun x n₁ y n₂ => x = y ∧ n₁.Mirrors T f known n₂ := by
  cases b with
  | listDel => exact listDel_inStep hr.mirrors htarget hr.keyKnown hr.index
  | dictDel => exact dictDel_inStep hr.mirrors hr.grounded htarget hr.keyKnown

theorem lookup_inStep (hr : Ready T f known m₁ m₂ key) (hknown : source.Among known)
    (hsource : m₁.HostFree source [.get, .getAt]) (op : Operation) :
    InStep T f known FailedRefusal (lookup H₁ op source key)
      (lookup H₂ op (source.rename f) (key.rename f)) m₁ m₂ (Gives T f known Value.rename) := by
  have hm := hr.mirrors
  refine typeOf_inStep hm hknown fun id hid => typeObject_inStep hm fun t ht => ?_
  dsimp only
  cases hget : t.capabilities.get? with
  | some s =>
    obtain ⟨b, rfl⟩ := hsource.builtin hr.mirrors.types hid ht (k := .get) (by simp) hget
    exact noteDispatch_inStep hr op .mapping id fun t₁ t₂ hr' =>
      settle_inStep (callGet_inStep hr' hknown b)
  | none =>
    cases htable : t.capabilities.sequence? with
    | none => exact (refuseType_tandem id .notSubscriptable).yields m₁ m₂ hm
    | some table =>
      have hnone : table.get = none := by
        simpa [TypeObject.slot?, htable] using (hsource.byPosition hr.mirrors.types hid ht).1 (by simp) hget
      refine (isIndexLike_tandem hr.keyKnown).bindYields ?_ m₁ m₂ hm
      rintro like _ rfl
      simp only [hnone]
      refine Tandem.yields (Tandem.ite (fun _ => refuseType_tandem id .noIndexing) fun _ => ?_)
      exact Tandem.ite (fun h => by cases h) fun _ => refuseType_tandem id .notSubscriptable

theorem assign_inStep (hr : Ready T f known m₁ m₂ key) (hknown : target.Among known)
    (htarget : m₁.HostFree target [.set, .setAt]) (hv : v.Among known) :
    InStep T f known FailedRefusal (assign H₁ v target key)
      (assign H₂ (v.rename f) (target.rename f) (key.rename f)) m₁ m₂
      fun x n₁ y n₂ => x = y ∧ n₁.Mirrors T f known n₂ := by
  have hm := hr.mirrors
  refine typeOf_inStep hm hknown fun id hid => typeObject_inStep hm fun t ht => ?_
  dsimp only
  cases hset : t.capabilities.set? with
  | some s =>
    obtain ⟨b, rfl⟩ := htarget.builtin hr.mirrors.types hid ht (k := .set) (by simp) hset
    exact noteDispatch_inStep hr .set .mapping id fun t₁ t₂ hr' =>
      settle_inStep (callSet_inStep hr' hknown hv b)
  | none =>
    cases htable : t.capabilities.sequence? with
    | none => exact refuseType_tandem id .noAssignment m₁ m₂ hm
    | some table =>
      have hnone : table.set = none := by
        simpa [TypeObject.slot?, htable] using (htarget.byPosition hr.mirrors.types hid ht).2 (by simp) hset
      refine (isIndexLike_tandem hr.keyKnown).bind ?_ m₁ m₂ hm
      rintro like _ rfl
      simp only [hnone]
      refine Tandem.ite (fun _ => refuseType_tandem id .noAssignment) fun _ => ?_
      exact Tandem.ite (fun h => by cases h) fun _ => refuseType_tandem id .noAssignment

theorem delete_inStep (hr : Ready T f known m₁ m₂ key) (hknown : target.Among known)
    (htarget : m₁.HostFree target [.del]) :
    InStep T f known FailedRefusal (delete H₁ target key) (delete H₂ (target.rename f) (key.rename f))
      m₁ m₂ fun x n₁ y n₂ => x = y ∧ n₁.Mirrors T f known n₂ := by
  refine typeOf_inStep hr.mirrors hknown fun id hid => ?_
  refine noteDispatch_inStep hr .del .generic id fun t₁ t₂ hr' => ?_
  refine typeObject_inStep hr'.mirrors fun t ht => ?_
  cases hdel : t.capabilities.del? with
  | some s =>
    obtain ⟨b, rfl⟩ := htarget.builtin hr.mirrors.types hid ht (k := .del) (by simp) hdel
    exact settle_inStep (callDel_inStep hr' hknown b)
  | none => exact refuseType_tandem id .noDeletion _ _ hr'.mirrors

/-- Both machines turn down accesses while something is pending. Operands that are gone are turned down
by their slots, which must be the same then. -/
theorem enter_inStep {k₁ : Unit → Action υ ε α} {k₂ : Unit → Action υ ε β}
    {P : α → Machine υ → β → Machine υ → Prop} (hm : m₁.Mirrors T f known m₂) {operands : List Value}
    (hlive : ¬ T.aligned → ∀ v ∈ operands, v.Among (m₁.heap.isLive · = true))
    (h : InStep T f known R (k₁ ()) (k₂ ()) m₁ m₂ P) :
    InStep T f known R (enter operands >>= k₁) (enter (operands.map (Value.rename f)) >>= k₂)
      m₁ m₂ P := by
  have hfind : ((operands.map (Value.rename f)).filterMap Value.handle?).find?
      (!m₂.heap.isLive ·) = ((operands.filterMap Value.handle?).find? (!m₁.heap.isLive ·)).map f := by
    have hhandles : (operands.map (Value.rename f)).filterMap Value.handle? =
        (operands.filterMap Value.handle?).map f := by
      rw [List.filterMap_map, List.map_filterMap]
      exact List.filterMap_congr fun v _ => Value.handle?_rename f v
    rw [hhandles, List.find?_map]
    congr 2
    funext r
    exact congrArg Bool.not (hm.heap.isLive r)
  simp only [InStep, enter, run_bind, run_get, hfind, hm.pending]
  cases hfreed : (operands.filterMap Value.handle?).find? (!m₁.heap.isLive ·) with
  | some r =>
    by_cases hT : T.aligned
    · obtain ⟨rfl, -, -⟩ := hm.heap.aligned hT
      exact .fault _
    · have hr : .ref r ∈ operands := mem_handles.1 (List.mem_of_find?_eq_some hfreed)
      have hgone := List.find?_some hfreed
      rw [hlive hT _ hr r rfl] at hgone
      cases hgone
  | none =>
    cases hset : m₁.pending.isSet with
    | true => exact .fault _
    | false => exact h

theorem finish_inStep {a₁ : Action υ Failure α} {a₂ : Action υ Failure β}
    {P : α → Machine υ → β → Machine υ → Prop} (op : Operation)
    (ha : InStep T f known FailedRefusal a₁ a₂ m₁ m₂ P) :
    InStep T f known FailedRefusal (finish op a₁) (finish op a₂) m₁ m₂ P := by
  apply ha.handle
  · intro e n₁ n₂ hn
    apply (note_tandem (.failure op e) n₁ n₂ hn).bind
    rintro _ n₁ _ n₂ ⟨-, hn⟩
    exact .failed e hn
  · intro e n₁ hR
    exact ⟨_, _, rfl, hR⟩

theorem noted_yields {a₁ a₂ : Action υ ε Value} (ha : Yields T f known R a₁ a₂) (e : Event) :
    Yields T f known R (do let v ← a₁; note e; return v) (do let v ← a₂; note e; return v) := by
  intro m₁ m₂ hm
  apply (ha m₁ m₂ hm).bind
  rintro v n₁ _ n₂ ⟨f', known', hagree, rfl, hn⟩
  exact .done ⟨f', known', hagree, rfl, hn.noted e⟩

theorem directItem_yields {items : List Value} (hitems : ∀ v ∈ items, v.Among known) (i : Int64) :
    Yields T f known FailedRefusal (directItem items i : Action υ Failure Value)
      (directItem (items.map (Value.rename f)) i) := by
  unfold directItem
  rw [List.length_map]
  cases Position.checked i items.length with
  | none => exact Tandem.yields (refuse_tandem _)
  | some position =>
    apply (Tandem.lift (getElem?_both position .outOfBounds)).bindYields
    rintro v _ ⟨rfl, hv⟩
    exact noted_yields (retain_renamed (hitems v (List.mem_of_getElem? hv))).yields _

theorem directByte_yields (data : List UInt8) (i : Int64) :
    Yields T f known FailedRefusal (directByte data i : Action υ Failure Value)
      (directByte data i) := by
  unfold directByte
  cases Position.checked i data.length with
  | none => exact Tandem.yields (refuse_tandem _)
  | some position =>
    apply (Tandem.lift (.refl (atPosition data position))).bindYields
    rintro b _ rfl
    exact noted_yields (byteString_yields b (fun e => .raise _) fun e n => ⟨_, _, rfl, rfl⟩) _

theorem lookupConst_inStep (hr : Ready T f known m₁ m₂ key) (hknown : source.Among known)
    (hsource : m₁.HostFree source [.get, .getAt]) (i : Int64) :
    InStep T f known FailedRefusal (lookupConst H₁ source key i)
      (lookupConst H₂ (source.rename f) (key.rename f) i) m₁ m₂ (Gives T f known Value.rename) := by
  have hm := hr.mirrors
  have hslot : InStep T f known FailedRefusal (lookup H₁ .getConst source key)
      (lookup H₂ .getConst (source.rename f) (key.rename f)) m₁ m₂ (Gives T f known Value.rename) :=
    lookup_inStep hr hknown hsource .getConst
  cases source with
  | ref r =>
    apply (readBody_found hm (hknown r rfl)).bind
    rintro b _ _ _ ⟨⟨hb, rfl⟩, rfl, rfl⟩
    cases b with
    | list items => exact directItem_yields (hm.heap.among hb).children i m₁ m₂ hm
    | bytes data =>
      have hmodel : m₂.settings.textModel = .byteString ↔ m₁.settings.textModel = .byteString := by
        rw [hm.textModel]
      exact InStep.ite hmodel (fun _ => directByte_yields data i m₁ m₂ hm) fun _ => hslot
    | _ => exact hslot
  | _ => exact hslot

end Machine

end ItemAccess
