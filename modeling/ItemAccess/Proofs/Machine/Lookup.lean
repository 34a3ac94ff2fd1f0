import ItemAccess.Proofs.Machine.Frame

/-!
# The slot that serves a read

A read through slots comes to one of four ends: a slot by key is called; a slot of the host by position
is called; the read is refused; or the host gives no length. The tracer is told the name of the
operation, and nothing else depends on it.
-/

namespace ItemAccess.Machine

open Attempt

variable {υ : SlotKind → Type} {α ε : Type} {H : Host υ} {m : Machine υ} {v source key : Value}
  {id : TypeId} {t : TypeObject υ} {owned : Multiset Handle}

theorem run_readHeap {f : Heap → Except Fault α} {a : α} (hf : f m.heap = .ok a) :
    (readHeap f : Action υ ε α).run m = .done a m := by
  simp [readHeap, hf]

theorem run_changeHeap {f : Heap → Except Fault Heap} {h' : Heap} (hf : f m.heap = .ok h') :
    (changeHeap f : Action υ ε Unit).run m = .done () { m with heap := h' } := by
  simp [changeHeap, hf]

theorem run_typeOf (hid : m.heap.typeOf v = .ok id) :
    (typeOf v : Action υ ε TypeId).run m = .done id m :=
  run_readHeap hid

theorem run_typeObject (ht : m.registry.get? id = some t) :
    (typeObject id : Action υ ε (TypeObject υ)).run m = .done t m := by
  simp [typeObject, ht]

theorem run_typeName (ht : m.registry.get? id = some t) :
    (typeName id : Action υ ε String).run m = .done t.name m := by
  simp [typeName, run_typeObject ht]

theorem run_nameOfType (hid : m.heap.typeOf v = .ok id) (ht : m.registry.get? id = some t) :
    (nameOfType v : Action υ ε String).run m = .done t.name m := by
  simp [nameOfType, run_typeOf hid, run_typeName ht]

theorem run_isIndexLike (hid : m.heap.typeOf v = .ok id) (ht : m.registry.get? id = some t) :
    (isIndexLike v : Action υ ε Bool).run m = .done t.asIndex.isSome m := by
  simp [isIndexLike, run_typeOf hid, run_typeObject ht]

theorem run_noteDispatch (op : Operation) (route : Route) (ht : m.registry.get? id = some t) :
    (noteDispatch op route id : Action υ ε Unit).run m =
      .done () { m with tracer := m.tracer.note (.dispatch op route t.name) } := by
  simp [noteDispatch, run_typeName ht, note]

/-- A type with a slot by key is served by it. -/
theorem run_lookup_of_get (hid : m.heap.typeOf source = .ok id) (ht : m.registry.get? id = some t)
    {s : Slot υ .get} (hs : t.slot? .get = some s) (op : Operation) :
    (lookup H op source key).run m = (settle (callGet H s source key)).run
      { m with tracer := m.tracer.note (.dispatch op .mapping t.name) } := by
  have hget : t.capabilities.get? = some s := hs
  simp [lookup, run_typeOf hid, run_typeObject ht, hget, run_noteDispatch op .mapping ht]

/-- Without one, its sequence table is asked if the key can serve as an index. -/
theorem run_lookup_of_sequence (hid : m.heap.typeOf source = .ok id)
    (ht : m.registry.get? id = some t) (hget : t.slot? .get = none) {table : SequenceTable υ}
    (htable : t.capabilities.sequence? = some table) {kid : TypeId} {kt : TypeObject υ}
    (hkid : m.heap.typeOf key = .ok kid) (hkt : m.registry.get? kid = some kt) (op : Operation) :
    (lookup H op source key).run m =
      (if kt.asIndex.isSome then
        match table.get with
        | none => refuse (.noIndexing t.name)
        | some s => do
          let i ← toIndex H key
          let i ← wrapIndex H table source i
          noteDispatch op .sequence id
          settle (callGetAt H s source i)
      else if table.get.isSome then refuse (.sequenceIndex kt.name)
      else refuse (.notSubscriptable t.name) : Action υ Failure Value).run m := by
  have hget : t.capabilities.get? = none := hget
  simp only [lookup, run_bind, run_typeOf hid, run_typeObject ht, hget, htable,
    run_isIndexLike hkid hkt]
  cases kt.asIndex.isSome <;> cases table.get <;>
    simp [run_typeName ht, run_nameOfType hkid hkt]

/-- What a read comes to, under whatever name the tracer is told of it. -/
inductive Served (H : Host υ) (m : Machine υ) (source key : Value) : Prop
  | byKey (s : Slot υ .get) (ho : m.Offers source s)
    (hrun : ∀ op, ∃ tracer, (lookup H op source key).run m =
      (settle (callGet H s source key)).run { m with tracer := tracer })
  | byPosition (u : υ .getAt) (i : Int64) (ho : m.Offers source (.host u))
    (hrun : ∀ op, ∃ tracer, (lookup H op source key).run m =
      (settle (H.getAt u source i)).run { m with tracer := tracer })
  | refused (f : Failure) (hrun : ∀ op, (lookup H op source key).run m = .failed f m)
  | noLength (u : υ .length) (f : Fault) (ho : m.Offers source (.host u))
    (hlength : H.length u m source = .error f)
    (hrun : ∀ op, (lookup H op source key).run m = .fault f)

/-- A position slot of the host is called with the index that the key means, raised by the length if
it is negative. -/
theorem served_of_getAt (hid : m.heap.typeOf source = .ok id) (ht : m.registry.get? id = some t)
    (hhost : t.HostServed) {table : SequenceTable υ} (htable : t.capabilities.sequence? = some table)
    {u : υ .getAt} (hu : table.get = some (.host u)) (i : Int64)
    (hrun : ∀ op, (lookup H op source key).run m =
      (do
        let i ← wrapIndex H table source i
        noteDispatch op .sequence id
        settle (H.getAt u source i) : Action υ Failure Value).run m) : Served H m source key := by
  have hgetAt : m.Offers source (.host u : Slot υ .getAt) :=
    ⟨id, t, hid, ht, by simp [TypeObject.slot?, htable, hu]⟩
  have hdone (j : Int64) (hwrap : (wrapIndex H table source i : Action υ Failure Int64).run m =
      .done j m) : Served H m source key := by
    refine .byPosition u j hgetAt fun op => ⟨m.tracer.note (.dispatch op .sequence t.name), ?_⟩
    rw [hrun, run_bind, hwrap]
    simp only [run_bind, run_noteDispatch op .sequence ht]
  cases hlength : table.length with
  | none => exact hdone i (by simp [wrapIndex, hlength])
  | some s =>
    have hslot : t.slot? .length = some s := by simp [TypeObject.slot?, htable, hlength]
    obtain ⟨w, rfl⟩ := hhost .length (by decide) s hslot
    by_cases hi : i < 0
    · cases hn : H.length w m source with
      | ok n => exact hdone (Position.wrap i n) (by simp [wrapIndex, hlength, hi, callLength, hn])
      | error f =>
        refine .noLength w f ⟨id, t, hid, ht, hslot⟩ hn fun op => ?_
        simp [hrun, wrapIndex, hlength, hi, callLength, hn]
    · exact hdone i (by simp [wrapIndex, hlength, hi])

theorem lookup_served (hs : m.heap.Sound m.registry owned) (hquiet : m.pending = {})
    (hsource : m.heap.Present source) (hkey : m.heap.Present key)
    (hindex : m.Unserved key .asIndex) : Served H m source key := by
  obtain ⟨id, t, hid, ht⟩ := Typed.of_sound hs hsource
  obtain ⟨kid, kt, hkid, hkt⟩ := Typed.of_sound hs hkey
  cases hget : t.capabilities.get? with
  | some s => exact .byKey s ⟨id, t, hid, ht, hget⟩ fun op => ⟨_, run_lookup_of_get hid ht hget op⟩
  | none =>
    cases htable : t.capabilities.sequence? with
    | none =>
      refine .refused (.ofComplaint (.notSubscriptable t.name)) fun op => ?_
      simp [lookup, run_typeOf hid, run_typeObject ht, hget, htable, run_typeName ht, refuse]
    | some table =>
      have hrun := run_lookup_of_sequence (H := H) hid ht hget htable hkid hkt
      cases hlike : kt.asIndex.isSome with
      | false =>
        cases hgetAt : table.get with
        | none =>
          refine .refused (.ofComplaint (.notSubscriptable t.name)) fun op => ?_
          simp [hrun, hlike, hgetAt, refuse]
        | some s =>
          refine .refused (.ofComplaint (.sequenceIndex kt.name)) fun op => ?_
          simp [hrun, hlike, hgetAt, refuse]
      | true =>
        cases hgetAt : table.get with
        | none =>
          refine .refused (.ofComplaint (.noIndexing t.name)) fun op => ?_
          simp [hrun, hlike, hgetAt, refuse]
        | some s =>
          have hhost := hs.built.served hs.served ht hget htable
          have hslot : t.slot? .getAt = some s := by simp [TypeObject.slot?, htable, hgetAt]
          obtain ⟨u, rfl⟩ := hhost .getAt (by decide) s hslot
          have hindexed : (toIndex H key).Ends m True (fun _ m' => m' = m) fun _ m' => m' = m :=
            toIndex_ends hs hquiet hkey hindex
          obtain ⟨i, m', hi, heq⟩ | ⟨f, m', hf, heq⟩ := hindexed.cases <;> subst m'
          · refine served_of_getAt hid ht hhost htable hgetAt i fun op => ?_
            simp [hrun, hlike, hgetAt, hi, callGetAt]
          · refine .refused f fun op => ?_
            simp [hrun, hlike, hgetAt, hf]

theorem lookup_clean {safe : Prop} (hs : m.heap.Sound m.registry owned) (hquiet : m.pending = {})
    (hsource : m.heap.Present source) (hkey : m.heap.Present key)
    (hindex : m.Unserved key .asIndex) (hget : m.Unserved source .get)
    (hgetAt : m.Unserved source .getAt) (hlength : safe → m.Unserved source .length)
    (op : Operation) :
    (lookup H op source key).Ends m safe (fun _ _ => True) fun _ m' => m.Alike m' := by
  cases lookup_served hs hquiet hsource hkey hindex with
  | byKey s ho hrun =>
    obtain ⟨tracer, hrun⟩ := hrun op
    cases s with
    | host u => exact absurd ho (hget u)
    | builtin b =>
      have hclean : Clean safe (callGet H (.builtin b) source key) { m with tracer := tracer } :=
        callGet_clean (m := { m with tracer := tracer }) hs hquiet hkey hindex ho
      exact (hclean.settle hquiet).of_run hrun
  | byPosition u i ho hrun => exact absurd ho (hgetAt u)
  | refused f hrun =>
    unfold Ends
    rw [hrun op]
    exact ⟨m.tracer, rfl⟩
  | noLength u f ho _ hrun =>
    unfold Ends
    rw [hrun op]
    exact fun hsafe => hlength hsafe u ho

end ItemAccess.Machine
