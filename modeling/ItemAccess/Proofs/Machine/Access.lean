import ItemAccess.Machine.Access
import ItemAccess.Proofs.Machine.Items

/-!
# Item access keeps to every discipline

The slot that serves an access is called on an object whose type offers it, with operands that are
owned. What the host does on the way, to give an index, changes neither.
-/

namespace ItemAccess

open Attempt

variable {υ : SlotKind → Type} {α ε : Type} {H : Host υ} {m m₁ : Machine υ}
  {owned : Multiset Handle} {obj key v source target : Value}

theorem Pending.eq_empty {p : Pending} (hp : p.isSet = false) : p = {} := by
  cases p with
  | mk exception =>
    cases exception with
    | none => rfl
    | some e => cases hp

namespace Machine

theorem noteDispatch_ends {safe : Prop} {op : Operation} {route : Route} {type : TypeId}
    {P : Unit → Machine υ → Prop} {Q : ε → Machine υ → Prop}
    (htype : safe → ∃ t, m.registry.get? type = some t)
    (h : ∀ tracer, P () { m with tracer := tracer }) :
    (noteDispatch op route type : Action υ ε Unit).Ends m safe P Q := by
  simp only [noteDispatch, ends_bind, ends_note]
  exact typeName_ends htype fun _ => h _

theorem enter_ends {safe : Prop} {operands : List Value} {P : Unit → Machine υ → Prop}
    {Q : ε → Machine υ → Prop}
    (hsafe : safe → (∀ v ∈ operands, m.heap.Present v) ∧ m.pending.isSet = false)
    (h : (∀ v ∈ operands, m.heap.Present v) → m.pending = {} → P () m) :
    (enter operands : Action υ ε Unit).Ends m safe P Q := by
  simp only [enter, ends_bind, ends_get]
  cases hfind : (operands.filterMap Value.handle?).find? (!m.heap.isLive ·) with
  | some r =>
    intro hs
    have hmem := List.mem_of_find?_eq_some hfind
    have hdead := List.find?_some hfind
    obtain ⟨e, he⟩ := (hsafe hs).1 (.ref r) (mem_handles.1 hmem) r rfl
    simp [Heap.isLive, he] at hdead
  | none =>
    cases hp : m.pending.isSet with
    | true =>
      intro hs
      rw [(hsafe hs).2] at hp
      cases hp
    | false =>
      refine h (fun v hv => ?_) (Pending.eq_empty hp)
      rintro r rfl
      have hlive := List.find?_eq_none.1 hfind r (mem_handles.2 hv)
      exact Heap.isLive_iff.1 (by simpa using hlive)

end Machine

namespace Discipline

open Machine

variable {D : Discipline υ}

theorem callGet_keeps (hH : H.Keeps D) {s : Slot υ .get} (hc : D.Call m owned s obj [key]) :
    D.Gives (callGet H s obj key) m owned Value.handles := by
  cases s with
  | host u => exact hH.get hc
  | builtin b =>
    cases b with
    | listGet => exact listGet_keeps hH hc
    | tupleGet => exact tupleGet_keeps hH hc
    | bytesGet => exact bytesGet_keeps hH hc
    | dictGet => exact dictGet_keeps hc

theorem callSet_keeps (hH : H.Keeps D) {s : Slot υ .set} (hc : D.Call m owned s obj [key, v]) :
    D.Gives (callSet H s obj key v) m owned fun _ => 0 := by
  cases s with
  | host u => exact hH.set hc
  | builtin b =>
    cases b with
    | listSet => exact listSet_keeps hH hc
    | dictSet => exact dictSet_keeps hc

theorem callDel_keeps (hH : H.Keeps D) {s : Slot υ .del} (hc : D.Call m owned s obj [key]) :
    D.Gives (callDel H s obj key) m owned fun _ => 0 := by
  cases s with
  | host u => exact hH.del hc
  | builtin b =>
    cases b with
    | listDel => exact listDel_keeps hH hc
    | dictDel => exact dictDel_keeps hc

theorem callGetAt_keeps (hH : H.Keeps D) {s : Slot υ .getAt} (hc : D.Call m owned s obj [])
    (i : Int64) : D.Gives (callGetAt H s obj i) m owned Value.handles := by
  cases s with
  | host u => exact hH.getAt hc
  | builtin b =>
    cases b with
    | listGetAt => exact listGetAt_keeps hc i
    | tupleGetAt => exact tupleGetAt_keeps hc i
    | bytesGetAt => exact bytesGetAt_keeps hc i

theorem callSetAt_keeps (hH : H.Keeps D) {s : Slot υ .setAt} (hc : D.Call m owned s obj [v])
    (i : Int64) : D.Gives (callSetAt H s obj i v) m owned fun _ => 0 := by
  cases s with
  | host u => exact hH.setAt hc
  | builtin b =>
    cases b with
    | listSetAt => exact listSetAt_keeps hc i

theorem callLength_ends (hH : H.Keeps D) {s : Slot υ .length} (hc : D.Call m owned s obj [])
    {P : Nat → Machine υ → Prop} {Q : ε → Machine υ → Prop} (h : ∀ n, P n m) :
    (callLength H s obj : Action υ ε Nat).Ends m D.safe P Q := by
  cases s with
  | host u =>
    simp only [callLength, ends_bind, ends_get]
    exact ends_liftM (hH.length hc) fun n _ => h n
  | builtin b =>
    cases b with
    | listLength =>
      simp only [callLength, ends_bind, ends_pure]
      exact part_ends list?_eq_some (hc.list rfl hc.after) fun _ _ _ _ => h _
    | tupleLength =>
      simp only [callLength, ends_bind, ends_pure]
      exact part_ends tuple?_eq_some (hc.tuple rfl hc.after) fun _ _ _ _ => h _
    | bytesLength =>
      simp only [callLength, ends_bind, ends_pure]
      exact part_ends bytes?_eq_some (hc.bytes rfl hc.after) fun _ _ _ _ => h _

/-- A slot of the object's type is called at the end of an access. -/
theorem settle_keeps {given : α → Multiset Handle} {a : SlotAction υ α}
    (ha : D.After owned m m₁ 0) (hgives : D.Gives a m₁ owned given) :
    (settle a).Ends m₁ D.safe (fun x m' => D.After owned m m' (given x))
      fun _ m' => D.After owned m m' 0 := by
  rw [ends_settle]
  exact hgives.mono (fun _ _ h => ha.next h) fun _ _ h => (ha.next h).of_eq rfl rfl

/-- The way to a slot of the sequence table: the key becomes an index, which is raised by the
length. -/
theorem sequenceRoute_keeps (hH : H.Keeps D) {type : TypeId} {t : TypeObject υ}
    {table : SequenceTable υ} {op : Operation} (hg : D.good m.heap m.registry owned)
    (hobj : obj.Within owned) (hkey : key.Within owned) (hcalm : D.safe → D.calm m.pending)
    (htype : m.heap.typeOf obj = .ok type) (ht : m.registry.get? type = some t)
    (htable : t.capabilities.sequence? = some table) {next : Int64 → Action υ Failure α}
    {P : α → Machine υ → Prop}
    (hnext : ∀ i m₁, D.After owned m m₁ 0 → (D.safe → D.calm m₁.pending) →
      (next i).Ends m₁ D.safe P fun _ m' => D.After owned m m' 0) :
    (do
      let i ← toIndex H key
      let i ← wrapIndex H table obj i
      noteDispatch op .sequence type
      next i : Action υ Failure α).Ends m D.safe P fun _ m' => D.After owned m m' 0 := by
  simp only [ends_bind]
  refine (toIndex_keeps hH hg hkey hcalm).mono ?_ fun _ _ h => h
  rintro i m₁ ⟨ha, hcalm₁⟩
  have hlast (i : Int64) : (noteDispatch op .sequence type : Action υ Failure Unit).Ends m₁ D.safe
      (fun _ m' => (next i).Ends m' D.safe P fun _ m' => D.After owned m m' 0)
      fun _ m' => D.After owned m m' 0 := by
    refine noteDispatch_ends (fun hs => ?_) fun tracer => hnext i _ (ha.of_eq rfl rfl) hcalm₁
    exact ⟨t, Registry.get?_extend (ha.steady hs).types ht⟩
  cases hlength : table.length with
  | none => simpa only [wrapIndex, hlength, ends_pure] using hlast i
  | some s =>
    simp only [wrapIndex, hlength]
    refine ends_ite (fun _ => ?_) fun _ => hlast i
    simp only [ends_bind, ends_pure]
    have hcall : D.Call m₁ owned s obj [] := by
      refine ⟨by simpa using ha.good, hobj, by simp, hcalm₁, fun hs => ?_, False.elim⟩
      refine (ha.steady hs).offers hobj ⟨type, t, htype, ht, ?_⟩
      simp [TypeObject.slot?, htable, hlength]
    exact callLength_ends hH hcall fun n => hlast _

theorem lookup_keeps (hH : H.Keeps D) {op : Operation} (hg : D.good m.heap m.registry owned)
    (hsource : source.Within owned) (hkey : key.Within owned)
    (hcalm : D.safe → D.calm m.pending) : D.Gives (lookup H op source key) m owned Value.handles := by
  have ha : D.After owned m m 0 := .refl hg
  simp only [Gives, lookup, ends_bind]
  refine typeOf_ends (ha.present (hsource.mono 0)) fun type htype => ?_
  have hregistered (hs : D.safe) := (ha.sound hs).typeObject htype
  refine typeObject_ends hregistered fun t ht => ?_
  cases hslot : t.capabilities.get? with
  | some s =>
    simp only [ends_bind]
    refine noteDispatch_ends hregistered fun tracer => ?_
    have hcall : D.Call { m with tracer := tracer } owned s source [key] :=
      ⟨hg, hsource, by simpa using hkey, hcalm, fun _ => ⟨type, t, htype, ht, hslot⟩, False.elim⟩
    exact settle_keeps (ha.of_eq rfl rfl) (callGet_keeps hH hcall)
  | none =>
    cases htable : t.capabilities.sequence? with
    | none =>
      simp only [ends_bind, ends_refuse]
      exact typeName_ends hregistered fun _ => ha
    | some table =>
      simp only [ends_bind]
      refine isIndexLike_ends (ha.typed (hkey.mono 0)) fun b => ends_ite (fun _ => ?_) fun _ => ?_
      · cases hget : table.get with
        | none =>
          simp only [ends_bind, ends_refuse]
          exact typeName_ends hregistered fun _ => ha
        | some s =>
          refine sequenceRoute_keeps hH hg hsource hkey hcalm htype ht htable fun i m₁ ha₁ hcalm₁ => ?_
          have hcall : D.Call m₁ owned s source [] := by
            refine ⟨by simpa using ha₁.good, hsource, by simp, hcalm₁, fun hs => ?_, False.elim⟩
            refine (ha₁.steady hs).offers hsource ⟨type, t, htype, ht, ?_⟩
            simp [TypeObject.slot?, htable, hget]
          exact settle_keeps ha₁ (callGetAt_keeps hH hcall i)
      · refine ends_ite (fun _ => ?_) fun _ => ?_
        · simp only [ends_bind, ends_refuse]
          exact nameOfType_ends (ha.typed (hkey.mono 0)) fun _ => ha
        · simp only [ends_bind, ends_refuse]
          exact typeName_ends hregistered fun _ => ha

theorem assign_keeps (hH : H.Keeps D) (hg : D.good m.heap m.registry owned) (hv : v.Within owned)
    (htarget : target.Within owned) (hkey : key.Within owned) (hw : D.Writable target)
    (hcalm : D.safe → D.calm m.pending) :
    D.Gives (assign H v target key) m owned fun _ => 0 := by
  have ha : D.After owned m m 0 := .refl hg
  simp only [Gives, assign, ends_bind]
  refine typeOf_ends (ha.present (htarget.mono 0)) fun type htype => ?_
  have hregistered (hs : D.safe) := (ha.sound hs).typeObject htype
  refine typeObject_ends hregistered fun t ht => ?_
  cases hslot : t.capabilities.set? with
  | some s =>
    simp only [ends_bind]
    refine noteDispatch_ends hregistered fun tracer => ?_
    have hcall : D.Call { m with tracer := tracer } owned s target [key, v] :=
      ⟨hg, htarget, by simpa using ⟨hkey, hv⟩, hcalm, fun _ => ⟨type, t, htype, ht, hslot⟩, fun _ => hw⟩
    exact settle_keeps (ha.of_eq rfl rfl) (callSet_keeps hH hcall)
  | none =>
    cases htable : t.capabilities.sequence? with
    | none =>
      simp only [ends_bind, ends_refuse]
      exact typeName_ends hregistered fun _ => ha
    | some table =>
      simp only [ends_bind]
      refine isIndexLike_ends (ha.typed (hkey.mono 0)) fun b => ends_ite (fun _ => ?_) fun _ => ?_
      · cases hset : table.set with
        | none =>
          simp only [ends_bind, ends_refuse]
          exact typeName_ends hregistered fun _ => ha
        | some s =>
          refine sequenceRoute_keeps hH hg htarget hkey hcalm htype ht htable fun i m₁ ha₁ hcalm₁ => ?_
          have hcall : D.Call m₁ owned s target [v] := by
            refine ⟨by simpa using ha₁.good, htarget, by simpa using hv, hcalm₁, fun hs => ?_,
              fun _ => hw⟩
            refine (ha₁.steady hs).offers htarget ⟨type, t, htype, ht, ?_⟩
            simp [TypeObject.slot?, htable, hset]
          exact settle_keeps ha₁ (callSetAt_keeps hH hcall i)
      · refine ends_ite (fun _ => ?_) fun _ => ?_
        · simp only [ends_bind, ends_refuse]
          exact nameOfType_ends (ha.typed (hkey.mono 0)) fun _ => ha
        · simp only [ends_bind, ends_refuse]
          exact typeName_ends hregistered fun _ => ha

theorem delete_keeps (hH : H.Keeps D) (hg : D.good m.heap m.registry owned)
    (htarget : target.Within owned) (hkey : key.Within owned) (hw : D.Writable target)
    (hcalm : D.safe → D.calm m.pending) : D.Gives (delete H target key) m owned fun _ => 0 := by
  have ha : D.After owned m m 0 := .refl hg
  simp only [Gives, delete, ends_bind]
  refine typeOf_ends (ha.present (htarget.mono 0)) fun type htype => ?_
  have hregistered (hs : D.safe) := (ha.sound hs).typeObject htype
  refine noteDispatch_ends hregistered fun tracer => ?_
  have ha₁ : D.After owned m { m with tracer := tracer } 0 := ha.of_eq rfl rfl
  refine typeObject_ends hregistered fun t ht => ?_
  cases hslot : t.capabilities.del? with
  | some s =>
    have hcall : D.Call { m with tracer := tracer } owned s target [key] :=
      ⟨hg, htarget, by simpa using hkey, hcalm, fun _ => ⟨type, t, htype, ht, hslot⟩, fun _ => hw⟩
    exact settle_keeps ha₁ (callDel_keeps hH hcall)
  | none =>
    simp only [ends_bind, ends_refuse]
    exact typeName_ends hregistered fun _ => ha₁

theorem directItem_keeps {r : Handle} {items : List Value} (hg : D.good m.heap m.registry owned)
    (hb : m.heap.body r = .ok (.list items)) (i : Int64) :
    D.Gives (directItem items i) m owned Value.handles := by
  have ha : D.After owned m m 0 := .refl hg
  simp only [Gives, directItem]
  cases hp : Position.checked i items.length with
  | none => exact ha
  | some p =>
    simp only [ends_bind, ends_note, ends_pure]
    refine ends_liftM (fun _ => atPosition_ok (Position.checked_lt hp)) fun v hv => ?_
    have hmem : v ∈ (Body.list items).children := mem_of_atPosition hv
    refine retain_ends (fun hs => (ha.sound hs).child hb hmem) fun h' hh => ?_
    have ha' := ha.gain (Heap.retain_moves _ hh)
    rw [zero_add] at ha'
    exact ha'.of_eq rfl rfl

theorem directByte_keeps {data : List UInt8} (hg : D.good m.heap m.registry owned) (i : Int64) :
    D.Gives (directByte data i) m owned Value.handles := by
  have ha : D.After owned m m 0 := .refl hg
  simp only [Gives, directByte]
  cases hp : Position.checked i data.length with
  | none => exact ha
  | some p =>
    simp only [ends_bind, ends_handle, ends_throw, ends_note, ends_pure]
    refine ends_liftM (fun _ => atPosition_ok (Position.checked_lt hp)) fun b _ => ?_
    exact (byteString_keeps ha b fun _ => ha).mono (fun _ _ h => h.of_eq rfl rfl) fun _ _ h => h

theorem lookupConst_keeps (hH : H.Keeps D) (hg : D.good m.heap m.registry owned)
    (hsource : source.Within owned) (hkey : key.Within owned)
    (hcalm : D.safe → D.calm m.pending) (i : Int64) :
    D.Gives (lookupConst H source key i) m owned Value.handles := by
  have hslot : D.Gives (lookup H .getConst source key) m owned Value.handles :=
    lookup_keeps hH hg hsource hkey hcalm
  have ha : D.After owned m m 0 := .refl hg
  cases source with
  | ref r =>
    simp only [Gives, lookupConst, ends_bind]
    refine readHeap_ends (fun hs => (ha.present (hsource.mono 0) hs).body) fun b hb => ?_
    cases b with
    | list items => exact directItem_keeps hg hb i
    | bytes data =>
      simp only [ends_bind, ends_get]
      exact ends_ite (fun _ => directByte_keeps hg i) fun _ => hslot
    | _ => exact hslot
  | _ => exact hslot

theorem finish_keeps {op : Operation} {given : α → Multiset Handle} {a : Action υ Failure α}
    (hgives : D.Gives a m owned given) : D.Gives (finish op a) m owned given := by
  simp only [Gives, finish, ends_handle, ends_bind, ends_note, ends_throw]
  exact hgives.mono (fun _ _ h => h) fun _ _ h => h.of_eq rfl rfl

/-- An access that looks at its operands first. -/
theorem access_keeps {op : Operation} {given : α → Multiset Handle} {a : Action υ Failure α}
    {operands : List Value} (hg : D.good m.heap m.registry owned)
    (hoperands : ∀ v ∈ operands, v.Within owned) (hpending : D.safe → m.pending.isSet = false)
    (hgives : (D.safe → D.calm m.pending) → D.Gives a m owned given) :
    D.Gives (do enter operands; finish op a) m owned given := by
  have ha : D.After owned m m 0 := .refl hg
  have hlive (hs : D.safe) (v : Value) (hv : v ∈ operands) : m.heap.Present v :=
    ha.present ((hoperands v hv).mono 0) hs
  simp only [Gives, ends_bind]
  refine enter_ends (fun hs => ⟨hlive hs, hpending hs⟩) fun _ hempty => ?_
  exact finish_keeps (hgives fun _ => hempty ▸ D.quiet)

theorem getItem_keeps (hH : H.Keeps D) (hg : D.good m.heap m.registry owned)
    (hsource : source.Within owned) (hkey : key.Within owned)
    (hpending : D.safe → m.pending.isSet = false) :
    D.Gives (getItem H source key) m owned Value.handles :=
  access_keeps hg (by simpa using ⟨hsource, hkey⟩) hpending (lookup_keeps hH hg hsource hkey)

theorem getItemConst_keeps (hH : H.Keeps D) (hg : D.good m.heap m.registry owned)
    (hsource : source.Within owned) (hkey : key.Within owned)
    (hpending : D.safe → m.pending.isSet = false) (i : Int64) :
    D.Gives (getItemConst H source key i) m owned Value.handles :=
  access_keeps hg (by simpa using ⟨hsource, hkey⟩) hpending fun hcalm =>
    lookupConst_keeps hH hg hsource hkey hcalm i

theorem setItem_keeps (hH : H.Keeps D) (hg : D.good m.heap m.registry owned) (hv : v.Within owned)
    (htarget : target.Within owned) (hkey : key.Within owned) (hw : D.Writable target)
    (hpending : D.safe → m.pending.isSet = false) :
    D.Gives (setItem H v target key) m owned fun _ => 0 :=
  access_keeps hg (by simpa using ⟨hv, htarget, hkey⟩) hpending
    (assign_keeps hH hg hv htarget hkey hw)

theorem delItem_keeps (hH : H.Keeps D) (hg : D.good m.heap m.registry owned)
    (htarget : target.Within owned) (hkey : key.Within owned) (hw : D.Writable target)
    (hpending : D.safe → m.pending.isSet = false) :
    D.Gives (delItem H target key) m owned fun _ => 0 :=
  access_keeps hg (by simpa using ⟨htarget, hkey⟩) hpending (delete_keeps hH hg htarget hkey hw)

end Discipline

end ItemAccess
