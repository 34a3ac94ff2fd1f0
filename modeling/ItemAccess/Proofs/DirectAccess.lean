import ItemAccess.Proofs.FaultFreedom
import ItemAccess.Proofs.Machine.Lookup

/-!
# The direct way agrees with the general one

A read at an index known beforehand finds the items of a list, and the bytes of a byte string that is
text, without a slot. It gives the same value as a read with the key, or fails with the same exception,
and it leaves the same store behind. Only the kind of the failure tells the two ways apart.
-/

namespace ItemAccess

open Attempt

variable {υ : SlotKind → Type} {α ε : Type} {H : Host υ} {m m₁ m₂ : Machine υ} {i : Int64}
  {owned : Multiset Handle} {v source key : Value} {r : Handle}

def Value.integer? : Value → Option Int64
  | .int i => some i
  | .bool b => some (if b then 1 else 0)
  | _ => Option.none

/-- Ends that differ in the tracer only. -/
inductive Outcome.Alike : Outcome (Machine υ) ε α → Outcome (Machine υ) ε α → Prop
  | done {x : α} {m m' : Machine υ} (h : m.Alike m') : Alike (.done x m) (.done x m')
  | failed {e : ε} {m m' : Machine υ} (h : m.Alike m') : Alike (.failed e m) (.failed e m')
  | fault {f : Fault} : Alike (.fault f) (.fault f)

namespace Machine

/-- A computation that does not look at the tracer. -/
def Blind (a : Action υ ε α) : Prop :=
  ∀ m tracer, (a.run m).Alike (a.run { m with tracer := tracer })

theorem retain_blind (v : Value) : Blind (retain v : Action υ ε Value) := by
  intro m tracer
  cases hr : m.heap.retain v with
  | ok h =>
    simp only [retain, changeHeap, run_bind, run_get, run_liftM, run_set, run_pure, hr]
    exact .done ⟨tracer, rfl⟩
  | error f =>
    simp only [retain, changeHeap, run_bind, run_get, run_liftM, hr]
    exact .fault

theorem complain_blind (c : Complaint) : Blind (complain c : SlotAction υ α) :=
  fun _ tracer => .failed ⟨tracer, rfl⟩

theorem itemAt_blind (u : IndexUse) (items : List Value) (position : Option Nat) :
    Blind (itemAt u items position : SlotAction υ Value) := by
  cases position with
  | none => exact complain_blind (.outOfRange u)
  | some p =>
    intro m tracer
    cases hv : atPosition items p with
    | ok v => simpa only [itemAt, run_bind, run_liftM, hv] using retain_blind v m tracer
    | error f =>
      simp only [itemAt, run_bind, run_liftM, hv]
      exact .fault

theorem byteAt_blind (data : List UInt8) (position : Option Nat) :
    Blind (byteAt data position : SlotAction υ Value) := by
  cases position with
  | none => exact complain_blind (.outOfRange .bytes)
  | some p =>
    intro m tracer
    cases hb : atPosition data p with
    | error f =>
      simp only [byteAt, run_bind, run_liftM, hb]
      exact .fault
    | ok b =>
      simp only [byteAt, Machine.byteString, run_bind, run_liftM, hb, run_handle, run_get]
      cases m.heap.byteString b with
      | error f => exact .fault
      | ok x =>
        cases x with
        | error e => exact .failed ⟨tracer, rfl⟩
        | ok p => exact .done ⟨tracer, rfl⟩

/-- Integers and truth values are of types that make an index of them. -/
theorem typeOf_integer (hg : m.registry.Built) (hkey : key.integer? = some i) :
    ∃ (kind : BuiltinKind) (t : TypeObject υ), m.heap.typeOf key = .ok kind.typeId ∧
      m.registry.get? kind.typeId = some t ∧ t.asIndex = some (.builtin .intAsIndex) := by
  cases key with
  | int j =>
    obtain ⟨model, ht⟩ := hg.get? .int
    exact ⟨.int, _, rfl, ht, rfl⟩
  | bool b =>
    obtain ⟨model, ht⟩ := hg.get? .bool
    exact ⟨.bool, _, rfl, ht, rfl⟩
  | _ => cases hkey

theorem unserved_integer (hg : m.registry.Built) (hkey : key.integer? = some i) (k : SlotKind) :
    m.Unserved key k := by
  obtain ⟨kind, t, hkind, -, -⟩ := typeOf_integer hg hkey
  exact (HostFree.of_builtin hg hkind [k]).unserved hg (by simp)

theorem run_intAsIndex (hkey : key.integer? = some i) :
    (intAsIndex key : SlotAction υ Value).run m = .done (.int i) m := by
  cases key with
  | int j =>
    cases hkey
    rfl
  | bool b =>
    cases hkey
    rfl
  | _ => cases hkey

theorem run_ownIndex (hg : m.registry.Built) (hkey : key.integer? = some i) (u : IndexUse) :
    (ownIndex H u key).run m = .done i m := by
  obtain ⟨kind, t, hkind, ht, hslot⟩ := typeOf_integer hg hkey
  have hnative : (nativeIndex (.int i) : Action υ Failure NativeIndex).run m = .done (.fits i) m := rfl
  have htype : (typeOf (.int i) : Action υ Failure TypeId).run m = .done BuiltinKind.int.typeId m := rfl
  have hrelease : (release (.int i) : Action υ Failure Unit).run m = .done () m := by
    simp [release, changeHeap, Heap.release, Heap.releaseAll]
  have hindex : (toIndex H key).run m = .done i m := by
    simp [toIndex, run_typeOf hkind, run_typeObject ht, hslot, settle, callAsIndex,
      run_intAsIndex hkey, hnative, htype, hrelease]
  simp [ownIndex, run_isIndexLike hkind ht, hslot, passOn, hindex]

theorem run_hashKey (hkey : key.integer? = some i) :
    ∃ k, ∀ m : Machine υ, (hashKey key).run m = .done k m := by
  cases key with
  | int j => exact ⟨.integer j, fun m => rfl⟩
  | bool b => exact ⟨.integer (if b then 1 else 0), fun m => rfl⟩
  | _ => cases hkey

theorem run_textOf (hkey : key.integer? = some i) :
    ∃ text, ∀ m : Machine υ, (textOf key : Action υ ε String).run m = .done text m := by
  cases key with
  | int j => exact ⟨toString j.toInt, fun m => rfl⟩
  | bool b => cases b <;> exact ⟨_, fun m => rfl⟩
  | _ => cases hkey

theorem run_part {c : Container} {part? : Body → Option α} {b : Body} {a : α}
    (hb : m.heap.body r = .ok b) (ha : part? b = some a) :
    (part c part? (.ref r) : Action υ ε α).run m = .done a m := by
  simp [part, run_readHeap (f := (·.body r)) hb, ha]

theorem run_listGet (hg : m.registry.Built) (hkey : key.integer? = some i) {items : List Value}
    (hb : m.heap.body r = .ok (.list items)) :
    (listGet H (.ref r) key).run m =
      (itemAt .list items (Position.checked i items.length)).run m := by
  have hitems : (listItems (.ref r) : SlotAction υ (List Value)).run m = .done items m :=
    run_part hb rfl
  simp [listGet, run_ownIndex hg hkey, hitems]

theorem run_bytesGet (hg : m.registry.Built) (hkey : key.integer? = some i) {data : List UInt8}
    (hb : m.heap.body r = .ok (.bytes data)) :
    (bytesGet H (.ref r) key).run m = (byteAt data (Position.checked i data.length)).run m := by
  have hdata : (bytesData (.ref r) : SlotAction υ (List UInt8)).run m = .done data m :=
    run_part hb rfl
  simp [bytesGet, run_ownIndex hg hkey, hdata]

theorem run_tupleGet (hg : m.registry.Built) (hkey : key.integer? = some i) {items : List Value}
    (hb : m.heap.body r = .ok (.tuple items)) :
    (tupleGet H (.ref r) key).run m =
      (itemAt .tuple items (Position.checked i items.length)).run m := by
  have hitems : (tupleItems (.ref r) : SlotAction υ (List Value)).run m = .done items m :=
    run_part hb rfl
  simp [tupleGet, run_ownIndex hg hkey, hitems]

/-- With an integer, a slot of the machine reads without a look at the tracer. -/
theorem callGet_reads (hs : m.heap.Sound m.registry owned) (hkey : key.integer? = some i)
    {b : BuiltinSlot .get} (ho : m.Offers source (.builtin b)) :
    ∃ a : SlotAction υ Value, Blind a ∧ ∀ tracer,
      (callGet H (.builtin b) source key).run { m with tracer := tracer } =
        a.run { m with tracer := tracer } := by
  have hg := hs.built
  cases b with
  | listGet =>
    obtain ⟨r, items, rfl, hb⟩ := ho.list rfl hs
    exact ⟨_, itemAt_blind _ _ _, fun tracer =>
      run_listGet (m := { m with tracer := tracer }) hg hkey hb⟩
  | tupleGet =>
    obtain ⟨r, items, rfl, hb⟩ := ho.tuple rfl hs
    exact ⟨_, itemAt_blind _ _ _, fun tracer =>
      run_tupleGet (m := { m with tracer := tracer }) hg hkey hb⟩
  | bytesGet =>
    obtain ⟨r, data, rfl, hb⟩ := ho.bytes rfl hs
    exact ⟨_, byteAt_blind _ _, fun tracer =>
      run_bytesGet (m := { m with tracer := tracer }) hg hkey hb⟩
  | dictGet =>
    obtain ⟨r, entries, rfl, hb⟩ := ho.dict rfl hs
    obtain ⟨k, hk⟩ := run_hashKey (υ := υ) hkey
    obtain ⟨shown, hshown⟩ := run_textOf (υ := υ) (ε := Raised) hkey
    have hentries (tracer : Tracer) : (dictEntries (.ref r) : SlotAction υ (List DictEntry)).run
        { m with tracer := tracer } = .done entries { m with tracer := tracer } :=
      run_part hb rfl
    cases hv : Dict.get? entries k with
    | some v =>
      refine ⟨_, retain_blind v, fun tracer => ?_⟩
      simp [callGet, dictGet, hk, hentries, hv]
    | none =>
      refine ⟨_, complain_blind (.missingKey shown), fun tracer => ?_⟩
      simp [callGet, dictGet, hk, hentries, hv, hshown]

end Machine

structure Host.Blind (H : Host υ) : Prop where
  get : ∀ u obj key, Machine.Blind (H.get u obj key)
  getAt : ∀ u obj i, Machine.Blind (H.getAt u obj i)

/-- No slot of the host that reading an item can call faults. -/
structure Host.Answers (H : Host υ) (m : Machine υ) (source key : Value) : Prop where
  get : ∀ u, m.Offers source (.host u) → ∀ f, (H.get u source key).run m ≠ .fault f
  getAt : ∀ u i, m.Offers source (.host u) → ∀ f, (H.getAt u source i).run m ≠ .fault f
  length : ∀ u, m.Offers source (.host u) → ∀ f, H.length u m source ≠ .error f

namespace Machine

def Direct (m : Machine υ) (source : Value) : Prop :=
  Holds m source Body.list ∨ Holds m source Body.bytes ∧ m.settings.textModel = .byteString

/-- How a direct read and a general read of an item compare. Both are done or both fail, unless a slot
of the host faults. -/
inductive SameRead (H : Host υ) (m : Machine υ) (source key : Value) :
    Outcome (Machine υ) Failure Value → Outcome (Machine υ) Failure Value → Prop
  | done {v : Value} {m₁ m₂ : Machine υ} (hstate : m₁.Alike m₂) :
    SameRead H m source key (.done v m₁) (.done v m₂)
  | failed {f₁ f₂ : Failure} {m₁ m₂ : Machine υ} (hstate : m₁.Alike m₂)
    (hkept : m.HostFree source [.get, .getAt] → m.Alike m₁)
    (hexception : f₁.exception = f₂.exception)
    (hkind : ¬ m.Direct source → f₁.kind = f₂.kind)
    (hdirect : m.Direct source → f₂.kind = .propagated ∧
      (f₁.cls = .indexError ∧ f₁.kind = .indexOutOfRange ∨
        f₁.cls = .memoryError ∧ f₁.kind = .resourceExhausted)) :
    SameRead H m source key (.failed f₁ m₁) (.failed f₂ m₂)
  | fault {f : Fault} (hhost : ¬ H.Answers m source key) :
    SameRead H m source key (.fault f) (.fault f)

theorem SameRead.of_alike {o₁ o₂ : Outcome (Machine υ) Failure Value} (ho : o₁.Alike o₂)
    (hd : ¬ m.Direct source) (hfault : ∀ f, o₁ = .fault f → ¬ H.Answers m source key)
    (hkept : ∀ f m₁, o₁ = .failed f m₁ → m.HostFree source [.get, .getAt] → m.Alike m₁) :
    SameRead H m source key o₁ o₂ := by
  cases ho with
  | done h => exact .done h
  | failed h => exact .failed h (hkept _ _ rfl) rfl (fun _ => rfl) (absurd · hd)
  | fault => exact .fault (hfault _ rfl)

/-- The general read of a value whose slot by key is known and comes to something simpler. -/
theorem exists_run_lookup {id : TypeId} {t : TypeObject υ} {s : Slot υ .get}
    {a : SlotAction υ Value} (hid : m.heap.typeOf source = .ok id)
    (ht : m.registry.get? id = some t) (hslot : t.slot? .get = some s)
    (hcall : ∀ tracer, (callGet H s source key).run { m with tracer := tracer } =
      a.run { m with tracer := tracer }) :
    ∃ tracer, (lookup H .get source key).run m = (settle a).run { m with tracer := tracer } := by
  refine ⟨m.tracer.note (.dispatch .get .mapping t.name), ?_⟩
  rw [run_lookup_of_get hid ht hslot]
  simp only [settle, run_handle, hcall]

theorem run_retain {h' : Heap} (hh : m.heap.retain v = .ok h') :
    (retain v : Action υ ε Value).run m = .done v { m with heap := h' } := by
  simp [retain, changeHeap, hh]

theorem directItem_same {items : List Value} (hs : m.heap.Sound m.registry owned)
    (hquiet : m.pending = {}) (hkey : key.integer? = some i)
    (hb : m.heap.body r = .ok (.list items)) :
    SameRead H m (.ref r) key ((lookupConst H (.ref r) key i).run m)
      ((lookup H .get (.ref r) key).run m) := by
  obtain ⟨model, ht⟩ := hs.built.get? .list
  have hid : m.heap.typeOf (.ref r) = .ok BuiltinKind.list.typeId := Heap.typeOf_ref hb
  have hdirect : m.Direct (.ref r) := .inl ⟨r, items, rfl, hb⟩
  obtain ⟨tracer, hright⟩ : ∃ tracer, (lookup H .get (.ref r) key).run m =
      (settle (itemAt .list items (Position.checked i items.length))).run
        { m with tracer := tracer } :=
    exists_run_lookup hid ht rfl fun tracer =>
      run_listGet (m := { m with tracer := tracer }) hs.built hkey hb
  have hleft : (lookupConst H (.ref r) key i).run m = (directItem items i).run m := by
    simp [lookupConst, run_readHeap (f := (·.body r)) hb]
  rw [hleft, hright]
  cases hp : Position.checked i items.length with
  | none =>
    simp only [directItem, hp]
    exact .failed ⟨tracer, clear_pending (m := { m with tracer := tracer }) hquiet⟩
      (fun _ => ⟨m.tracer, rfl⟩) rfl (absurd hdirect) fun _ => ⟨rfl, .inl ⟨rfl, rfl⟩⟩
  | some p =>
    obtain ⟨v, hv⟩ := atPosition_ok (Position.checked_lt hp)
    have hmem : v ∈ (Body.list items).children := mem_of_atPosition hv
    obtain ⟨h', hh⟩ := (hs.child hb hmem).retain
    simp only [directItem, itemAt, settle, hp, run_bind, run_handle, run_liftM, hv, run_retain hh,
      run_retain (m := { m with tracer := tracer }) hh]
    exact .done ⟨tracer, rfl⟩

theorem directByte_same {data : List UInt8} (hs : m.heap.Sound m.registry owned)
    (hquiet : m.pending = {}) (hkey : key.integer? = some i)
    (hb : m.heap.body r = .ok (.bytes data)) (hmodel : m.settings.textModel = .byteString) :
    SameRead H m (.ref r) key ((lookupConst H (.ref r) key i).run m)
      ((lookup H .get (.ref r) key).run m) := by
  obtain ⟨model, ht⟩ := hs.built.get? .bytes
  have hid : m.heap.typeOf (.ref r) = .ok BuiltinKind.bytes.typeId := Heap.typeOf_ref hb
  have hdirect : m.Direct (.ref r) := .inr ⟨⟨r, data, rfl, hb⟩, hmodel⟩
  obtain ⟨tracer, hright⟩ : ∃ tracer, (lookup H .get (.ref r) key).run m =
      (settle (byteAt data (Position.checked i data.length))).run { m with tracer := tracer } :=
    exists_run_lookup hid ht rfl fun tracer =>
      run_bytesGet (m := { m with tracer := tracer }) hs.built hkey hb
  have hleft : (lookupConst H (.ref r) key i).run m = (directByte data i).run m := by
    simp [lookupConst, run_readHeap (f := (·.body r)) hb, hmodel]
  rw [hleft, hright]
  have hclear := clear_pending (m := { m with tracer := tracer }) hquiet
  cases hp : Position.checked i data.length with
  | none =>
    simp only [directByte, hp]
    exact .failed ⟨tracer, hclear⟩ (fun _ => ⟨m.tracer, rfl⟩) rfl (absurd hdirect)
      fun _ => ⟨rfl, .inl ⟨rfl, rfl⟩⟩
  | some p =>
    obtain ⟨b, hb'⟩ := atPosition_ok (Position.checked_lt hp)
    obtain ⟨x, hx⟩ := hs.byteString b
    simp only [directByte, byteAt, Machine.byteString, settle, hp, run_bind, run_handle, run_liftM,
      run_get, hb', hx]
    cases x with
    | error e =>
      exact .failed ⟨tracer, hclear⟩ (fun _ => ⟨m.tracer, rfl⟩) rfl (absurd hdirect)
        fun _ => ⟨rfl, .inr ⟨rfl, rfl⟩⟩
    | ok p => exact .done ⟨tracer, rfl⟩

theorem alike_settle {a b : SlotAction υ α} (h : (a.run m₁).Alike (b.run m₂)) :
    ((settle a).run m₁).Alike ((settle b).run m₂) := by
  simp only [settle, run_handle]
  generalize a.run m₁ = o₁ at h ⊢
  generalize b.run m₂ = o₂ at h ⊢
  cases h with
  | done h => exact .done h
  | failed h =>
    obtain ⟨tracer, rfl⟩ := h
    exact .failed ⟨tracer, rfl⟩
  | fault => exact .fault

theorem run_settle_fault {a : SlotAction υ α} {f : Fault} (hf : (settle a).run m = .fault f) :
    a.run m = .fault f := by
  cases ha : a.run m with
  | done x m₁ => simp [settle, ha] at hf
  | failed e m₁ => simp [settle, takePending, ha] at hf
  | fault g => simpa [settle, ha] using hf

/-- A slot of the host is called under either name of the operation. -/
theorem SameRead.of_host {a : SlotAction υ Value} (ha : Blind a)
    (hfault : ∀ f, a.run m = .fault f → ¬ H.Answers m source key) (hd : ¬ m.Direct source)
    (hserved : ¬ m.HostFree source [.get, .getAt]) (t₁ t₂ : Tracer) :
    SameRead H m source key ((settle a).run { m with tracer := t₁ })
      ((settle a).run { m with tracer := t₂ }) := by
  refine .of_alike (alike_settle (ha { m with tracer := t₁ } t₂)) hd (fun f hf => ?_)
    fun _ _ _ hfree => absurd hfree hserved
  have halike := ha { m with tracer := t₁ } m.tracer
  rw [run_settle_fault hf] at halike
  generalize hr : a.run _ = o at halike
  cases halike
  exact hfault f hr

/-- The name of the operation, which the tracer is told, makes no difference. -/
theorem lookup_same (hH : H.Blind) (hs : m.heap.Sound m.registry owned) (hquiet : m.pending = {})
    (hsource : m.heap.Present source) (hkey : key.integer? = some i) (hd : ¬ m.Direct source) :
    SameRead H m source key ((lookup H .getConst source key).run m)
      ((lookup H .get source key).run m) := by
  have hindex := unserved_integer hs.built hkey .asIndex
  have hpresent : m.heap.Present key := by
    rintro r rfl
    cases hkey
  cases lookup_served (H := H) hs hquiet hsource hpresent hindex with
  | byKey s ho hrun =>
    obtain ⟨t₁, h₁⟩ := hrun .getConst
    obtain ⟨t₂, h₂⟩ := hrun .get
    rw [h₁, h₂]
    cases s with
    | host u =>
      exact .of_host (hH.get u source key) (fun f hf hanswers => hanswers.get u ho f hf) hd
        (fun hfree => hfree.unserved hs.built (by simp) u ho) t₁ t₂
    | builtin b =>
      obtain ⟨a, ha, hcall⟩ := callGet_reads (H := H) hs hkey ho
      have halike : ((callGet H (.builtin b) source key).run { m with tracer := t₁ }).Alike
          ((callGet H (.builtin b) source key).run { m with tracer := t₂ }) := by
        rw [hcall, hcall]
        exact ha { m with tracer := t₁ } t₂
      have hclean : Clean True (callGet H (.builtin b) source key) { m with tracer := t₁ } :=
        callGet_clean (m := { m with tracer := t₁ }) hs hquiet hpresent hindex ho
      have hends := hclean.settle hquiet
      refine .of_alike (alike_settle halike) hd (fun f hf => absurd trivial (hends.no_fault hf)) ?_
      exact fun f m₁ hf _ => hends.failed hf
  | byPosition u j ho hrun =>
    obtain ⟨t₁, h₁⟩ := hrun .getConst
    obtain ⟨t₂, h₂⟩ := hrun .get
    rw [h₁, h₂]
    exact .of_host (hH.getAt u source j) (fun f hf hanswers => hanswers.getAt u j ho f hf) hd
      (fun hfree => hfree.unserved hs.built (by simp) u ho) t₁ t₂
  | refused f hrun =>
    rw [hrun, hrun]
    exact .failed ⟨m.tracer, rfl⟩ (fun _ => ⟨m.tracer, rfl⟩) rfl (fun _ => rfl) (absurd · hd)
  | noLength u f ho hlength hrun =>
    rw [hrun, hrun]
    exact .fault fun hanswers => hanswers.length u ho f hlength

theorem run_lookupConst (hsource : m.heap.Present source) (hd : ¬ m.Direct source) :
    (lookupConst H source key i).run m = (lookup H .getConst source key).run m := by
  cases source with
  | ref r =>
    obtain ⟨b, hb⟩ := hsource.body
    cases b with
    | list items => exact absurd (.inl ⟨r, items, rfl, hb⟩) hd
    | bytes data =>
      have hmodel : m.settings.textModel ≠ .byteString := fun h => hd (.inr ⟨⟨r, data, rfl, hb⟩, h⟩)
      simp [lookupConst, run_readHeap (f := (·.body r)) hb, hmodel]
    | _ => simp [lookupConst, run_readHeap (f := (·.body r)) hb]
  | _ => rfl

theorem lookupConst_same (hH : H.Blind) (hs : m.heap.Sound m.registry owned)
    (hquiet : m.pending = {}) (hsource : m.heap.Present source) (hkey : key.integer? = some i) :
    SameRead H m source key ((lookupConst H source key i).run m)
      ((lookup H .get source key).run m) := by
  by_cases hd : m.Direct source
  · obtain ⟨r, items, rfl, hb⟩ | ⟨⟨r, data, rfl, hb⟩, hmodel⟩ := hd
    · exact directItem_same hs hquiet hkey hb
    · exact directByte_same hs hquiet hkey hb hmodel
  · rw [run_lookupConst hsource hd]
    exact lookup_same hH hs hquiet hsource hkey hd

theorem run_enter {operands : List Value} (hoperands : ∀ v ∈ operands, m.heap.Present v)
    (hquiet : m.pending = {}) : (enter operands : Action υ ε Unit).run m = .done () m := by
  have hends : (enter operands : Action υ ε Unit).Ends m True (fun _ m' => m' = m)
      fun _ _ => False :=
    enter_ends (fun _ => ⟨hoperands, by rw [hquiet]; rfl⟩) fun _ _ => rfl
  obtain ⟨_, m', hr, heq⟩ | ⟨_, _, _, hfalse⟩ := hends.cases
  · rw [hr, heq]
  · exact hfalse.elim

/-- Telling the tracer of a failure changes nothing else. -/
theorem SameRead.finish {a b : Action υ Failure Value}
    (h : SameRead H m source key (a.run m) (b.run m)) (op₁ op₂ : Operation) :
    SameRead H m source key ((Machine.finish op₁ a).run m) ((Machine.finish op₂ b).run m) := by
  simp only [Machine.finish, run_handle]
  generalize a.run m = o₁ at h ⊢
  generalize b.run m = o₂ at h ⊢
  cases h with
  | done hstate => exact .done hstate
  | failed hstate hkept hexception hkind hdirect =>
    obtain ⟨tracer, rfl⟩ := hstate
    refine .failed ⟨_, rfl⟩ (fun hfree => ?_) hexception hkind hdirect
    obtain ⟨t, rfl⟩ := hkept hfree
    exact ⟨_, rfl⟩
  | fault hhost => exact .fault hhost

/-- A read with a key that is an integer, and a read at that integer known beforehand, both give the
same value or fail with the same exception, and leave the same machine but for the tracer. -/
theorem direct_read_agrees (hH : H.Blind) (hm : m.WellFormed) (hquiet : m.pending = {})
    (hsource : m.heap.Present source) (hkey : key.integer? = some i) :
    SameRead H m source key ((getItemConst H source key i).run m)
      ((getItem H source key).run m) := by
  obtain ⟨owned, hs⟩ := hm
  have hoperands : ∀ v ∈ [source, key], m.heap.Present v := by
    intro v hv
    obtain rfl | rfl : v = source ∨ v = key := by simpa using hv
    · exact hsource
    · rintro r rfl
      cases hkey
  simp only [getItemConst, getItem, run_bind, run_enter hoperands hquiet]
  exact (lookupConst_same hH hs hquiet hsource hkey).finish .getConst .get

/-- Text whose bytes there is no room for. -/
theorem direct_read_agrees_refusedByte :
    ∃ m : Machine DelegateSlot, m.WellFormed ∧ m.pending = {} ∧ m.heap.Present (.ref ⟨0⟩) ∧
      ((getItemConst (DelegateSlot.host 0) (.ref ⟨0⟩) (.bool true) 1).run m).failure?.map (·.kind) =
        some .resourceExhausted ∧
      ((getItem (DelegateSlot.host 0) (.ref ⟨0⟩) (.bool true)).run m).failure?.map (·.kind) =
        some .propagated ∧
      SameRead (DelegateSlot.host 0) m (.ref ⟨0⟩) (.bool true)
        ((getItemConst (DelegateSlot.host 0) (.ref ⟨0⟩) (.bool true) 1).run m)
        ((getItem (DelegateSlot.host 0) (.ref ⟨0⟩) (.bool true)).run m) := by
  have hrun : ((Client.follow (DelegateSlot.host 0) Client.Careful
      (.start { textModel := .byteString, limits := { allocations := some 1 } })
      [.newBytes [0x61, 0x62]]).any fun c => c.machine.pending = {} ∧ ⟨0⟩ ∈ c.owned ∧
        ((getItemConst (DelegateSlot.host 0) (.ref ⟨0⟩) (.bool true) 1).run
          c.machine).failure?.map (·.kind) = some .resourceExhausted ∧
        ((getItem (DelegateSlot.host 0) (.ref ⟨0⟩) (.bool true)).run
          c.machine).failure?.map (·.kind) = some .propagated) = true := by decide +kernel
  obtain ⟨c, hc, hquiet, howned, hconst, hgeneral⟩ := Client.exists_reached hrun
  have hs := hc.sound (DelegateSlot.host_careful 0)
  have hsource : c.machine.heap.Present (.ref ⟨0⟩) := hs.present (by rintro _ ⟨⟩; exact howned)
  have hblind : (DelegateSlot.host 0).Blind :=
    ⟨fun u _ _ _ tracer => by cases u; exact .failed ⟨tracer, rfl⟩, fun u => nomatch u⟩
  exact ⟨c.machine, ⟨c.owned, hs⟩, hquiet, hsource, hconst, hgeneral,
    direct_read_agrees hblind ⟨c.owned, hs⟩ hquiet hsource rfl⟩

end Machine

end ItemAccess
