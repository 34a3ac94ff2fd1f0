import ItemAccess.Proofs.Machine.Dicts
import ItemAccess.Proofs.Object.Position
import ItemAccess.Proofs.PendingErrors

/-!
# What accesses to a list do

A list is a sequence, and every integer can be asked for. The integers from minus the length up to the
length stand for positions, the negative ones from the end. To store at a position replaces the item
there and nothing else; to delete one takes it out, and later items move up. At all other integers there
is nothing, and nothing changes.
-/

namespace ItemAccess

open Attempt

variable {υ : SlotKind → Type} {H : Host υ} {m : Machine υ} {r : Handle} {items : List Value}
  {key v old : Value} {n : Int} {p : Nat} {owned : Multiset Handle}

/-- Integers that fit are immediate, and all others are objects. -/
theorem Heap.Sound.integral {h : Heap} {g : Registry υ} (hs : h.Sound g owned)
    (hkey : h.Integral key n) :
    (∃ i, key.integer? = some i ∧ i.toInt = n) ∨
      ¬ Position.Fits n ∧ ∃ r, key = .ref r ∧ h.body r = .ok (.bigInt n) := by
  cases hkey with
  | int i => exact .inl ⟨i, rfl, rfl⟩
  | bool b => exact .inl ⟨if b then 1 else 0, rfl, by cases b <;> rfl⟩
  | @big r n hb =>
    obtain ⟨e, he, hbody⟩ := body_eq_ok.1 hb
    have hallowed := hs.allowed r e he
    rw [hbody] at hallowed
    exact .inr ⟨Position.ofInt?_eq_none.1 hallowed, r, rfl, hb⟩

namespace Machine

/-- A container of the machine complains of an integer that does not fit. -/
theorem run_ownIndex_of_not_fits (hs : m.heap.Sound m.registry owned) (hn : ¬ Position.Fits n)
    (hb : m.heap.body r = .ok (.bigInt n)) (u : IndexUse) :
    (ownIndex H u (.ref r)).run m = .failed {} { m with pending := ⟨some (.withMessage .indexError
      "cannot fit 'int' into an index-sized integer")⟩ } := by
  have hid : m.heap.typeOf (.ref r) = .ok BuiltinKind.int.typeId := Heap.typeOf_ref hb
  obtain ⟨model, ht⟩ := hs.built.get? .int
  obtain ⟨lost, haccounted⟩ := hs.accounted
  obtain ⟨h', hretain⟩ := (Heap.present_of_typeOf hid).retain
  have hcall : (callAsIndex H (.builtin .intAsIndex) (.ref r)).run m =
      .done (.ref r) { m with heap := h' } := by
    simp [callAsIndex, intAsIndex, run_readHeap (f := (·.body r)) hb, run_retain hretain]
  have hintegral : h'.Integral (.ref r) n := .big (by rw [Heap.body_retain hretain, hb])
  have hlarge : n < Int64.minValue.toInt ∨ Int64.maxValue.toInt < n := by
    unfold Position.Fits at hn
    omega
  have hno : NoIndex H m (.ref r) BuiltinKind.int.typeId
      (.ofSpec (some .int) (BuiltinKind.int.spec model)) _ _ :=
    .tooLarge rfl hcall hintegral hlarge ht (Heap.release_retain haccounted hretain)
  exact run_ownIndex_failed (hno.run_toIndex hid ht) hid ht rfl u

end Machine

namespace Machine

variable {i : Int64}

theorem run_listItems {ε : Type} (hb : m.heap.body r = .ok (.list items)) :
    (listItems (.ref r) : Action υ ε (List Value)).run m = .done items m :=
  run_part hb rfl

theorem run_listToChange {ε : Type} (hb : m.heap.body r = .ok (.list items)) :
    (listToChange (.ref r) : Action υ ε (Handle × List Value)).run m = .done (r, items) m := by
  obtain ⟨e, he, hbody⟩ := Heap.body_eq_ok.1 hb
  have hentry : m.heap.entry .change r = .ok e := Heap.entry_eq_ok.2 he
  simp [listToChange, partToChange, run_readHeap (f := (·.entry .change r)) hentry, hbody, Body.list?]

/-- Storing at a position. The value may be the list itself, or what is there already. -/
theorem run_storeItem (hs : m.heap.Sound m.registry owned) (hr : r ∈ owned) (hv : v.Within owned)
    (hb : m.heap.body r = .ok (.list items)) (hold : items[p]? = some old) :
    ∃ h', (storeItem (.ref r) p v : SlotAction υ Unit).run m = .done () { m with heap := h' } ∧
      m.heap.Updated r (.list (items.set p v)) [old] h' := by
  obtain ⟨h₁, hretain⟩ := (hs.present hv).retain
  have hs₀ : m.heap.Sound m.registry (owned + 0) := by rwa [add_zero]
  have hmoves : Heap.Moves m.registry (fun _ => False) (m.heap, 0) (h₁, v.handles) :=
    Heap.retain_moves _ hretain
  have hs₁ := hs₀.moves hmoves
  have hb₁ : h₁.body r = .ok (.list items) := by rw [Heap.body_retain hretain, hb]
  have hledger : handles (Body.list (items.set p v)).children + handles [old] =
      handles (Body.list items).children + v.handles := by
    rw [handles_cons, handles_nil, add_zero]
    exact handles_set hold v
  obtain ⟨h₂, h₃, hset, hb₂, hrelease, -, hb₃⟩ := hs₁.update hr hb₁ (.list _ _) hledger
  refine ⟨h₃, ?_, hb₃, h₂, h₃, hb₂, fun x hx => ?_, hrelease, fun _ _ => rfl⟩
  · simp [storeItem, run_retain hretain, run_listToChange (m := { m with heap := h₁ }) hb₁,
      atPosition_eq_ok.2 hold, changeHeap, hset, release, Heap.release, hrelease]
  · rw [Heap.contents?_setBody hset hx, Heap.contents?_retain hretain]

theorem run_listGet_of_inRange (hs : m.heap.Sound m.registry owned) (hkey : key.integer? = some i)
    (hi : Position.InRange i.toInt items.length) (hb : m.heap.body r = .ok (.list items))
    (hv : items[Position.ofInteger i.toInt items.length]? = some v) :
    ∃ h', (listGet H (.ref r) key).run m = .done v { m with heap := h' } ∧
      m.heap.retain v = .ok h' := by
  have hmem : v ∈ (Body.list items).children := List.mem_of_getElem? hv
  obtain ⟨h', hretain⟩ := (hs.child hb hmem).retain
  refine ⟨h', ?_, hretain⟩
  rw [run_listGet hs.built hkey hb, Position.checked_of_inRange hi]
  simp [itemAt, atPosition_eq_ok.2 hv, run_retain hretain]

theorem run_listSet_of_inRange (hs : m.heap.Sound m.registry owned) (hr : r ∈ owned)
    (hv : v.Within owned) (hkey : key.integer? = some i)
    (hi : Position.InRange i.toInt items.length) (hb : m.heap.body r = .ok (.list items))
    (hold : items[Position.ofInteger i.toInt items.length]? = some old) :
    ∃ h', (listSet H (.ref r) key v).run m = .done () { m with heap := h' } ∧
      m.heap.Updated r (.list (items.set (Position.ofInteger i.toInt items.length) v)) [old] h' := by
  obtain ⟨h', hrun, hu⟩ := run_storeItem hs hr hv hb hold
  refine ⟨h', ?_, hu⟩
  simp [listSet, run_ownIndex hs.built hkey, run_listItems hb, Position.checked_of_inRange hi, hrun]

theorem run_listDel_of_inRange (hs : m.heap.Sound m.registry owned) (hr : r ∈ owned)
    (hkey : key.integer? = some i) (hi : Position.InRange i.toInt items.length)
    (hb : m.heap.body r = .ok (.list items))
    (hold : items[Position.ofInteger i.toInt items.length]? = some old) :
    ∃ h', (listDel H (.ref r) key).run m = .done () { m with heap := h' } ∧
      m.heap.Updated r (.list (items.eraseIdx (Position.ofInteger i.toInt items.length))) [old] h' := by
  have hs₀ : m.heap.Sound m.registry (owned + 0) := by rwa [add_zero]
  have hledger : handles (Body.list (items.eraseIdx (Position.ofInteger i.toInt items.length))).children +
      handles [old] = handles (Body.list items).children + 0 := by
    rw [handles_cons, handles_nil, add_zero, add_zero]
    exact handles_eraseIdx hold
  obtain ⟨h₁, h₂, hset, hb₁, hrelease, hs₂, hb₂⟩ := hs₀.update hr hb (.list _ _) hledger
  have hpresent : h₂.Present (.ref r) := hs₂.present fun r' hr' => by cases hr'; exact hr
  obtain ⟨h₃, hshrink⟩ := hpresent.shrink Body.itemSize
  refine ⟨h₃, ?_, ?_, h₁, h₂, hb₁, fun x hx => Heap.contents?_setBody hset hx, hrelease,
    fun x hx => Heap.contents?_shrink hshrink hx⟩
  · simp [listDel, removeItem, run_ownIndex hs.built hkey, run_listItems hb,
      Position.checked_of_inRange hi, run_listToChange hb, removalAt_eq_ok.2 hold, changeHeap, hset,
      release, Heap.release, hrelease, hshrink]
  · have hs₂' : h₂.Sound m.registry (owned + 0) := by rwa [add_zero]
    exact hs₂'.stays (Heap.shrink_moves m.registry hshrink) hr hb₂

end Machine

namespace Request

variable {q : Request υ}

/-- The accesses to `target` with the integer `n` for an index. A read at an index known beforehand is
given the integer as it is. -/
inductive Indexed (h : Heap) (target : Value) (n : Int) : Request υ → Prop
  | get {key : Value} (hkey : h.Integral key n) : Indexed h target n (.get target key)
  | getConst {i : Int64} (key : Value) (hi : i.toInt = n) :
    Indexed h target n (.getConst target key i)
  | set {key : Value} (v : Value) (hkey : h.Integral key n) : Indexed h target n (.set v target key)
  | del {key : Value} (hkey : h.Integral key n) : Indexed h target n (.del target key)

theorem Indexed.access {h : Heap} {target : Value} (hq : q.Indexed h target n) :
    ∃ key jobs, q.Access target key jobs := by
  cases hq with
  | get => exact ⟨_, _, .get⟩
  | @getConst i key => exact ⟨_, _, .getConst i⟩
  | set v => exact ⟨_, _, .set v⟩
  | del => exact ⟨_, _, .del⟩

/-- What an access does to a sequence. An integer that does not fit stands for no position, unless
there are more items than indices can count. -/
def onSequence (items : List Value) (n : Int) (q : Request υ) : List Value :=
  if Position.InRange n items.length ∧ Position.Fits n then
    match q with
    | set v _ _ => items.set (Position.ofInteger n items.length) v
    | del _ _ => items.eraseIdx (Position.ofInteger n items.length)
    | _ => items
  else items

/-- How an access to a list with the given items ends, if it has the integer `n` for an index. Apart
from the tracer, which is told of it, it changes what is stated and nothing else. -/
inductive ListAnswer (m : Machine υ) (r : Handle) (items : List Value) (n : Int) :
    Request υ → Outcome (Machine υ) Failure (List Value) → Prop
  | found {q : Request υ} {v : Value} {h' : Heap} {tracer : Tracer} (hq : q.changed = [])
    (hn : Position.InRange n items.length ∧ Position.Fits n)
    (hv : items[Position.ofInteger n items.length]? = some v) (hr : m.heap.retain v = .ok h') :
    ListAnswer m r items n q (.done [v] { m with heap := h', tracer := tracer })
  | stored {key v old : Value} {h' : Heap} {tracer : Tracer}
    (hn : Position.InRange n items.length ∧ Position.Fits n)
    (hold : items[Position.ofInteger n items.length]? = some old)
    (hu : m.heap.Updated r (.list (items.set (Position.ofInteger n items.length) v)) [old] h') :
    ListAnswer m r items n (.set v (.ref r) key) (.done [] { m with heap := h', tracer := tracer })
  | deleted {key old : Value} {h' : Heap} {tracer : Tracer}
    (hn : Position.InRange n items.length ∧ Position.Fits n)
    (hold : items[Position.ofInteger n items.length]? = some old)
    (hu : m.heap.Updated r (.list (items.eraseIdx (Position.ofInteger n items.length))) [old] h') :
    ListAnswer m r items n (.del (.ref r) key) (.done [] { m with heap := h', tracer := tracer })
  | missing {key : Value} {tracer : Tracer} (hn : ¬ Position.InRange n items.length)
    (hfits : Position.Fits n) :
    ListAnswer m r items n (.get (.ref r) key) (.failed
      ⟨.propagated, .withMessage .indexError "list index out of range"⟩ { m with tracer := tracer })
  | missingConst {key : Value} {i : Int64} {tracer : Tracer}
    (hn : ¬ Position.InRange n items.length) (hfits : Position.Fits n) :
    ListAnswer m r items n (.getConst (.ref r) key i) (.failed
      ⟨.indexOutOfRange, .withMessage .indexError "list index out of range"⟩
      { m with tracer := tracer })
  | missingToChange {q : Request υ} {tracer : Tracer} (hq : q.changed = [.ref r])
    (hn : ¬ Position.InRange n items.length) (hfits : Position.Fits n) :
    ListAnswer m r items n q (.failed
      ⟨.propagated, .withMessage .indexError "list assignment index out of range"⟩
      { m with tracer := tracer })
  /-- An integer that does not fit stands for no position, unless there are more items than indices can
  count. -/
  | tooLarge {q : Request υ} {tracer : Tracer} (hfits : ¬ Position.Fits n)
    (hn : ¬ Position.InRange n items.length ∨ Int64.maxValue.toInt < items.length) :
    ListAnswer m r items n q (.failed
      ⟨.propagated, .withMessage .indexError "cannot fit 'int' into an index-sized integer"⟩
      { m with tracer := tracer })

def listSlot (H : Host υ) : Request υ → SlotAction υ (List Value)
  | get obj key => (fun v => [v]) <$> Machine.listGet H obj key
  | set v obj key => (fun _ => []) <$> Machine.listSet H obj key v
  | del obj key => (fun _ => []) <$> Machine.listDel H obj key
  | _ => pure []

inductive ThroughList (r : Handle) (key : Value) : Request υ → Prop
  | get : ThroughList r key (.get (.ref r) key)
  | set (v : Value) : ThroughList r key (.set v (.ref r) key)
  | del : ThroughList r key (.del (.ref r) key)

theorem ThroughList.run_perform (hq : q.ThroughList r key) (hs : m.heap.Sound m.registry owned)
    (hb : m.heap.body r = .ok (.list items)) (hlive : ∀ v ∈ q.borrowed, m.heap.Present v)
    (hquiet : m.pending = {}) :
    ∃ op tracer, (q.perform H).run m =
      ((Machine.settle (q.listSlot H)).run { m with tracer := tracer }).told op := by
  have hid : m.heap.typeOf (.ref r) = .ok BuiltinKind.list.typeId := Heap.typeOf_ref hb
  obtain ⟨model, ht⟩ := hs.built.get? .list
  have hkey : m.heap.Present key := hlive key (by cases hq <;> simp [borrowed])
  obtain ⟨kid, kt, hkid, hkt⟩ := Machine.Typed.of_sound hs hkey
  have hperform {m₀ : Machine υ} (hcall : q.Calls H m _ (.ref r) key _ kt (q.listSlot H) m₀) :=
    hcall.run_told hid ht hkid hkt hlive hquiet
  cases hq with
  | get =>
    have hrun := hperform (.read .get (.byKey rfl (Machine.run_noteDispatch .get .mapping ht)))
    exact ⟨_, _, hrun⟩
  | set v =>
    have hrun := hperform (.store (.byKey rfl (Machine.run_noteDispatch .set .mapping ht)))
    exact ⟨_, _, hrun⟩
  | del =>
    have hrun := hperform (.delete (s := .builtin .listDel) rfl)
    exact ⟨_, _, hrun⟩

/-- A slot of a list complains of an index that does not fit before it looks at the list. -/
theorem ThroughList.tooLarge {s : Handle} {tracer : Tracer} (hq : q.ThroughList r (.ref s))
    (hs : m.heap.Sound m.registry owned) (hn : ¬ Position.Fits n)
    (hb : m.heap.body s = .ok (.bigInt n)) (hquiet : m.pending = {}) (told : Operation) :
    q.ListAnswer m r items n
      (((Machine.settle (q.listSlot H)).run { m with tracer := tracer }).told told) := by
  have hown := Machine.run_ownIndex_of_not_fits (H := H) (m := { m with tracer := tracer }) hs hn hb
    .list
  have hslot : (q.listSlot H).run { m with tracer := tracer } = .failed {}
      { m with
        tracer := tracer
        pending := ⟨some (.withMessage .indexError
          "cannot fit 'int' into an index-sized integer")⟩ } := by
    cases hq <;> simp [listSlot, Machine.listGet, Machine.listSet, Machine.listDel, hown]
  rw [Machine.run_settle_failed hslot (.left _), ← hquiet]
  exact .tooLarge hn (Position.not_inRange_of_not_fits hn _)

/-- A slot of a list complains of an index that stands for no position. -/
theorem ThroughList.outOfRange {i : Int64} {tracer : Tracer} (hq : q.ThroughList r key)
    (hs : m.heap.Sound m.registry owned) (hkey : key.integer? = some i)
    (hb : m.heap.body r = .ok (.list items)) (hi : ¬ Position.InRange i.toInt items.length)
    (hquiet : m.pending = {}) (told : Operation) :
    q.ListAnswer m r items i.toInt
      (((Machine.settle (q.listSlot H)).run { m with tracer := tracer }).told told) := by
  have hown (u : IndexUse) := Machine.run_ownIndex (H := H) (m := { m with tracer := tracer })
    hs.built hkey u
  have hitems := Machine.run_listItems (m := { m with tracer := tracer }) (ε := Raised) hb
  have hnone := Position.checked_of_not_inRange hi
  have hfits := Position.fits_toInt i
  have hslot (u : IndexUse) (hrun : (q.listSlot H).run { m with tracer := tracer } = .failed {}
        { m with tracer := tracer, pending := ⟨some (.withMessage .indexError u.message)⟩ }) :
      (Machine.settle (q.listSlot H)).run { m with tracer := tracer } =
        .failed ⟨.propagated, .withMessage .indexError u.message⟩ { m with tracer := tracer } := by
    rw [Machine.run_settle_failed hrun (.left _), ← hquiet]
  cases hq with
  | get =>
    rw [hslot .list (by simp [listSlot, Machine.listGet, hown, hitems, hnone, Machine.itemAt]; rfl)]
    exact .missing hi hfits
  | set v =>
    rw [hslot .listAssignment (by simp [listSlot, Machine.listSet, hown, hitems, hnone]; rfl)]
    exact .missingToChange rfl hi hfits
  | del =>
    rw [hslot .listAssignment (by simp [listSlot, Machine.listDel, hown, hitems, hnone]; rfl)]
    exact .missingToChange rfl hi hfits

/-- A slot of a list finds the item that an index stands for. -/
theorem ThroughList.inRange {i : Int64} {tracer : Tracer} (hq : q.ThroughList r key)
    (hs : m.heap.Sound m.registry owned) (hr : r ∈ owned)
    (hborrowed : ∀ v ∈ q.borrowed, v.Within owned) (hkey : key.integer? = some i)
    (hb : m.heap.body r = .ok (.list items)) (hi : Position.InRange i.toInt items.length)
    (told : Operation) :
    q.ListAnswer m r items i.toInt
      (((Machine.settle (q.listSlot H)).run { m with tracer := tracer }).told told) := by
  obtain ⟨old, hold⟩ : ∃ old, items[Position.ofInteger i.toInt items.length]? = some old :=
    ⟨_, List.getElem?_eq_getElem (Position.ofInteger_lt hi)⟩
  cases hq with
  | get =>
    obtain ⟨h', hrun, hretain⟩ := Machine.run_listGet_of_inRange (H := H)
      (m := { m with tracer := tracer }) hs hkey hi hb hold
    have hslot : ((Request.get (.ref r) key).listSlot H).run { m with tracer := tracer } =
        .done [old] { m with tracer := tracer, heap := h' } := by
      rw [listSlot, run_map, hrun]
    rw [Machine.run_settle_done hslot]
    exact .found rfl ⟨hi, Position.fits_toInt i⟩ hold hretain
  | set v =>
    obtain ⟨h', hrun, hu⟩ := Machine.run_listSet_of_inRange (H := H)
      (m := { m with tracer := tracer }) hs hr (hborrowed v (by simp [borrowed])) hkey hi hb hold
    have hslot : ((Request.set v (.ref r) key).listSlot H).run { m with tracer := tracer } =
        .done [] { m with tracer := tracer, heap := h' } := by
      rw [listSlot, run_map, hrun]
    rw [Machine.run_settle_done hslot]
    exact .stored ⟨hi, Position.fits_toInt i⟩ hold hu
  | del =>
    obtain ⟨h', hrun, hu⟩ := Machine.run_listDel_of_inRange (H := H)
      (m := { m with tracer := tracer }) hs hr hkey hi hb hold
    have hslot : ((Request.del (.ref r) key).listSlot H).run { m with tracer := tracer } =
        .done [] { m with tracer := tracer, heap := h' } := by
      rw [listSlot, run_map, hrun]
    rw [Machine.run_settle_done hslot]
    exact .deleted ⟨hi, Position.fits_toInt i⟩ hold hu

/-- An access to a list through a slot. -/
theorem ThroughList.listAnswer (hq : q.ThroughList r key) (hs : m.heap.Sound m.registry owned)
    (hborrowed : ∀ v ∈ q.borrowed, v.Within owned) (hquiet : m.pending = {})
    (hkey : m.heap.Integral key n) (hb : m.heap.body r = .ok (.list items)) :
    q.ListAnswer m r items n ((q.perform H).run m) := by
  have hr : r ∈ owned := hborrowed (.ref r) (by cases hq <;> simp [borrowed]) r rfl
  obtain ⟨op, tracer, hrun⟩ :=
    hq.run_perform (H := H) hs hb (fun v hv => hs.present (hborrowed v hv)) hquiet
  rw [hrun]
  obtain ⟨i, hi, rfl⟩ | ⟨hn, s, rfl, hbig⟩ := hs.integral hkey
  · by_cases hrange : Position.InRange i.toInt items.length
    · exact hq.inRange hs hr hborrowed hi hb hrange op
    · exact hq.outOfRange hs hi hb hrange hquiet op
  · exact hq.tooLarge hs hn hbig hquiet op

/-- A read of a list at an index known beforehand needs no slot. -/
theorem listAnswer_getConst {i : Int64} (hs : m.heap.Sound m.registry owned)
    (hkey : m.heap.Present key) (hquiet : m.pending = {}) (hb : m.heap.body r = .ok (.list items)) :
    (getConst (.ref r) key i).ListAnswer m r items i.toInt
      (((getConst (.ref r) key i).perform H).run m) := by
  have hlist : m.heap.Present (.ref r) := Heap.present_of_typeOf (Heap.typeOf_ref hb)
  have henter : (Machine.enter [.ref r, key] : Action υ Failure Unit).run m = .done () m :=
    Machine.run_enter (by simp [hlist, hkey]) hquiet
  have hdirect : (Machine.getItemConst H (.ref r) key i).run m =
      ((Machine.directItem items i).run m).told .getConst := by
    simp [Machine.getItemConst, henter, Machine.run_finish, Machine.lookupConst,
      Machine.run_readHeap (f := (·.body r)) hb]
  by_cases hi : Position.InRange i.toInt items.length
  · obtain ⟨v, hv⟩ : ∃ v, items[Position.ofInteger i.toInt items.length]? = some v :=
      ⟨_, List.getElem?_eq_getElem (Position.ofInteger_lt hi)⟩
    have hmem : v ∈ (Body.list items).children := List.mem_of_getElem? hv
    obtain ⟨h', hretain⟩ := (hs.child hb hmem).retain
    have hrun : ((getConst (.ref r) key i).perform H).run m = .done [v]
        { m with
          heap := h'
          tracer := m.tracer.note (.direct .list (Position.ofInteger i.toInt items.length)) } := by
      rw [perform, run_bind, hdirect]
      simp [Machine.directItem, Position.checked_of_inRange hi, Machine.atPosition_eq_ok.2 hv,
        Machine.run_retain hretain, Machine.note, Outcome.told]
    rw [hrun]
    exact .found rfl ⟨hi, Position.fits_toInt i⟩ hv hretain
  · have hrun : ((getConst (.ref r) key i).perform H).run m =
        .failed (.ofComplaint (.outOfRange .list)) { m with
          tracer := m.tracer.note (.failure .getConst (.ofComplaint (.outOfRange .list))) } := by
      rw [perform, run_bind, hdirect]
      simp [Machine.directItem, Position.checked_of_not_inRange hi, Machine.refuse, Outcome.told]
    rw [hrun]
    exact .missingConst hi (Position.fits_toInt i)

/-- An access to a list by one who owns the operands. -/
theorem Indexed.listAnswer (hq : q.Indexed m.heap (.ref r) n) (hs : m.heap.Sound m.registry owned)
    (hborrowed : ∀ v ∈ q.borrowed, v.Within owned) (hquiet : m.pending = {})
    (hb : m.heap.body r = .ok (.list items)) :
    q.ListAnswer m r items n ((q.perform H).run m) := by
  cases hq with
  | @get key hkey => exact ThroughList.get.listAnswer hs hborrowed hquiet hkey hb
  | @getConst i key hi =>
    subst hi
    exact listAnswer_getConst hs (hs.present (hborrowed key (by simp [borrowed]))) hquiet hb
  | @set key v hkey => exact (ThroughList.set v).listAnswer hs hborrowed hquiet hkey hb
  | @del key hkey => exact ThroughList.del.listAnswer hs hborrowed hquiet hkey hb

/-- What a list holds after an access. -/
theorem ListAnswer.heap {o : Outcome (Machine υ) Failure (List Value)}
    (ha : q.ListAnswer m r items n o) (hb : m.heap.body r = .ok (.list items)) :
    ∃ h' tracer, ((∃ vs, o = .done vs { m with heap := h', tracer := tracer }) ∨
        ∃ f, o = .failed f { m with heap := h', tracer := tracer }) ∧
      h'.body r = .ok (.list (q.onSequence items n)) ∧
      ∀ x, x ≠ r → h'.contents? x = m.heap.contents? x ∨ h'.lookup? x = none := by
  have hfailed (hn : ¬ (Position.InRange n items.length ∧ Position.Fits n)) :
      m.heap.body r = .ok (.list (q.onSequence items n)) := by
    unfold onSequence
    rw [hb, if_neg hn]
  cases ha with
  | @found _ v h' tracer hq hn _ hr =>
    refine ⟨h', tracer, .inl ⟨_, rfl⟩, ?_, fun x _ => .inl (Heap.contents?_retain hr x)⟩
    unfold onSequence
    rw [Heap.body_retain hr, hb, if_pos hn]
    cases q <;> first | rfl | cases hq
  | @stored key v old h' tracer hn _ hu =>
    refine ⟨h', tracer, .inl ⟨_, rfl⟩, ?_, fun x hx => hu.others hx⟩
    rw [hu.contents, onSequence, if_pos hn]
  | @deleted key old h' tracer hn _ hu =>
    refine ⟨h', tracer, .inl ⟨_, rfl⟩, ?_, fun x hx => hu.others hx⟩
    rw [hu.contents, onSequence, if_pos hn]
  | missing hn hfits | missingConst hn hfits | missingToChange _ hn hfits =>
    exact ⟨m.heap, _, .inr ⟨_, rfl⟩, hfailed fun h => hn h.1, fun _ _ => .inl rfl⟩
  | tooLarge hfits hn =>
    exact ⟨m.heap, _, .inr ⟨_, rfl⟩, hfailed fun h => hfits h.2, fun _ _ => .inl rfl⟩

end Request

end ItemAccess
