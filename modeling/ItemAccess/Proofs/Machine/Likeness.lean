import ItemAccess.Machine.Access
import ItemAccess.Machine.Build
import ItemAccess.Proofs.Machine.Text
import ItemAccess.Proofs.Relates
import ItemAccess.Proofs.Store.Retype

/-!
# Machines that are alike

A likeness relates machines in which an access can find out the same, up to the numbers of types. A
computation keeps the likeness if it ends alike in machines that are alike. A lawful likeness is kept by the
operations that change the store and by what is left pending; then every slot of the machine keeps it, and
if the slots of the host do as well, so does every access. An invariant of a single machine is a likeness
of the machine and itself.
-/

namespace ItemAccess

open Attempt Machine

variable {υ : SlotKind → Type} {α β ε : Type}

def TypeObject.Plain (plain : (k : SlotKind) → υ k → Prop) (t : TypeObject υ) : Prop :=
  ∀ k u, t.slot? k = some (.host u) → plain k u

/-- The machines are `calm` unless a slot has just failed; then they are `raised`. The type `id` of the
first machine has the number `number id` in the second, and the slots that types have from the host are
`plain`. -/
structure Likeness (υ : SlotKind → Type) where
  calm : Machine υ → Machine υ → Prop
  raised : Machine υ → Machine υ → Prop
  number : TypeId → TypeId
  faults : Fault → Fault → Prop
  plain : (k : SlotKind) → υ k → Prop

namespace Likeness

variable {L : Likeness υ} {S : Machine υ → Machine υ → Prop}

def Ends (L : Likeness υ) (S : Machine υ → Machine υ → Prop) (P : α → α → Prop) (a b : Action υ ε α) :
    Prop :=
  a.Relates L.faults L.calm L.calm S P b

def Keeps (L : Likeness υ) (S : Machine υ → Machine υ → Prop) (a : Action υ ε α) : Prop :=
  L.Ends S Eq a a

namespace Keeps

variable {a b : Action υ ε α}

theorem pure (x : α) : L.Keeps S (pure x : Action υ ε α) :=
  Relates.pure rfl

theorem throw (e : ε) : L.Keeps L.calm (throw e : Action υ ε α) :=
  Relates.throw e

theorem bind {next : α → Action υ ε β} (ha : L.Keeps S a) (hnext : ∀ x, L.Keeps S (next x)) :
    L.Keeps S (a >>= next) := by
  apply Relates.bind ha
  rintro x _ rfl
  exact hnext x

theorem map (f : α → β) (ha : L.Keeps S a) : L.Keeps S (f <$> a) :=
  ha.bind fun x => .pure (f x)

theorem ite {p : Prop} [Decidable p] (ha : L.Keeps S a) (hb : L.Keeps S b) :
    L.Keeps S (if p then a else b) :=
  Relates.ite ha hb

theorem mapM {f : β → Action υ ε α} (hf : ∀ x, L.Keeps S (f x)) (l : List β) : L.Keeps S (l.mapM f) :=
  Relates.mapM l hf

end Keeps

/-- What the accesses read is the same in machines that are alike, and so is what they leave pending. -/
structure Reads (L : Likeness υ) : Prop where
  refl : ∀ f, L.faults f f
  builtin : ∀ k : BuiltinKind, L.number k.typeId = k.typeId
  heap : ∀ {m m'}, L.calm m m' → m'.heap = m.heap.retype L.number
  types : ∀ {m m'}, L.calm m m' → ∀ id, m'.registry.get? (L.number id) = m.registry.get? id
  noType : ∀ {m m'}, L.calm m m' → ∀ id, L.faults (.outOfBounds m.registry.types.length id.index)
    (.outOfBounds m'.registry.types.length (L.number id).index)
  plain : ∀ {m m'}, L.calm m m' → ∀ id t, m.registry.get? id = some t → t.Plain L.plain
  textModel : ∀ {m m'}, L.calm m m' → m'.settings.textModel = m.settings.textModel
  isSet : ∀ {m m'}, L.calm m m' → m'.pending.isSet = m.pending.isSet
  record : ∀ {m m'} (e : Exception), L.calm m m' →
    L.raised { m with pending := m.pending.record e } { m' with pending := m'.pending.record e }
  settle : ∀ {m m'}, L.raised m m' → m'.pending = m.pending ∧
    L.calm { m with pending := m.pending.settle.2 } { m' with pending := m'.pending.settle.2 }

namespace Reads

variable (hL : L.Reads)

include hL

theorem fault (f : Fault) : L.Keeps S (Attempt.fault f : Action υ ε α) :=
  Relates.fault (hL.refl f)

theorem lift (x : Except Fault α) : L.Keeps S (liftM x : Action υ ε α) :=
  Relates.lift hL.refl (fun _ => rfl) x

/-- What is read from the store may differ by the numbers of types. -/
theorem readHeap {f : Heap → Except Fault α} {φ : α → α}
    (hf : ∀ h : Heap, f (h.retype L.number) = (f h).map φ) :
    L.Ends S (fun x y => y = φ x) (readHeap f : Action υ ε α) (readHeap f) := by
  apply Relates.ask
  intro m m' hm
  rw [hL.heap hm, hf]
  cases f m.heap with
  | ok x => exact .done rfl hm
  | error e => exact .fault (hL.refl e)

theorem readBody (r : Handle) : L.Ends S (fun b b' => b' = b.retype L.number)
    (Machine.readHeap (·.body r) : Action υ ε Body) (Machine.readHeap (·.body r)) :=
  hL.readHeap fun h => h.body_retype r

theorem typeOf (v : Value) :
    L.Ends S (fun id id' => id' = L.number id) (typeOf v : Action υ ε TypeId) (Machine.typeOf v) :=
  hL.readHeap fun h => h.typeOf_retype hL.builtin v

theorem typeObject (id : TypeId) : L.Ends S (fun t t' => t' = t ∧ t.Plain L.plain)
    (typeObject id : Action υ ε (TypeObject υ)) (Machine.typeObject (L.number id)) := by
  apply Relates.ask
  intro m m' hm
  rw [hL.types hm]
  cases ht : m.registry.get? id with
  | none => exact .fault (hL.noType hm id)
  | some t => exact .done ⟨rfl, hL.plain hm id t ht⟩ hm

theorem typeName (id : TypeId) :
    L.Ends S Eq (typeName id : Action υ ε String) (Machine.typeName (L.number id)) := by
  apply Relates.map (hL.typeObject id)
  rintro _ t ⟨rfl, -⟩
  rfl

theorem nameOfType (v : Value) : L.Keeps S (nameOfType v : Action υ ε String) := by
  apply Relates.bind (hL.typeOf v)
  rintro id _ rfl
  exact hL.typeName id

theorem raise (e : Exception) : L.Keeps L.raised (raise e : SlotAction υ α) :=
  fun _ _ hm => .failed _ (hL.record e hm)

theorem complain (c : Complaint) : L.Keeps L.raised (complain c : SlotAction υ α) :=
  hL.raise c.exception

theorem settled {a : SlotAction υ α} (ha : L.Keeps L.raised a) : L.Keeps L.calm (Machine.settle a) := by
  apply Relates.handle ha
  intro _ m m' hm
  obtain ⟨hpending, hcalm⟩ := hL.settle hm
  simp only [takePending, run_bind, run_get, run_set, run_throw]
  -- the same is pending in both machines, so the same failure is taken
  rw [hpending] at hcalm ⊢
  exact .failed _ hcalm

theorem passOn {a : Action υ Failure α} (ha : L.Keeps L.calm a) : L.Keeps L.raised (passOn a) :=
  Relates.handle ha fun f => hL.raise f.exception

theorem textWithin (depth : Nat) (enclosing : List Handle) (v : Value) :
    L.Keeps S (textWithin depth enclosing v : Action υ ε String) := by
  induction depth generalizing enclosing v with
  | zero => exact hL.fault _
  | succ depth ih =>
    cases v with
    | ref r =>
      apply Relates.bind (hL.readBody r)
      rintro b _ rfl
      cases b with
      | bytes data =>
        apply Relates.ask
        intro m m' hm
        rw [hL.textModel hm]
        exact .done rfl hm
      | bigInt n => exact Keeps.pure _
      | inst type fields =>
        apply Relates.bind (hL.typeName type)
        rintro name _ rfl
        exact Keeps.pure _
      | list items => exact Keeps.ite (.pure _) (.bind (.mapM (ih _) items) fun _ => .pure _)
      | tuple items => exact Keeps.ite (.pure _) (.bind (.mapM (ih _) items) fun _ => .pure _)
      | dict entries =>
        refine Keeps.ite (.pure _) (.bind (.mapM (fun e => ?_) entries) fun _ => .pure _)
        exact (ih _ e.key).bind fun _ => (ih _ e.value).bind fun _ => .pure _
    | bool b => cases b <;> exact Keeps.pure _
    | _ => exact Keeps.pure _

theorem textOf (v : Value) : L.Keeps S (textOf v : Action υ ε String) := by
  rw [textOf_eq]
  apply Relates.ask
  intro m m' hm
  rw [hL.heap hm, Heap.size_retype]
  exact hL.textWithin _ _ v m m' hm

theorem part (c : Container) {part? : Body → Option α}
    (hpart : ∀ b : Body, part? (b.retype L.number) = part? b) (obj : Value) :
    L.Keeps S (part c part? obj : Action υ ε α) := by
  cases obj with
  | ref r =>
    apply Relates.bind (hL.readBody r)
    rintro b _ rfl
    rw [hpart]
    cases part? b with
    | some a => exact Keeps.pure a
    | none => exact hL.fault _
  | _ => exact hL.fault _

theorem partToChange (c : Container) {part? : Body → Option α}
    (hpart : ∀ b : Body, part? (b.retype L.number) = part? b) (obj : Value) :
    L.Keeps S (partToChange c part? obj : Action υ ε (Handle × α)) := by
  cases obj with
  | ref r =>
    apply Relates.bind (hL.readHeap fun h => h.entry_retype .change r)
    rintro e _ rfl
    simp only [Entry.retype, hpart]
    cases part? e.body with
    | some a => exact Keeps.pure (r, a)
    | none => exact hL.fault _
  | _ => exact hL.fault _

/-- What keeps a value from having a key is a list or a dict, whose numbers are the same. -/
theorem hashKey (key : Value) : L.Keeps L.raised (hashKey key : SlotAction υ Key) := by
  have hread : L.Ends L.raised (fun x y => y = x ∧ ∀ id, x = .error id → L.number id = id)
      (Machine.readHeap fun h => (h.hash key).run : SlotAction υ (Except TypeId Key))
      (Machine.readHeap fun h => (h.hash key).run) := by
    apply Relates.ask
    intro m m' hm
    dsimp only
    rw [hL.heap hm, Heap.hash_retype]
    cases hx : (m.heap.hash key).run with
    | error f => exact .fault (hL.refl f)
    | ok x =>
      refine .done ⟨rfl, ?_⟩ hm
      rintro id rfl
      obtain rfl | rfl := Heap.hashWithin_error hx
      · exact hL.builtin .list
      · exact hL.builtin .dict
  apply Relates.bind hread
  rintro _ x ⟨rfl, hid⟩
  cases x with
  | ok k => exact Keeps.pure k
  | error id =>
    have hname := hL.typeName (S := L.raised) (ε := Raised) id
    rw [hid id rfl] at hname
    exact Keeps.bind hname fun _ => hL.complain _

theorem isIndexLike (key : Value) : L.Keeps S (isIndexLike key : Action υ ε Bool) := by
  apply Relates.bind (hL.typeOf key)
  rintro id _ rfl
  apply Relates.bind (hL.typeObject id)
  rintro _ t ⟨rfl, -⟩
  exact Keeps.pure _

theorem nativeIndex (v : Value) : L.Keeps S (nativeIndex v : Action υ ε NativeIndex) := by
  cases v with
  | ref r =>
    apply Relates.bind (hL.readBody r)
    rintro b _ rfl
    cases b <;> exact Keeps.pure _
  | _ => exact Keeps.pure _

theorem bytesOf (v : Value) : L.Keeps S (bytesOf v : Action υ ε (Option (List UInt8))) := by
  cases v with
  | ref r =>
    apply Relates.bind (hL.readBody r)
    rintro b _ rfl
    rw [Body.bytes?_retype]
    exact Keeps.pure _
  | _ => exact Keeps.pure _

theorem enter (operands : List Value) : L.Keeps S (enter operands : Action υ ε Unit) := by
  apply Relates.ask
  intro m m' hm
  simp only [hL.heap hm, Heap.isLive_retype, hL.isSet hm]
  split
  · exact .fault (hL.refl _)
  · split
    · exact .fault (hL.refl _)
    · exact .done rfl hm

end Reads

/-- The operations that change the store keep the likeness. -/
structure Lawful (L : Likeness υ) : Prop extends L.Reads where
  retain : ∀ {ε : Type} {S : Machine υ → Machine υ → Prop} (v : Value),
    L.Keeps S (Machine.retain v : Action υ ε Value)
  releaseAll : ∀ {ε : Type} {S : Machine υ → Machine υ → Prop} (vs : List Value),
    L.Keeps S (Machine.releaseAll vs : Action υ ε Unit)
  byteString : ∀ b : UInt8, L.Keeps L.calm (Machine.byteString b)
  storeItem : ∀ (obj : Value) (p : Nat) (v : Value),
    L.Keeps L.raised (Machine.storeItem obj p v : SlotAction υ Unit)
  removeItem : ∀ (obj : Value) (p : Nat), L.Keeps L.raised (Machine.removeItem obj p : SlotAction υ Unit)
  dictSet : ∀ obj key v : Value, L.Keeps L.raised (Machine.dictSet obj key v)
  dictDel : ∀ obj key : Value, L.Keeps L.raised (Machine.dictDel obj key)

def Hears (L : Likeness υ) : Prop :=
  ∀ (m m' : Machine υ) (e : Event), L.calm m m' →
    L.calm { m with tracer := m.tracer.note e } { m' with tracer := m'.tracer.note e }

/-- Objects that are no instances can be made and fields stored; what is pending makes no difference. -/
structure Ample (L : Likeness υ) : Prop extends L.Lawful where
  hears : L.Hears
  raised_iff : ∀ {m m'}, L.raised m m' ↔ L.calm m m'
  pending : ∀ {m m'} (f : Pending → Pending), L.calm m m' →
    L.calm { m with pending := f m.pending } { m' with pending := f m'.pending }
  allocate : ∀ b : Body, (∀ type fields, b ≠ .inst type fields) → L.Keeps L.calm (Machine.allocate b)
  setField : ∀ {ε : Type} {S : Machine υ → Machine υ → Prop} (obj : Value) (i : Nat) (v : Value),
    L.Keeps S (Machine.setField obj i v : Action υ ε Bool)

end Likeness

/-- The slots of the host that types may have keep the likeness. -/
structure Host.Respects (H : Host υ) (L : Likeness υ) : Prop where
  get : ∀ u, L.plain .get u → ∀ obj key, L.Keeps L.raised (H.get u obj key)
  set : ∀ u, L.plain .set u → ∀ obj key v, L.Keeps L.raised (H.set u obj key v)
  del : ∀ u, L.plain .del u → ∀ obj key, L.Keeps L.raised (H.del u obj key)
  getAt : ∀ u, L.plain .getAt u → ∀ obj i, L.Keeps L.raised (H.getAt u obj i)
  setAt : ∀ u, L.plain .setAt u → ∀ obj i v, L.Keeps L.raised (H.setAt u obj i v)
  length : ∀ u, L.plain .length u → ∀ obj {m m'}, L.calm m m' → H.length u m' obj = H.length u m obj
  asIndex : ∀ u, L.plain .asIndex u → ∀ obj, L.Keeps L.raised (H.asIndex u obj)

def Slot.Plain (plain : (k : SlotKind) → υ k → Prop) {k : SlotKind} (s : Slot υ k) : Prop :=
  ∀ u, s = .host u → plain k u

theorem TypeObject.Plain.slot {plain : (k : SlotKind) → υ k → Prop} {t : TypeObject υ} {k : SlotKind}
    {s : Slot υ k} (ht : t.Plain plain) (hs : t.slot? k = some s) : s.Plain plain := by
  rintro u rfl
  exact ht k u hs

theorem TypeObject.Plain.length {plain : (k : SlotKind) → υ k → Prop} {t : TypeObject υ}
    {table : SequenceTable υ} (ht : t.Plain plain) (htable : t.capabilities.sequence? = some table)
    (s : Slot υ .length) (hs : table.length = some s) : s.Plain plain :=
  ht.slot (k := .length) (by simp [TypeObject.slot?, htable, hs])

namespace Likeness.Lawful

variable {L : Likeness υ} {S : Machine υ → Machine υ → Prop} {H : Host υ}

section

variable (hL : L.Lawful)

include hL

theorem release (v : Value) : L.Keeps S (release v : Action υ ε Unit) :=
  hL.releaseAll [v]

theorem intAsIndex (obj : Value) : L.Keeps L.raised (intAsIndex obj : SlotAction υ Value) := by
  cases obj with
  | int i => exact Keeps.pure _
  | bool b => exact Keeps.pure _
  | ref r =>
    apply Relates.bind (hL.readBody r)
    rintro b _ rfl
    cases b with
    | bigInt n => exact hL.retain _
    | _ => exact Keeps.bind (hL.nameOfType _) fun _ => hL.complain _
  | _ => exact Keeps.bind (hL.nameOfType _) fun _ => hL.complain _

theorem itemAt (u : IndexUse) (items : List Value) (position : Option Nat) :
    L.Keeps L.raised (itemAt u items position : SlotAction υ Value) := by
  cases position with
  | none => exact hL.complain _
  | some p => exact Keeps.bind (hL.lift _) fun v => hL.retain v

theorem byteAt (data : List UInt8) (position : Option Nat) :
    L.Keeps L.raised (byteAt data position : SlotAction υ Value) := by
  cases position with
  | none => exact hL.complain _
  | some p =>
    exact Keeps.bind (hL.lift _) fun b => Relates.handle (hL.byteString b) fun _ => hL.complain _

theorem dictGet (obj key : Value) : L.Keeps L.raised (dictGet obj key : SlotAction υ Value) := by
  apply Keeps.bind (hL.hashKey key)
  intro k
  apply Keeps.bind (hL.part .dict Body.dict?_retype obj)
  intro entries
  cases Dict.get? entries k with
  | some v => exact hL.retain v
  | none => exact Keeps.bind (hL.textOf key) fun _ => hL.complain _

theorem field (obj : Value) (i : Nat) : L.Keeps S (field obj i : Action υ ε (Option Value)) := by
  cases obj with
  | ref r =>
    apply Relates.bind (hL.readBody r)
    rintro b _ rfl
    cases b with
    | inst type fields =>
      dsimp only [Body.retype]
      cases fields[i]? with
      | some v => exact Keeps.bind (hL.retain v) fun _ => .pure _
      | none => exact Keeps.pure _
    | _ => exact Keeps.pure _
  | _ => exact Keeps.pure _

end

section

variable (hL : L.Lawful) (hH : H.Respects L)

include hL hH

theorem callAsIndex {s : Slot υ .asIndex} (hs : s.Plain L.plain) (obj : Value) :
    L.Keeps L.raised (callAsIndex H s obj) := by
  cases s with
  | host u => exact hH.asIndex u (hs u rfl) obj
  | builtin b =>
    cases b
    exact hL.intAsIndex obj

theorem toIndex (key : Value) : L.Keeps L.calm (toIndex H key) := by
  apply Relates.bind (hL.typeOf key)
  rintro keyType _ rfl
  apply Relates.bind (hL.typeObject keyType)
  rintro _ t ⟨rfl, hplain⟩
  cases hs : t.asIndex with
  | none => exact Keeps.throw _
  | some s =>
    apply Relates.bind (hL.settled (hL.callAsIndex hH (hplain.slot hs) key))
    rintro v _ rfl
    apply Relates.bind (hL.nativeIndex v)
    rintro native _ rfl
    -- the type is read off before the release, and asked for its name only after it
    apply Relates.bind (hL.typeOf v)
    rintro type _ rfl
    apply Relates.bind (hL.release v)
    rintro _ _ -
    cases native with
    | fits i => exact Keeps.pure i
    | tooLarge =>
      apply Relates.bind (hL.typeName keyType)
      rintro name _ rfl
      exact Keeps.throw _
    | notInteger =>
      apply Relates.bind (hL.typeName type)
      rintro name _ rfl
      exact Keeps.throw _

theorem ownIndex (u : IndexUse) (key : Value) : L.Keeps L.raised (ownIndex H u key) :=
  Keeps.bind (hL.isIndexLike key) fun _ => .ite (hL.passOn (hL.toIndex hH key))
    (.bind (hL.nameOfType key) fun _ => hL.complain _)

theorem callGet {s : Slot υ .get} (hs : s.Plain L.plain) (obj key : Value) :
    L.Keeps L.raised (callGet H s obj key) := by
  cases s with
  | host u => exact hH.get u (hs u rfl) obj key
  | builtin b =>
    cases b with
    | listGet =>
      exact Keeps.bind (hL.ownIndex hH .list key) fun _ =>
        .bind (hL.part .list Body.list?_retype obj) fun _ => hL.itemAt _ _ _
    | tupleGet =>
      exact Keeps.bind (hL.ownIndex hH .tuple key) fun _ =>
        .bind (hL.part .tuple Body.tuple?_retype obj) fun _ => hL.itemAt _ _ _
    | bytesGet =>
      exact Keeps.bind (hL.ownIndex hH .bytes key) fun _ =>
        .bind (hL.part .bytes Body.bytes?_retype obj) fun _ => hL.byteAt _ _
    | dictGet => exact hL.dictGet obj key

theorem callGetAt {s : Slot υ .getAt} (hs : s.Plain L.plain) (obj : Value) (i : Int64) :
    L.Keeps L.raised (callGetAt H s obj i) := by
  cases s with
  | host u => exact hH.getAt u (hs u rfl) obj i
  | builtin b =>
    cases b with
    | listGetAt => exact Keeps.bind (hL.part .list Body.list?_retype obj) fun _ => hL.itemAt _ _ _
    | tupleGetAt => exact Keeps.bind (hL.part .tuple Body.tuple?_retype obj) fun _ => hL.itemAt _ _ _
    | bytesGetAt => exact Keeps.bind (hL.part .bytes Body.bytes?_retype obj) fun _ => hL.byteAt _ _

theorem callSet {s : Slot υ .set} (hs : s.Plain L.plain) (obj key v : Value) :
    L.Keeps L.raised (callSet H s obj key v) := by
  cases s with
  | host u => exact hH.set u (hs u rfl) obj key v
  | builtin b =>
    cases b with
    | dictSet => exact hL.dictSet obj key v
    | listSet =>
      apply Keeps.bind (hL.ownIndex hH .list key)
      intro i
      apply Keeps.bind (hL.part .list Body.list?_retype obj)
      intro items
      cases Position.checked i items.length with
      | some p => exact hL.storeItem obj p v
      | none => exact hL.complain _

theorem callSetAt {s : Slot υ .setAt} (hs : s.Plain L.plain) (obj : Value) (i : Int64) (v : Value) :
    L.Keeps L.raised (callSetAt H s obj i v) := by
  cases s with
  | host u => exact hH.setAt u (hs u rfl) obj i v
  | builtin b =>
    cases b
    apply Keeps.bind (hL.part .list Body.list?_retype obj)
    intro items
    cases Position.absolute i items.length with
    | some p => exact hL.storeItem obj p v
    | none => exact hL.complain _

theorem callDel {s : Slot υ .del} (hs : s.Plain L.plain) (obj key : Value) :
    L.Keeps L.raised (callDel H s obj key) := by
  cases s with
  | host u => exact hH.del u (hs u rfl) obj key
  | builtin b =>
    cases b with
    | dictDel => exact hL.dictDel obj key
    | listDel =>
      apply Keeps.bind (hL.ownIndex hH .list key)
      intro i
      apply Keeps.bind (hL.part .list Body.list?_retype obj)
      intro items
      cases Position.checked i items.length with
      | some p => exact hL.removeItem obj p
      | none => exact hL.complain _

theorem callLength {s : Slot υ .length} (hs : s.Plain L.plain) (obj : Value) :
    L.Keeps S (callLength H s obj : Action υ ε Nat) := by
  cases s with
  | host u =>
    apply Relates.ask
    intro m m' hm
    rw [hH.length u (hs u rfl) obj hm]
    exact hL.lift _ m m' hm
  | builtin b =>
    cases b with
    | listLength => exact Keeps.bind (hL.part .list Body.list?_retype obj) fun _ => .pure _
    | tupleLength => exact Keeps.bind (hL.part .tuple Body.tuple?_retype obj) fun _ => .pure _
    | bytesLength => exact Keeps.bind (hL.part .bytes Body.bytes?_retype obj) fun _ => .pure _

theorem wrapIndex {table : SequenceTable υ} (hs : ∀ s, table.length = some s → s.Plain L.plain)
    (obj : Value) (i : Int64) : L.Keeps S (wrapIndex H table obj i : Action υ ε Int64) := by
  unfold Machine.wrapIndex
  cases hlength : table.length with
  | none => exact Keeps.pure i
  | some s =>
    exact Keeps.ite (.bind (hL.callLength hH (hs s hlength) obj) fun _ => .pure _) (.pure i)

end

section

variable (hL : L.Lawful) (hH : H.Respects L) (hnote : L.Hears)

include hnote in
theorem note (e : Event) : L.Keeps S (note e : Action υ ε Unit) :=
  Relates.modify fun m m' hm => hnote m m' e hm

include hL

theorem refuseByType (type : TypeId) (c : String → Complaint) :
    L.Ends L.calm Eq (do refuse (c (← typeName type)) : Action υ Failure α)
      (do refuse (c (← typeName (L.number type)))) := by
  apply Relates.bind (hL.typeName type)
  rintro name _ rfl
  exact Keeps.throw _

theorem refuseByValue (v : Value) (c : String → Complaint) :
    L.Keeps L.calm (do refuse (c (← nameOfType v)) : Action υ Failure α) :=
  Keeps.bind (hL.nameOfType v) fun _ => .throw _

include hnote

theorem noteDispatch (op : Operation) (route : Route) (type : TypeId) :
    L.Ends S Eq (noteDispatch op route type : Action υ ε Unit)
      (Machine.noteDispatch op route (L.number type)) := by
  apply Relates.bind (hL.typeName type)
  rintro name _ rfl
  exact note hnote _

include hH

/-- The way of an access by position, after the table was found to have a slot for it. -/
theorem bySequence {table : SequenceTable υ} (hs : ∀ s, table.length = some s → s.Plain L.plain)
    (op : Operation) (type : TypeId) (obj key : Value) {next : Int64 → SlotAction υ α}
    (hnext : ∀ i, L.Keeps L.raised (next i)) :
    L.Ends L.calm Eq
      (do
        let i ← Machine.toIndex H key
        let i ← Machine.wrapIndex H table obj i
        Machine.noteDispatch op .sequence type
        settle (next i) : Action υ Failure α)
      (do
        let i ← Machine.toIndex H key
        let i ← Machine.wrapIndex H table obj i
        Machine.noteDispatch op .sequence (L.number type)
        settle (next i)) := by
  apply Relates.bind (hL.toIndex hH key)
  rintro i _ rfl
  apply Relates.bind (hL.wrapIndex hH hs obj i)
  rintro j _ rfl
  apply Relates.bind (hL.noteDispatch hnote op .sequence type)
  rintro _ _ -
  exact hL.settled (hnext j)

theorem lookup (op : Operation) (source key : Value) : L.Keeps L.calm (lookup H op source key) := by
  apply Relates.bind (hL.typeOf source)
  rintro type _ rfl
  apply Relates.bind (hL.typeObject type)
  rintro _ t ⟨rfl, hplain⟩
  dsimp only
  cases hs : t.capabilities.get? with
  | some s =>
    apply Relates.bind (hL.noteDispatch hnote op .mapping type)
    rintro _ _ -
    exact hL.settled (hL.callGet hH (hplain.slot hs) source key)
  | none =>
    cases htable : t.capabilities.sequence? with
    | none => exact hL.refuseByType type _
    | some table =>
      apply Relates.bind (hL.isIndexLike key)
      rintro indexLike _ rfl
      apply Relates.ite
      · cases hat : table.get with
        | none => exact hL.refuseByType type _
        | some s =>
          have hslot : t.slot? .getAt = some s := by simp [TypeObject.slot?, htable, hat]
          exact hL.bySequence hH hnote (hplain.length htable) op type source key fun i =>
            hL.callGetAt hH (hplain.slot hslot) source i
      · exact Relates.ite (hL.refuseByValue key _) (hL.refuseByType type _)

theorem assign (v target key : Value) : L.Keeps L.calm (assign H v target key) := by
  apply Relates.bind (hL.typeOf target)
  rintro type _ rfl
  apply Relates.bind (hL.typeObject type)
  rintro _ t ⟨rfl, hplain⟩
  dsimp only
  cases hs : t.capabilities.set? with
  | some s =>
    apply Relates.bind (hL.noteDispatch hnote .set .mapping type)
    rintro _ _ -
    exact hL.settled (hL.callSet hH (hplain.slot hs) target key v)
  | none =>
    cases htable : t.capabilities.sequence? with
    | none => exact hL.refuseByType type _
    | some table =>
      apply Relates.bind (hL.isIndexLike key)
      rintro indexLike _ rfl
      apply Relates.ite
      · cases hat : table.set with
        | none => exact hL.refuseByType type _
        | some s =>
          have hslot : t.slot? .setAt = some s := by simp [TypeObject.slot?, htable, hat]
          exact hL.bySequence hH hnote (hplain.length htable) .set type target key fun i =>
            hL.callSetAt hH (hplain.slot hslot) target i v
      · exact Relates.ite (hL.refuseByValue key _) (hL.refuseByType type _)

theorem delete (target key : Value) : L.Keeps L.calm (delete H target key) := by
  apply Relates.bind (hL.typeOf target)
  rintro type _ rfl
  apply Relates.bind (hL.noteDispatch hnote .del .generic type)
  rintro _ _ -
  apply Relates.bind (hL.typeObject type)
  rintro _ t ⟨rfl, hplain⟩
  cases hs : t.capabilities.del? with
  | some s => exact hL.settled (hL.callDel hH (hplain.slot hs) target key)
  | none => exact hL.refuseByType type _

omit hH in
theorem directItem (items : List Value) (i : Int64) :
    L.Keeps L.calm (directItem items i : Action υ Failure Value) := by
  unfold Machine.directItem
  cases Position.checked i items.length with
  | none => exact Keeps.throw _
  | some p =>
    exact Keeps.bind (hL.lift _) fun v => .bind (hL.retain v) fun _ => .bind (note hnote _) fun _ =>
      .pure _

omit hH in
theorem directByte (data : List UInt8) (i : Int64) :
    L.Keeps L.calm (directByte data i : Action υ Failure Value) := by
  unfold Machine.directByte
  cases Position.checked i data.length with
  | none => exact Keeps.throw _
  | some p =>
    refine Keeps.bind (hL.lift _) fun b => .bind (Relates.handle (hL.byteString b) fun _ => ?_) fun _ =>
      .bind (note hnote _) fun _ => .pure _
    exact Keeps.throw _

theorem lookupConst (source key : Value) (i : Int64) : L.Keeps L.calm (lookupConst H source key i) := by
  have hslot := hL.lookup hH hnote .getConst source key
  cases source with
  | ref r =>
    apply Relates.bind (hL.readBody r)
    rintro b _ rfl
    cases b with
    | list items => exact hL.directItem hnote items i
    | bytes data =>
      apply Relates.ask
      intro m m' hm
      rw [hL.textModel hm]
      exact Keeps.ite (hL.directByte hnote data i) hslot m m' hm
    | _ => exact hslot
  | _ => exact hslot

omit hL hH in
theorem finish (op : Operation) {a : Action υ Failure α} (ha : L.Keeps L.calm a) :
    L.Keeps L.calm (finish op a) :=
  Relates.handle ha fun _ => Keeps.bind (note hnote _) fun _ => .throw _

theorem getItem (source key : Value) : L.Keeps L.calm (getItem H source key) :=
  Keeps.bind (hL.enter _) fun _ => finish hnote .get (hL.lookup hH hnote .get source key)

theorem getItemConst (source key : Value) (i : Int64) : L.Keeps L.calm (getItemConst H source key i) :=
  Keeps.bind (hL.enter _) fun _ => finish hnote .getConst (hL.lookupConst hH hnote source key i)

theorem setItem (v target key : Value) : L.Keeps L.calm (setItem H v target key) :=
  Keeps.bind (hL.enter _) fun _ => finish hnote .set (hL.assign hH hnote v target key)

theorem delItem (target key : Value) : L.Keeps L.calm (delItem H target key) :=
  Keeps.bind (hL.enter _) fun _ => finish hnote .del (hL.delete hH hnote target key)

end

end Likeness.Lawful

namespace Likeness.Ample

variable {L : Likeness υ} {S : Machine υ → Machine υ → Prop} (hL : L.Ample)

include hL

theorem throw (e : ε) : L.Keeps L.raised (throw e : Action υ ε α) :=
  fun _ _ hm => .failed e (hL.raised_iff.2 hm)

theorem changePending (f : Pending → Pending) :
    L.Keeps S (modify fun m => { m with pending := f m.pending } : Action υ ε PUnit) :=
  Relates.modify fun _ _ hm => hL.pending f hm

theorem recordPending (e : Exception) : L.Keeps S (recordPending e : Action υ ε Unit) :=
  hL.changePending (·.record e)

theorem newBytes (data : List UInt8) : L.Keeps L.calm (newBytes data) :=
  hL.allocate (.bytes data) fun _ _ => Body.noConfusion

theorem newInt (n : Int) : L.Keeps L.calm (newInt n) := by
  unfold Machine.newInt
  cases Position.ofInt? n with
  | some i => exact Keeps.pure _
  | none => exact hL.allocate (.bigInt n) fun _ _ => Body.noConfusion

end Likeness.Ample

end ItemAccess
