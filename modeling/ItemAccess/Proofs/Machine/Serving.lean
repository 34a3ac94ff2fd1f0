import ItemAccess.Proofs.DirectAccess

/-!
# The rules by which an access is served

What a type has for one sort of access is a slot by key, a slot by position, or neither. The slot by key
comes first and is given the key as it is. The slot by position is given the index that the key means,
a negative one increased by the length if there is a slot for it. `Service.Leads` states the rules, and
reading and storing items follow them. When a slot fails, what it left pending is the failure.
-/

namespace ItemAccess

open Attempt Machine

variable {υ : SlotKind → Type} {α : Type} {H : Host υ} {m : Machine υ} {id kid : TypeId}
  {t kt : TypeObject υ} {obj key : Value}

/-- What a type has for one sort of access, with the slots applied to their operands. -/
structure Service (υ : SlotKind → Type) (α : Type) where
  /-- The name of the operation, which the tracer is told. -/
  op : Operation
  /-- The call of the slot by key. -/
  byKey : Option (SlotAction υ α)
  /-- The call of the slot by position, for each index. -/
  byPosition : Option (Int64 → SlotAction υ α)
  length : Option (Slot υ .length)
  /-- Whether the type has any slot for positions or the length. -/
  sequential : Bool
  /-- The failure of an index that no slot takes. -/
  noIndexing : Failure
  /-- The failure where no rule gives another. -/
  unserved : Failure

def Failure.sequenceIndex (keyType : String) : Failure :=
  ⟨.typeMismatch, .withMessage .typeError s!"sequence index must be integer, not '{keyType}'"⟩

@[simp] theorem Failure.ofComplaint_sequenceIndex (keyType : String) :
    Failure.ofComplaint (.sequenceIndex keyType) = .sequenceIndex keyType := rfl

def TypeObject.reading (t : TypeObject υ) (H : Host υ) (op : Operation) (source key : Value) :
    Service υ Value where
  op := op
  byKey := (t.slot? .get).map fun s => callGet H s source key
  byPosition := (t.slot? .getAt).map fun s => callGetAt H s source
  length := t.slot? .length
  sequential := t.capabilities.sequence?.isSome
  noIndexing := .ofComplaint (.noIndexing t.name)
  unserved := .ofComplaint (.notSubscriptable t.name)

def TypeObject.storing (t : TypeObject υ) (H : Host υ) (v target key : Value) : Service υ Unit where
  op := .set
  byKey := (t.slot? .set).map fun s => callSet H s target key v
  byPosition := (t.slot? .setAt).map fun s i => callSetAt H s target i v
  length := t.slot? .length
  sequential := t.capabilities.sequence?.isSome
  noIndexing := .ofComplaint (.noAssignment t.name)
  unserved := .ofComplaint (.noAssignment t.name)

def TypeObject.deleting (t : TypeObject υ) (H : Host υ) (target key : Value) :
    Action υ Failure Unit :=
  match t.slot? .del with
  | some s => settle (callDel H s target key)
  | none => refuse (.noDeletion t.name)

/-- The index that a slot by position is given for the index that the key means. A negative one is
increased by the length, at most to the largest index. -/
inductive Raises (H : Host υ) (m : Machine υ) (obj : Value) (length : Option (Slot υ .length))
    (i : Int64) : Int64 → Prop
  | asItIs (h : length = none ∨ ¬ i < 0) : Raises H m obj length i i
  | increased {s : Slot υ .length} {n : Nat} {j : Int64} (hs : length = some s) (hi : i < 0)
    (hn : (callLength H s obj : Action υ Failure Nat).run m = .done n m)
    (hj : j.toInt = min (i.toInt + n) Int64.maxValue.toInt) : Raises H m obj length i j

namespace Service

/-- The call of a slot that an access comes to, and the machine in which the slot is called. -/
inductive Calls (S : Service υ α) (H : Host υ) (m : Machine υ) (id : TypeId) (obj key : Value)
    (kt : TypeObject υ) : SlotAction υ α → Machine υ → Prop
  | byKey {a : SlotAction υ α} {m₀ : Machine υ} (ha : S.byKey = some a)
    (hnote : (noteDispatch S.op .mapping id : Action υ Failure Unit).run m = .done () m₀) :
    Calls S H m id obj key kt a m₀
  | byPosition {a : Int64 → SlotAction υ α} {i j : Int64} {m₁ m₀ : Machine υ}
    (hkey : S.byKey = none) (ha : S.byPosition = some a) (hlike : kt.asIndex.isSome)
    (hi : (toIndex H key).run m = .done i m₁) (hj : Raises H m₁ obj S.length i j)
    (hnote : (noteDispatch S.op .sequence id : Action υ Failure Unit).run m₁ = .done () m₀) :
    Calls S H m id obj key kt (a j) m₀

/-- Where an access by position breaks off before the slot is called. -/
inductive Breaks (S : Service υ α) (H : Host υ) (m : Machine υ) (id : TypeId) (obj key : Value) :
    Fault → Prop
  | index {f : Fault} (hf : (toIndex H key).run m = .fault f) : Breaks S H m id obj key f
  | length {i : Int64} {m₁ : Machine υ} {s : Slot υ .length} {f : Fault}
    (hi : (toIndex H key).run m = .done i m₁) (hneg : i < 0) (hs : S.length = some s)
    (hf : (callLength H s obj : Action υ Failure Nat).run m₁ = .fault f) :
    Breaks S H m id obj key f
  | note {i j : Int64} {m₁ : Machine υ} {f : Fault} (hi : (toIndex H key).run m = .done i m₁)
    (hj : Raises H m₁ obj S.length i j)
    (hf : (noteDispatch S.op .sequence id : Action υ Failure Unit).run m₁ = .fault f) :
    Breaks S H m id obj key f

/-- The rules for an access to `obj`, whose type is `id`, with a key of the type `kt`. -/
inductive Leads (S : Service υ α) (H : Host υ) (m : Machine υ) (id : TypeId) (obj key : Value)
    (kt : TypeObject υ) : Outcome (Machine υ) Failure α → Prop
  | called {a : SlotAction υ α} {m₀ : Machine υ} (hcall : S.Calls H m id obj key kt a m₀) :
    Leads S H m id obj key kt ((settle a).run m₀)
  | noIndexing (hkey : S.byKey = none) (hposition : S.byPosition = none) (hseq : S.sequential)
    (hlike : kt.asIndex.isSome) : Leads S H m id obj key kt (.failed S.noIndexing m)
  | noConversion {f : Failure} {m₁ : Machine υ} (hkey : S.byKey = none)
    (hposition : S.byPosition.isSome) (hlike : kt.asIndex.isSome)
    (hf : (toIndex H key).run m = .failed f m₁) : Leads S H m id obj key kt (.failed f m₁)
  | notAnIndex (hkey : S.byKey = none) (hposition : S.byPosition.isSome)
    (hlike : ¬ kt.asIndex.isSome) :
    Leads S H m id obj key kt (.failed (.sequenceIndex kt.name) m)
  | unserved (hkey : S.byKey = none) (hposition : S.byPosition = none)
    (hnot : ¬ (S.sequential ∧ kt.asIndex.isSome)) :
    Leads S H m id obj key kt (.failed S.unserved m)
  | broken {f : Fault} (hkey : S.byKey = none) (hposition : S.byPosition.isSome)
    (hlike : kt.asIndex.isSome) (hf : S.Breaks H m id obj key f) :
    Leads S H m id obj key kt (.fault f)

end Service

theorem Position.toInt_wrap {i : Int64} (hi : i < 0) (n : Nat) :
    (wrap i n).toInt = min (i.toInt + n) Int64.maxValue.toInt := by
  have hmax : Int64.maxValue.toInt = 2 ^ 63 - 1 := rfl
  have hmin := Int64.le_toInt i
  rw [wrap, if_pos hi]
  split
  case isTrue h =>
    rw [Int64.toInt_ofInt_of_le (by omega) (by omega)]
    omega
  case isFalse h => omega

namespace Machine

theorem part_reads {c : Container} {part? : Body → Option α} :
    (part c part? obj : Action υ Failure α).Ends m False (fun _ m' => m' = m) fun _ _ => False := by
  cases obj with
  | ref r =>
    simp only [part, ends_bind]
    apply readHeap_ends False.elim
    intro b _
    cases part? b with
    | some a => rfl
    | none => exact not_false
  | _ => exact not_false

/-- A length is asked for without a change to the machine. -/
theorem callLength_reads (s : Slot υ .length) :
    (callLength H s obj : Action υ Failure Nat).Ends m False (fun _ m' => m' = m) fun _ _ => False := by
  cases s with
  | host u =>
    simp only [callLength, ends_bind, ends_get]
    exact ends_liftM False.elim fun _ _ => rfl
  | builtin b =>
    cases b <;> (simp only [callLength, ends_bind, ends_pure]; exact part_reads)

theorem run_callLength (H : Host υ) (m : Machine υ) (s : Slot υ .length) (obj : Value) :
    (∃ n, (callLength H s obj : Action υ Failure Nat).run m = .done n m) ∨
      ∃ f, (callLength H s obj : Action υ Failure Nat).run m = .fault f := by
  have hends : (callLength H s obj : Action υ Failure Nat).Ends m False (fun _ m' => m' = m)
      fun _ _ => False := callLength_reads s
  cases hr : (callLength H s obj : Action υ Failure Nat).run m with
  | done n m' =>
    obtain rfl := hends.done hr
    exact .inl ⟨n, rfl⟩
  | failed f m' => exact (hends.failed hr).elim
  | fault f => exact .inr ⟨f, rfl⟩

/-- What a slot by position is given for an index: an index by the rule, unless there is no length. -/
theorem wrapIndex_cases (H : Host υ) (m : Machine υ) (length : Option (Slot υ .length)) (obj : Value)
    (i : Int64) :
    (∃ j, Raises H m obj length i j) ∨
      ∃ s f, length = some s ∧ i < 0 ∧ (callLength H s obj : Action υ Failure Nat).run m = .fault f := by
  by_cases hi : i < 0
  · cases length with
    | none => exact .inl ⟨i, .asItIs (.inl rfl)⟩
    | some s =>
      rcases run_callLength H m s obj with ⟨n, hn⟩ | ⟨f, hf⟩
      · exact .inl ⟨Position.wrap i n, .increased rfl hi hn (Position.toInt_wrap hi n)⟩
      · exact .inr ⟨s, f, rfl, hi, hf⟩
  · exact .inl ⟨i, .asItIs (.inr hi)⟩

theorem run_wrapIndex {length : Option (Slot υ .length)} {i j : Int64}
    (hj : Raises H m obj length i j) :
    (wrapIndex H { length } obj i : Action υ Failure Int64).run m = .done j m := by
  cases hj with
  | asItIs h =>
    rcases h with rfl | hi
    · rfl
    · cases length with
      | none => rfl
      | some s => simp [wrapIndex, hi]
  | @increased s n _ hs hi hn hj =>
    have hwrap : Position.wrap i n = j := Int64.toInt_inj.1 ((Position.toInt_wrap hi n).trans hj.symm)
    simp [wrapIndex, hs, hi, hn, hwrap]

end Machine

namespace Service

def answer (S : Service υ α) (H : Host υ) (id : TypeId) (obj key : Value) (kt : TypeObject υ) :
    Action υ Failure α :=
  match S.byKey with
  | some a => do
    noteDispatch S.op .mapping id
    settle a
  | none =>
    match S.byPosition, kt.asIndex with
    | some a, some _ => do
      let i ← toIndex H key
      let j ← wrapIndex H { length := S.length } obj i
      noteDispatch S.op .sequence id
      settle (a j)
    | some _, none => throw (.sequenceIndex kt.name)
    | none, like => throw (if S.sequential ∧ like.isSome then S.noIndexing else S.unserved)

variable {S : Service υ α} {o : Outcome (Machine υ) Failure α}

theorem run_answer_of_calls {a : SlotAction υ α} {m₀ : Machine υ}
    (hcall : S.Calls H m id obj key kt a m₀) :
    (S.answer H id obj key kt).run m = (settle a).run m₀ := by
  cases hcall with
  | byKey ha hnote => simp [answer, ha, hnote]
  | byPosition hkey ha hlike hi hj hnote =>
    obtain ⟨s, hs⟩ := Option.isSome_iff_exists.1 hlike
    simp [answer, hkey, ha, hs, hi, run_wrapIndex hj, hnote]

theorem run_answer_of_breaks {f : Fault} (hkey : S.byKey = none) (hposition : S.byPosition.isSome)
    (hlike : kt.asIndex.isSome) (hf : S.Breaks H m id obj key f) :
    (S.answer H id obj key kt).run m = .fault f := by
  obtain ⟨a, ha⟩ := Option.isSome_iff_exists.1 hposition
  obtain ⟨s, hs⟩ := Option.isSome_iff_exists.1 hlike
  cases hf with
  | index hf => simp [answer, hkey, ha, hs, hf]
  | length hi hneg hlength hf => simp [answer, hkey, ha, hs, hi, wrapIndex, hlength, hneg, hf]
  | note hi hj hf => simp [answer, hkey, ha, hs, hi, run_wrapIndex hj, hf]

/-- The rules lead to no other end than the computation. -/
theorem Leads.run_answer (h : S.Leads H m id obj key kt o) :
    (S.answer H id obj key kt).run m = o := by
  cases h with
  | called hcall => exact run_answer_of_calls hcall
  | noIndexing hkey hposition hseq hlike => simp [answer, hkey, hposition, hseq, hlike]
  | noConversion hkey hposition hlike hf =>
    obtain ⟨a, ha⟩ := Option.isSome_iff_exists.1 hposition
    obtain ⟨s, hs⟩ := Option.isSome_iff_exists.1 hlike
    simp [answer, hkey, ha, hs, hf]
  | notAnIndex hkey hposition hlike =>
    obtain ⟨a, ha⟩ := Option.isSome_iff_exists.1 hposition
    simp [answer, hkey, ha, Option.not_isSome_iff_eq_none.1 hlike]
  | unserved hkey hposition hnot => simp [answer, hkey, hposition, hnot]
  | broken hkey hposition hlike hf => exact run_answer_of_breaks hkey hposition hlike hf

theorem noteDispatch_cases (m : Machine υ) (op : Operation) (route : Route) (id : TypeId) :
    (∃ m₀, (noteDispatch op route id : Action υ Failure Unit).run m = .done () m₀) ∨
      ∃ f, (noteDispatch op route id : Action υ Failure Unit).run m = .fault f := by
  cases ht : m.registry.get? id with
  | some t => exact .inl ⟨_, run_noteDispatch op route ht⟩
  | none => exact .inr ⟨_, by simp [noteDispatch, typeName, typeObject, ht]; rfl⟩

/-- The rules cover every access. -/
theorem exists_leads (S : Service υ α) (H : Host υ) (obj key : Value) (kt : TypeObject υ)
    (ht : m.registry.get? id = some t) : ∃ o, S.Leads H m id obj key kt o := by
  cases hkey : S.byKey with
  | some a => exact ⟨_, .called (.byKey hkey (run_noteDispatch S.op .mapping ht))⟩
  | none =>
    cases hposition : S.byPosition with
    | none =>
      by_cases h : S.sequential ∧ kt.asIndex.isSome
      · exact ⟨_, .noIndexing hkey hposition h.1 h.2⟩
      · exact ⟨_, .unserved hkey hposition h⟩
    | some a =>
      have hsome : S.byPosition.isSome := by simp [hposition]
      by_cases hlike : kt.asIndex.isSome
      · cases hi : (toIndex H key).run m with
        | failed f m₁ => exact ⟨_, .noConversion hkey hsome hlike hi⟩
        | fault f => exact ⟨_, .broken hkey hsome hlike (.index hi)⟩
        | done i m₁ =>
          rcases wrapIndex_cases H m₁ S.length obj i with ⟨j, hj⟩ | ⟨s, f, hs, hneg, hf⟩
          · rcases noteDispatch_cases m₁ S.op .sequence id with ⟨m₀, hnote⟩ | ⟨f, hf⟩
            · exact ⟨_, .called (.byPosition hkey hposition hlike hi hj hnote)⟩
            · exact ⟨_, .broken hkey hsome hlike (.note hi hj hf)⟩
          · exact ⟨_, .broken hkey hsome hlike (.length hi hneg hs hf)⟩
      · exact ⟨_, .notAnIndex hkey hsome hlike⟩

end Service

namespace Machine

variable {v source target : Value}

/-- Reading an item follows the rules for what the type has for it. -/
theorem run_lookup (hid : m.heap.typeOf source = .ok id) (ht : m.registry.get? id = some t)
    (hkid : m.heap.typeOf key = .ok kid) (hkt : m.registry.get? kid = some kt) (op : Operation) :
    (lookup H op source key).run m =
      ((t.reading H op source key).answer H id source key kt).run m := by
  simp only [lookup, run_bind, run_typeOf hid, run_typeObject ht]
  cases hget : t.capabilities.get? with
  | some s => simp [Service.answer, TypeObject.reading, TypeObject.slot?, hget]
  | none =>
    cases htable : t.capabilities.sequence? with
    | none =>
      simp [Service.answer, TypeObject.reading, TypeObject.slot?, hget, htable, run_typeName ht, refuse]
    | some table =>
      simp only [run_bind, run_isIndexLike hkid hkt]
      cases hs : table.get <;> cases hlike : kt.asIndex <;>
        simp [Service.answer, TypeObject.reading, TypeObject.slot?, hget, htable, hs, hlike,
          run_typeName ht, run_nameOfType hkid hkt, refuse, wrapIndex]

/-- Storing an item follows them too. -/
theorem run_assign (hid : m.heap.typeOf target = .ok id) (ht : m.registry.get? id = some t)
    (hkid : m.heap.typeOf key = .ok kid) (hkt : m.registry.get? kid = some kt) :
    (assign H v target key).run m =
      ((t.storing H v target key).answer H id target key kt).run m := by
  simp only [assign, run_bind, run_typeOf hid, run_typeObject ht]
  cases hset : t.capabilities.set? with
  | some s => simp [Service.answer, TypeObject.storing, TypeObject.slot?, hset]
  | none =>
    cases htable : t.capabilities.sequence? with
    | none =>
      simp [Service.answer, TypeObject.storing, TypeObject.slot?, hset, htable, run_typeName ht, refuse]
    | some table =>
      simp only [run_bind, run_isIndexLike hkid hkt]
      cases hs : table.set <;> cases hlike : kt.asIndex <;>
        simp [Service.answer, TypeObject.storing, TypeObject.slot?, hset, htable, hs, hlike,
          run_typeName ht, run_nameOfType hkid hkt, refuse, wrapIndex]

end Machine

def Outcome.told (op : Operation) : Outcome (Machine υ) Failure α → Outcome (Machine υ) Failure α
  | .failed f m => .failed f { m with tracer := m.tracer.note (.failure op f) }
  | o => o

theorem Heap.present_of_typeOf {h : Heap} {v : Value} (hid : h.typeOf v = .ok id) : h.Present v := by
  rintro r rfl
  obtain ⟨b, hb, -⟩ := except_map_eq_ok.1 hid
  obtain ⟨e, he, -⟩ := body_eq_ok.1 hb
  exact ⟨e, he⟩

namespace Machine

variable {v source target : Value}

/-- Only lists and byte strings are read without a slot. -/
theorem not_direct {r : Handle} {b : Body} (hb : m.heap.body r = .ok b) (hlist : b.kind? ≠ some .list)
    (hbytes : b.kind? ≠ some .bytes) : ¬ m.Direct (.ref r) := by
  rintro (⟨s, items, hs, hb'⟩ | ⟨⟨s, data, hs, hb'⟩, -⟩)
  all_goals
    cases hs
    cases hb.symm.trans hb'
  · exact hlist rfl
  · exact hbytes rfl

theorem run_finish (op : Operation) (a : Action υ Failure α) :
    (finish op a).run m = (a.run m).told op := by
  simp only [finish, run_handle]
  cases a.run m <;> rfl

theorem run_getItem (hsource : m.heap.Present source) (hkey : m.heap.Present key)
    (hquiet : m.pending = {}) :
    (getItem H source key).run m = ((lookup H .get source key).run m).told .get := by
  have henter : (enter [source, key] : Action υ Failure Unit).run m = .done () m :=
    run_enter (by simp [hsource, hkey]) hquiet
  simp [getItem, henter, run_finish]

theorem run_getItemConst (hsource : m.heap.Present source) (hkey : m.heap.Present key)
    (hquiet : m.pending = {}) (hd : ¬ m.Direct source) (i : Int64) :
    (getItemConst H source key i).run m =
      ((lookup H .getConst source key).run m).told .getConst := by
  have henter : (enter [source, key] : Action υ Failure Unit).run m = .done () m :=
    run_enter (by simp [hsource, hkey]) hquiet
  simp [getItemConst, henter, run_finish, run_lookupConst hsource hd]

theorem run_setItem (hv : m.heap.Present v) (htarget : m.heap.Present target)
    (hkey : m.heap.Present key) (hquiet : m.pending = {}) :
    (setItem H v target key).run m = ((assign H v target key).run m).told .set := by
  have henter : (enter [v, target, key] : Action υ Failure Unit).run m = .done () m :=
    run_enter (by simp [hv, htarget, hkey]) hquiet
  simp [setItem, henter, run_finish]

theorem run_delItem (htarget : m.heap.Present target) (hkey : m.heap.Present key)
    (hquiet : m.pending = {}) :
    (delItem H target key).run m = ((delete H target key).run m).told .del := by
  have henter : (enter [target, key] : Action υ Failure Unit).run m = .done () m :=
    run_enter (by simp [htarget, hkey]) hquiet
  simp [delItem, henter, run_finish]

theorem run_delete (hid : m.heap.typeOf target = .ok id) (ht : m.registry.get? id = some t) :
    (delete H target key).run m = (t.deleting H target key).run
      { m with tracer := m.tracer.note (.dispatch .del .generic t.name) } := by
  have ht' : ({ m with tracer := m.tracer.note (.dispatch .del .generic t.name) } :
      Machine υ).registry.get? id = some t := ht
  simp only [delete, run_bind, run_typeOf hid, run_noteDispatch .del .generic ht, run_typeObject ht']
  cases hdel : t.capabilities.del? <;>
    simp [TypeObject.deleting, TypeObject.slot?, hdel, run_typeName ht']

end Machine

/-- The failure that is reported for what a failing slot left pending. -/
inductive Pending.Reported : Pending → Failure → Prop
  | left (e : Exception) : Reported ⟨some e⟩ ⟨.propagated, e⟩
  | nothing : Reported {}
    ⟨.propagated, .withMessage .systemError "error return without exception set"⟩

theorem Pending.Reported.settle {p : Pending} {f : Failure} (hf : p.Reported f) :
    p.settle = (f, {}) := by
  cases hf <;> rfl

namespace Machine

variable {m₁ : Machine υ}

theorem run_settle_failed {a : SlotAction υ α} {f : Failure} (hrun : a.run m = .failed {} m₁)
    (hf : m₁.pending.Reported f) : (settle a).run m = .failed f { m₁ with pending := {} } := by
  simp [Machine.settle, hrun, takePending, hf.settle]

theorem run_settle_done {a : SlotAction υ α} {x : α} (hrun : a.run m = .done x m₁) :
    (settle a).run m = .done x m₁ := by
  simp [Machine.settle, hrun]

/-- A settled slot gives on what the slot gives. -/
theorem run_settle_map {β : Type} (g : α → β) (a : SlotAction υ α) :
    (settle (g <$> a)).run m = (g <$> settle a).run m := by
  cases ha : a.run m <;> simp [Machine.settle, takePending, ha]

end Machine

namespace Request

variable {q : Request υ} {op : Operation} {m₀ : Machine υ} {v source target : Value}

inductive Reads (m : Machine υ) (source key : Value) : Request υ → Operation → Prop
  | get : Reads m source key (.get source key) .get
  | getConst (i : Int64) (hd : ¬ m.Direct source) :
    Reads m source key (.getConst source key i) .getConst

/-- The slot of the target that an access calls, with its operands, and the machine in which it is
called. -/
inductive Calls (H : Host υ) (m : Machine υ) (id : TypeId) (target key : Value)
    (t kt : TypeObject υ) : Request υ → SlotAction υ (List Value) → Machine υ → Prop
  | read {q : Request υ} {op : Operation} {a : SlotAction υ Value} {m₀ : Machine υ}
    (hq : q.Reads m target key op)
    (ha : (t.reading H op target key).Calls H m id target key kt a m₀) :
    Calls H m id target key t kt q ((fun v => [v]) <$> a) m₀
  | store {v : Value} {a : SlotAction υ Unit} {m₀ : Machine υ}
    (ha : (t.storing H v target key).Calls H m id target key kt a m₀) :
    Calls H m id target key t kt (.set v target key) ((fun _ => []) <$> a) m₀
  | delete {s : Slot υ .del} (hs : t.slot? .del = some s) :
    Calls H m id target key t kt (.del target key) ((fun _ => []) <$> callDel H s target key)
      { m with tracer := m.tracer.note (.dispatch .del .generic t.name) }

/-- The tracer is told of a failure, whatever is made of a value. -/
theorem run_map_told {β : Type} (g : α → β) {a b : Action υ Failure α}
    (hrun : a.run m = (b.run m₀).told op) : (g <$> a).run m = ((g <$> b).run m₀).told op := by
  rw [run_map, run_map, hrun]
  cases b.run m₀ <;> rfl

theorem Reads.run_perform (hq : q.Reads m source key op) (hsource : m.heap.Present source)
    (hkey : m.heap.Present key) (hquiet : m.pending = {}) :
    (q.perform H).run m = (((fun v => [v]) <$> lookup H op source key).run m).told op := by
  cases hq with
  | get => exact run_map_told _ (run_getItem hsource hkey hquiet)
  | getConst i hd => exact run_map_told _ (run_getItemConst hsource hkey hquiet hd i)

/-- A read at an index known beforehand, with or without a slot. -/
theorem run_perform_getConst (hsource : m.heap.Present source) (hkey : m.heap.Present key)
    (hquiet : m.pending = {}) (i : Int64) :
    ((getConst source key i).perform H).run m =
      (((fun v => [v]) <$> lookupConst H source key i).run m).told .getConst := by
  have henter : (enter [source, key] : Action υ Failure Unit).run m = .done () m :=
    run_enter (by simp [hsource, hkey]) hquiet
  apply run_map_told
  simp [getItemConst, henter, run_finish]

theorem run_perform_set (hv : m.heap.Present v) (htarget : m.heap.Present target)
    (hkey : m.heap.Present key) (hquiet : m.pending = {}) :
    ((set v target key).perform H).run m =
      (((fun _ => []) <$> assign H v target key).run m).told .set :=
  run_map_told _ (run_setItem hv htarget hkey hquiet)

theorem run_perform_del (htarget : m.heap.Present target) (hkey : m.heap.Present key)
    (hquiet : m.pending = {}) :
    ((del target key).perform H).run m =
      (((fun _ => []) <$> delete H target key).run m).told .del :=
  run_map_told _ (run_delItem htarget hkey hquiet)

def operation : Request υ → Operation
  | .getConst _ _ _ => .getConst
  | .set _ _ _ => .set
  | .del _ _ => .del
  | _ => .get

/-- The request ends as the slot does, and the tracer is told of a failure. -/
theorem Calls.run_told {a : SlotAction υ (List Value)}
    (hcall : q.Calls H m id target key t kt a m₀) (hid : m.heap.typeOf target = .ok id)
    (ht : m.registry.get? id = some t) (hkid : m.heap.typeOf key = .ok kid)
    (hkt : m.registry.get? kid = some kt) (hlive : ∀ v ∈ q.borrowed, m.heap.Present v)
    (hquiet : m.pending = {}) : (q.perform H).run m = ((settle a).run m₀).told q.operation := by
  have htarget := Heap.present_of_typeOf hid
  have hkey := Heap.present_of_typeOf hkid
  cases hcall with
  | @read q op a m₀ hq ha =>
    have hop : q.operation = op := by cases hq <;> rfl
    rw [hop, hq.run_perform htarget hkey hquiet, run_settle_map, run_map, run_map,
      run_lookup hid ht hkid hkt, Service.run_answer_of_calls ha]
  | store ha =>
    rw [run_perform_set (hlive _ (by simp [borrowed])) htarget hkey hquiet, run_settle_map, run_map,
      run_map, run_assign hid ht hkid hkt, Service.run_answer_of_calls ha]
    rfl
  | delete hs =>
    rw [run_perform_del htarget hkey hquiet, run_settle_map, run_map, run_map, run_delete hid ht,
      TypeObject.deleting, hs]
    rfl

end Request

end ItemAccess
