import ItemAccess.Proofs.FailedAccess
import ItemAccess.Proofs.Machine.Serving
import ItemAccess.Script.HostSlot

/-!
# What a slot leaves pending is what the access fails with

A slot that fails has left its exception in the pending place, or has forgotten to. The access that
called the slot fails with this exception and clears the place. So it is with the slot that makes an
index of a key, whether the machine asks for the index itself or one of its own slots does; in the second
case the exception is taken from the place, left there again and taken from it once more.
-/

namespace ItemAccess

open Attempt Machine

variable {υ : SlotKind → Type} {α : Type} {H : Host υ} {m m₀ m₁ : Machine υ} {id kid : TypeId}
  {t kt : TypeObject υ} {target key : Value} {f : Failure} {q : Request υ} {op : Operation}

/-- Where nothing was pending, nothing is pending when the slot is done. -/
def Machine.Tidy (a : SlotAction υ α) : Prop :=
  ∀ m, m.pending = {} → a.Ends m False (fun _ m' => m'.pending = {}) fun _ _ => True

abbrev Host.Tidy (H : Host υ) : Prop :=
  H.All Machine.Tidy

/-- An access to an item leaves nothing pending, whether it is done or fails. -/
theorem Request.Access.tidy {jobs : List SlotKind} (hq : q.Access target key jobs) (hH : H.Tidy)
    (hquiet : m.pending = {}) :
    (q.perform H).Ends m False (fun _ m' => m'.pending = {}) fun _ m' => m'.pending = {} := by
  have hI : Invariant (fun m : Machine υ => m.pending = {}) fun _ => True := by
    constructor
    · rintro m _ hm ⟨h, -, rfl⟩
      exact hm
    · exact fun _ _ => trivial
    · exact fun _ => rfl
  have hR : H.Respects (.ofInvariant (fun m => m.pending = {}) fun _ => True) :=
    Host.All.respects hH fun ha => ha
  have hkeeps := hq.keeps hI.lawful hR (by rintro _ m e ⟨rfl, hm⟩; exact ⟨rfl, hm⟩)
  exact Relates.ends hkeeps hquiet

inductive Heap.Integral (h : Heap) : Value → Int → Prop
  | int (i : Int64) : Integral h (.int i) i.toInt
  | bool (b : Bool) : Integral h (.bool b) (if b then 1 else 0)
  | big {r : Handle} {n : Int} (hb : h.body r = .ok (.bigInt n)) : Integral h (.ref r) n

/-- The ways in which no index is made of a key: the slot for it fails, or what the slot gives is no
integer, or too large a one. -/
inductive Machine.NoIndex (H : Host υ) (m : Machine υ) (key : Value) (kid : TypeId)
    (kt : TypeObject υ) : Failure → Machine υ → Prop
  | failed {u : υ .asIndex} {m₁ : Machine υ} {f : Failure} (hu : kt.asIndex = some (.host u))
    (hrun : (H.asIndex u key).run m = .failed {} m₁) (hf : m₁.pending.Reported f) :
    NoIndex H m key kid kt f { m₁ with pending := {} }
  | notInteger {s : Slot υ .asIndex} {v : Value} {m₁ : Machine υ} {id : TypeId} {t : TypeObject υ}
    {h : Heap} (hs : kt.asIndex = some s) (hrun : (callAsIndex H s key).run m = .done v m₁)
    (hv : ∀ n, ¬ m₁.heap.Integral v n) (hid : m₁.heap.typeOf v = .ok id)
    (ht : m₁.registry.get? id = some t) (hrelease : m₁.heap.release v = .ok h) :
    NoIndex H m key kid kt
      ⟨.typeMismatch, .withMessage .typeError s!"__index__ returned non-int (type {t.name})"⟩
      { m₁ with heap := h }
  | tooLarge {s : Slot υ .asIndex} {v : Value} {m₁ : Machine υ} {n : Int} {t : TypeObject υ}
    {h : Heap} (hs : kt.asIndex = some s) (hrun : (callAsIndex H s key).run m = .done v m₁)
    (hv : m₁.heap.Integral v n) (hn : n < Int64.minValue.toInt ∨ Int64.maxValue.toInt < n)
    (ht : m₁.registry.get? kid = some t) (hrelease : m₁.heap.release v = .ok h) :
    NoIndex H m key kid kt
      ⟨.indexOutOfRange, .withMessage .indexError
        s!"cannot fit '{t.name}' into an index-sized integer"⟩ { m₁ with heap := h }

namespace Request

/-- The machine in which an access makes an index of its key. The machine does so itself for a slot by
position; `own` tells that one of its own slots, of lists, tuples or byte strings, does so. -/
inductive Indexes (m : Machine υ) (target key : Value) (t : TypeObject υ) :
    Request υ → (own : Bool) → Machine υ → Prop
  | read {q : Request υ} {op : Operation} (hq : q.Reads m target key op)
    (hkey : t.slot? .get = none) (hposition : (t.slot? .getAt).isSome) :
    Indexes m target key t q false m
  | store {v : Value} (hkey : t.slot? .set = none) (hposition : (t.slot? .setAt).isSome) :
    Indexes m target key t (.set v target key) false m
  | ownRead {q : Request υ} {op : Operation} {b : BuiltinSlot .get} (hq : q.Reads m target key op)
    (hs : t.slot? .get = some (.builtin b)) (hb : b ≠ .dictGet) :
    Indexes m target key t q true
      { m with tracer := m.tracer.note (.dispatch op .mapping t.name) }
  | ownStore {v : Value} (hs : t.slot? .set = some (.builtin .listSet)) :
    Indexes m target key t (.set v target key) true
      { m with tracer := m.tracer.note (.dispatch .set .mapping t.name) }
  | ownDelete (hs : t.slot? .del = some (.builtin .listDel)) :
    Indexes m target key t (.del target key) true
      { m with tracer := m.tracer.note (.dispatch .del .generic t.name) }

end Request

namespace Machine

theorem run_nativeIndex_of_not_integral {v : Value} (hv : ∀ n, ¬ m.heap.Integral v n)
    (hid : m.heap.typeOf v = .ok id) :
    (nativeIndex v : Action υ Failure NativeIndex).run m = .done .notInteger m := by
  cases v with
  | int i => exact absurd (.int i) (hv _)
  | bool b => exact absurd (.bool b) (hv _)
  | ref r =>
    obtain ⟨b, hb, -⟩ := except_map_eq_ok.1 hid
    cases b with
    | bigInt n => exact absurd (.big hb) (hv _)
    | _ => simp [nativeIndex, run_readHeap (f := (·.body r)) hb]
  | _ => rfl

theorem run_nativeIndex_of_large {v : Value} {n : Int} (hv : m.heap.Integral v n)
    (hn : n < Int64.minValue.toInt ∨ Int64.maxValue.toInt < n) :
    (nativeIndex v : Action υ Failure NativeIndex).run m = .done .tooLarge m := by
  have hmin : Int64.minValue.toInt = -2 ^ 63 := rfl
  have hmax : Int64.maxValue.toInt = 2 ^ 63 - 1 := rfl
  cases hv with
  | int i =>
    have hlo := Int64.le_toInt i
    have hhi := Int64.toInt_lt i
    omega
  | bool b => cases b <;> simp at hn <;> omega
  | big hb =>
    have hnone : Position.ofInt? n = none := by
      rw [Position.ofInt?, if_neg]
      omega
    simp [nativeIndex, run_readHeap (f := (·.body _)) hb, NativeIndex.ofInt, hnone]

theorem NoIndex.run_toIndex (h : NoIndex H m key kid kt f m₁) (hkid : m.heap.typeOf key = .ok kid)
    (hkt : m.registry.get? kid = some kt) : (toIndex H key).run m = .failed f m₁ := by
  cases h with
  | @failed u m₁ f hu hrun hf =>
    have hsettle : (settle (callAsIndex H (.host u) key)).run m =
        .failed f { m₁ with pending := {} } := run_settle_failed hrun hf
    simp [toIndex, run_typeOf hkid, run_typeObject hkt, hu, hsettle]
  | @notInteger s v m₁ id t h hs hrun hv hid ht hrelease =>
    have hafter : (typeName id : Action υ Failure String).run { m₁ with heap := h } =
        .done t.name { m₁ with heap := h } := run_typeName ht
    simp only [toIndex, run_bind, run_typeOf hkid, run_typeObject hkt, hs, run_settle_done hrun,
      run_nativeIndex_of_not_integral hv hid, run_typeOf hid, release, changeHeap, run_get, run_liftM,
      hrelease, run_set, hafter]
    rfl
  | @tooLarge s v m₁ n t h hs hrun hv hn ht hrelease =>
    have hafter : (typeName kid : Action υ Failure String).run { m₁ with heap := h } =
        .done t.name { m₁ with heap := h } := run_typeName ht
    obtain ⟨id, hid⟩ : ∃ id, m₁.heap.typeOf v = .ok id := by
      cases hv with
      | int i => exact ⟨_, rfl⟩
      | bool b => exact ⟨_, rfl⟩
      | big hb => exact ⟨_, Heap.typeOf_ref hb⟩
    simp only [toIndex, run_bind, run_typeOf hkid, run_typeObject hkt, hs, run_settle_done hrun,
      run_nativeIndex_of_large hv hn, run_typeOf hid, release, changeHeap, run_get, run_liftM,
      hrelease, run_set, hafter]
    rfl

theorem NoIndex.asIndex (h : NoIndex H m key kid kt f m₁) : kt.asIndex.isSome := by
  cases h with
  | failed hu => simp [hu]
  | notInteger hs => simp [hs]
  | tooLarge hs => simp [hs]

/-- A slot of the machine leaves pending what kept it from an index. -/
theorem run_ownIndex_failed (hrun : (toIndex H key).run m = .failed f m₁)
    (hkid : m.heap.typeOf key = .ok kid) (hkt : m.registry.get? kid = some kt)
    (hlike : kt.asIndex.isSome) (u : IndexUse) :
    (ownIndex H u key).run m = .failed {} { m₁ with pending := ⟨some f.exception⟩ } := by
  simp [ownIndex, run_isIndexLike hkid hkt, hlike, passOn, hrun, raise, recordPending, Pending.record]

/-- So the exception is pending a second time, and is taken a second time. -/
theorem run_settle_ownIndex {u : IndexUse} {next : Int64 → SlotAction υ α}
    (hown : (ownIndex H u key).run m = .failed {} { m₁ with pending := ⟨some f.exception⟩ }) :
    (settle (ownIndex H u key >>= next)).run m =
      .failed ⟨.propagated, f.exception⟩ { m₁ with pending := {} } := by
  have hrun : (ownIndex H u key >>= next).run m =
      .failed {} { m₁ with pending := ⟨some f.exception⟩ } := by
    simp [hown]
  have hsettle := run_settle_failed hrun (.left f.exception)
  exact hsettle

end Machine

namespace Request

variable {vs : List Value} {v : Value}

/-- The access fails with what the slot of the target left pending. -/
theorem Calls.fails {a : SlotAction υ (List Value)} (hcall : q.Calls H m id target key t kt a m₀)
    (hid : m.heap.typeOf target = .ok id) (ht : m.registry.get? id = some t)
    (hkid : m.heap.typeOf key = .ok kid) (hkt : m.registry.get? kid = some kt)
    (hlive : ∀ v ∈ q.borrowed, m.heap.Present v) (hquiet : m.pending = {})
    (hrun : a.run m₀ = .failed {} m₁) (hf : m₁.pending.Reported f) :
    ∃ tracer, (q.perform H).run m = .failed f { m₁ with pending := {}, tracer := tracer } := by
  rw [hcall.run_told hid ht hkid hkt hlive hquiet, run_settle_failed hrun hf]
  exact ⟨_, rfl⟩

theorem run_callGet_failed {b : BuiltinSlot .get} (hb : b ≠ .dictGet)
    (hown : ∀ u, (ownIndex H u key).run m =
      .failed {} { m₁ with pending := ⟨some f.exception⟩ }) :
    (settle (callGet H (.builtin b) target key)).run m =
      .failed ⟨.propagated, f.exception⟩ { m₁ with pending := {} } := by
  cases b with
  | listGet => exact run_settle_ownIndex (hown .list)
  | tupleGet => exact run_settle_ownIndex (hown .tuple)
  | bytesGet => exact run_settle_ownIndex (hown .bytes)
  | dictGet => exact absurd rfl hb

/-- The access fails with what kept it from an index. -/
theorem Indexes.run_perform {own : Bool} (hindex : q.Indexes m target key t own m₀)
    (hid : m.heap.typeOf target = .ok id) (ht : m.registry.get? id = some t)
    (hkid : m.heap.typeOf key = .ok kid) (hkt : m.registry.get? kid = some kt)
    (hlike : kt.asIndex.isSome) (hlive : ∀ v ∈ q.borrowed, m.heap.Present v)
    (hquiet : m.pending = {}) (hrun : (toIndex H key).run m₀ = .failed f m₁) :
    ∃ tracer, (q.perform H).run m = if own
      then .failed ⟨.propagated, f.exception⟩ { m₁ with pending := {}, tracer := tracer }
      else .failed f { m₁ with tracer := tracer } := by
  have htarget := Heap.present_of_typeOf hid
  have hkey := Heap.present_of_typeOf hkid
  cases hindex with
  | @read q op hq hnone hposition =>
    have hlookup : (lookup H op target key).run m = .failed f m₁ := by
      rw [run_lookup hid ht hkid hkt]
      apply Service.Leads.run_answer
      exact .noConversion (by simp [TypeObject.reading, hnone])
        (by simpa [TypeObject.reading] using hposition) hlike hrun
    rw [hq.run_perform htarget hkey hquiet, run_map, hlookup]
    exact ⟨_, rfl⟩
  | @store v hnone hposition =>
    have hassign : (assign H v target key).run m = .failed f m₁ := by
      rw [run_assign hid ht hkid hkt]
      apply Service.Leads.run_answer
      exact .noConversion (by simp [TypeObject.storing, hnone])
        (by simpa [TypeObject.storing] using hposition) hlike hrun
    rw [run_perform_set (hlive v (by simp [borrowed])) htarget hkey hquiet, run_map, hassign]
    exact ⟨_, rfl⟩
  | @ownRead q op b hq hs hb =>
    have hlookup : (lookup H op target key).run m =
        .failed ⟨.propagated, f.exception⟩ { m₁ with pending := {} } := by
      rw [run_lookup_of_get hid ht hs]
      exact run_callGet_failed hb (run_ownIndex_failed hrun hkid hkt hlike)
    rw [hq.run_perform htarget hkey hquiet, run_map, hlookup]
    exact ⟨_, rfl⟩
  | @ownStore v hs =>
    have hassign : (assign H v target key).run m =
        .failed ⟨.propagated, f.exception⟩ { m₁ with pending := {} } := by
      rw [run_assign hid ht hkid hkt]
      have ha : (t.storing H v target key).byKey = some (listSet H target key v) := by
        simp [TypeObject.storing, hs, callSet]
      rw [Service.run_answer_of_calls (.byKey ha (run_noteDispatch .set .mapping ht))]
      apply run_settle_ownIndex
      exact run_ownIndex_failed hrun hkid hkt hlike .list
    rw [run_perform_set (hlive v (by simp [borrowed])) htarget hkey hquiet, run_map, hassign]
    exact ⟨_, rfl⟩
  | ownDelete hs =>
    have hdelete : (Machine.delete H target key).run m =
        .failed ⟨.propagated, f.exception⟩ { m₁ with pending := {} } := by
      rw [run_delete hid ht, TypeObject.deleting, hs]
      apply run_settle_ownIndex
      exact run_ownIndex_failed hrun hkid hkt hlike .list
    rw [run_perform_del htarget hkey hquiet, run_map, hdelete]
    exact ⟨_, rfl⟩

theorem Indexes.heap_eq {own : Bool} (hindex : q.Indexes m target key t own m₀) :
    m₀.heap = m.heap ∧ m₀.registry = m.registry := by
  cases hindex <;> exact ⟨rfl, rfl⟩

end Request

/-- An access made while nothing is pending leaves nothing pending. It fails with the very exception that
a slot of the target, or the slot that makes an index of the key, left pending, or with a system error if
there was none; and what the machine itself finds wrong with an index is the same exception on either
way to the index. -/
theorem pending_errors_are_reported {jobs : List SlotKind} (hq : q.Access target key jobs)
    (hquiet : m.pending = {}) :
    (H.Tidy → (q.perform H).Ends m False (fun _ m' => m'.pending = {}) fun _ m' => m'.pending = {}) ∧
    ∀ {id kid : TypeId} {t kt : TypeObject υ}, m.heap.typeOf target = .ok id →
      m.registry.get? id = some t → m.heap.typeOf key = .ok kid → m.registry.get? kid = some kt →
      (∀ v ∈ q.borrowed, m.heap.Present v) →
      (∀ a m₀ m₁ f, q.Calls H m id target key t kt a m₀ → a.run m₀ = .failed {} m₁ →
        m₁.pending.Reported f → ∃ tracer,
          (q.perform H).run m = .failed f { m₁ with pending := {}, tracer := tracer }) ∧
      ∀ own m₀ m₁ f, q.Indexes m target key t own m₀ → NoIndex H m₀ key kid kt f m₁ → ∃ tracer,
        (q.perform H).run m = if own
          then .failed ⟨.propagated, f.exception⟩ { m₁ with pending := {}, tracer := tracer }
          else .failed f { m₁ with tracer := tracer } := by
  constructor
  · intro hH
    exact hq.tidy hH hquiet
  · intro id kid t kt hid ht hkid hkt hlive
    constructor
    · intro a m₀ m₁ f hcall hrun hf
      exact hcall.fails hid ht hkid hkt hlive hquiet hrun hf
    · intro own m₀ m₁ f hindex hno
      obtain ⟨hheap, hregistry⟩ := hindex.heap_eq
      have hrun := hno.run_toIndex (by rw [hheap, hkid]) (by rw [hregistry, hkt])
      exact hindex.run_perform hid ht hkid hkt hno.asIndex hlive hquiet hrun

def Host.raising (e : Exception) : Host υ where
  get _ _ _ := raise e
  set _ _ _ _ := raise e
  del _ _ _ := raise e
  getAt _ _ _ := raise e
  setAt _ _ _ _ := raise e
  length _ _ _ := .ok 0
  asIndex _ _ := raise e

theorem Host.raising_tidy (e : Exception) : (raising e : Host υ).Tidy where
  get _ _ _ _ _ := trivial
  set _ _ _ _ _ _ := trivial
  del _ _ _ _ _ := trivial
  getAt _ _ _ _ _ := trivial
  setAt _ _ _ _ _ _ := trivial
  asIndex _ _ _ _ := trivial

def keySpec : TypeSpec HostSlot := { name := "Key", asIndex := some (.host .fieldIndex) }

def rowMachine : Machine HostSlot where
  heap :=
    { slots := #[some ⟨1, .list [.none], 0⟩, some ⟨1, .inst ⟨8⟩ [], 0⟩, some ⟨1, .inst ⟨9⟩ [], 0⟩]
      meter := { limits := {} } }
  registry := (((Registry.builtins .unicode).register keySpec).2.register
    { name := "Row", sequence := some { get := some (.host .echo) } }).2
  tracer := .silent
  settings := {}

/-- The key fails in the same way whether the list or the machine asks it for an index. -/
theorem pending_errors_are_reported_raisingKey :
    rowMachine.pending = {} ∧
    (∃ tracer, ((Request.get (.ref ⟨0⟩) (.ref ⟨1⟩)).perform (Host.raising ⟨.valueError, none⟩)).run
      rowMachine = .failed ⟨.propagated, ⟨.valueError, none⟩⟩
        { rowMachine with tracer := tracer }) ∧
    (∃ tracer, ((Request.get (.ref ⟨2⟩) (.ref ⟨1⟩)).perform (Host.raising ⟨.valueError, none⟩)).run
      rowMachine = .failed ⟨.propagated, ⟨.valueError, none⟩⟩
        { rowMachine with tracer := tracer }) ∧
    ((Request.get (.ref ⟨2⟩) (.ref ⟨1⟩)).perform (Host.raising ⟨.valueError, none⟩)).Ends
      rowMachine False (fun _ m' => m'.pending = {}) fun _ m' => m'.pending = {} := by
  have hkid : rowMachine.heap.typeOf (.ref ⟨1⟩) = .ok ⟨8⟩ := rfl
  have hlist : rowMachine.heap.typeOf (.ref ⟨0⟩) = .ok ⟨4⟩ := rfl
  have hrow : rowMachine.heap.typeOf (.ref ⟨2⟩) = .ok ⟨9⟩ := rfl
  have hkey := Heap.present_of_typeOf hkid
  obtain ⟨-, h₀⟩ := pending_errors_are_reported (H := .raising ⟨.valueError, none⟩)
    (m := rowMachine) (.get : Request.Access (.ref ⟨0⟩) (.ref ⟨1⟩) _ _) rfl
  obtain ⟨htidy, h₂⟩ := pending_errors_are_reported (H := .raising ⟨.valueError, none⟩)
    (m := rowMachine) (.get : Request.Access (.ref ⟨2⟩) (.ref ⟨1⟩) _ _) rfl
  obtain ⟨-, hown⟩ := h₀ hlist rfl hkid rfl
    (by simp [Request.borrowed, hkey, Heap.present_of_typeOf hlist])
  obtain ⟨-, hmachine⟩ := h₂ hrow rfl hkid rfl
    (by simp [Request.borrowed, hkey, Heap.present_of_typeOf hrow])
  refine ⟨rfl, ?_, ?_, htidy (Host.raising_tidy _)⟩
  · exact hown true _ _ _ (.ownRead .get rfl (by simp)) (.failed rfl rfl (.left _))
  · have hno : NoIndex (.raising ⟨.valueError, none⟩) rowMachine (.ref ⟨1⟩) ⟨8⟩
        (.ofSpec none keySpec) _ _ := .failed rfl rfl (.left ⟨.valueError, none⟩)
    exact hmachine false _ _ _ (.read .get rfl rfl) hno

end ItemAccess
