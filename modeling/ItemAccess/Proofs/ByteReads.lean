import ItemAccess.Proofs.FailedAccess
import ItemAccess.Proofs.Machine.Serving
import ItemAccess.Proofs.Object.Position

/-!
# Reading a byte

There are three ways to a byte of a byte string: a read at an index known beforehand, the slot by key and
the slot by position. No access comes to the last one, but a client can call it. On each way the host may
have a part in making the index; then the byte is given as the string that the store has for it.
-/

namespace ItemAccess

open Attempt Machine

variable {υ : SlotKind → Type} {H : Host υ} {m m₀ m₁ m' : Machine υ} {c : Client υ} {r : Handle}
  {key : Value} {i : Int64} {data : List UInt8} {b : UInt8} {owned : Multiset Handle}

theorem Request.Reads.access {q : Request υ} {op : Operation} {source : Value}
    (hq : q.Reads m source key op) : ∃ jobs, q.Access source key jobs := by
  cases hq with
  | get => exact ⟨_, .get⟩
  | getConst i => exact ⟨_, .getConst i⟩

/-- What a client does: it makes a request, or it calls a slot by position. -/
inductive Deed (υ : SlotKind → Type) where
  | ask (q : Request υ)
  | callAt (s : Slot υ .getAt) (obj : Value) (i : Int64)

namespace Deed

variable {d : Deed υ} {q : Request υ} {op : Operation}

def perform (H : Host υ) : Deed υ → Action υ Failure (List Value)
  | ask q => q.perform H
  | callAt s obj i => do return [← settle (callGetAt H s obj i)]

def consumed : Deed υ → List Value
  | ask q => q.consumed
  | callAt _ _ _ => []

/-- Requests are made with care. A slot is called on an object that is owned and whose type has it, when
nothing is pending. -/
def Admitted (c : Client υ) : Deed υ → Prop
  | ask q => c.Careful q
  | callAt s obj _ => obj.Within c.owned ∧ c.machine.Offers obj s ∧ c.machine.pending = {}

inductive ReadsFrom (r : Handle) : Deed υ → Prop
  | get (key : Value) : ReadsFrom r (ask (.get (.ref r) key))
  | getConst (key : Value) (i : Int64) : ReadsFrom r (ask (.getConst (.ref r) key i))
  | callAt (s : Slot υ .getAt) (i : Int64) : ReadsFrom r (callAt s (.ref r) i)

/-- The deed reads the byte `b` of a byte string, in the machine `m₁` that there is once the index has
been made. -/
inductive ReadsByte (H : Host υ) (m : Machine υ) : Deed υ → Machine υ → UInt8 → Prop
  | direct {r : Handle} {key : Value} {i : Int64} {data : List UInt8} {b : UInt8}
    (hmodel : m.settings.textModel = .byteString) (hb : m.heap.body r = .ok (.bytes data))
    (hi : Position.InRange i.toInt data.length)
    (hbyte : data[Position.ofInteger i.toInt data.length]? = some b) :
    ReadsByte H m (ask (.getConst (.ref r) key i)) m b
  | byKey {q : Request υ} {op : Operation} {r : Handle} {key : Value} {i : Int64} {m₀ m₁ : Machine υ}
    {data : List UInt8} {b : UInt8} (hq : q.Reads m (.ref r) key op)
    (htype : m.heap.typeOf (.ref r) = .ok BuiltinKind.bytes.typeId)
    (hnote : (noteDispatch op .mapping BuiltinKind.bytes.typeId : Action υ Failure Unit).run m =
      .done () m₀)
    (hindex : (toIndex H key).run m₀ = .done i m₁) (hb : m₁.heap.body r = .ok (.bytes data))
    (hi : Position.InRange i.toInt data.length)
    (hbyte : data[Position.ofInteger i.toInt data.length]? = some b) :
    ReadsByte H m (ask q) m₁ b
  | byPosition {r : Handle} {i : Int64} {data : List UInt8} {b : UInt8}
    (hb : m.heap.body r = .ok (.bytes data)) (hi : 0 ≤ i.toInt)
    (hbyte : data[i.toInt.toNat]? = some b) :
    ReadsByte H m (callAt (.builtin .bytesGetAt) (.ref r) i) m b

inductive Given (h : Heap) (b : UInt8) : Outcome (Machine υ) Failure (List Value) → Prop
  | done {r : Handle} {m' : Machine υ} (hb : h.byteString b = .ok (.ok (r, m'.heap))) :
    Given h b (.done [.ref r] m')
  | failed {e : LimitError} {f : Failure} {m' : Machine υ} (hb : h.byteString b = .ok (.error e)) :
    Given h b (.failed f m')
  | fault {f f' : Fault} (hb : h.byteString b = .error f) : Given h b (.fault f')

theorem Given.told {h : Heap} {o : Outcome (Machine υ) Failure (List Value)} (ho : Given h b o)
    (op : Operation) : Given h b (o.told op) := by
  cases ho with
  | done hb => exact .done hb
  | failed hb => exact .failed hb
  | fault hb => exact .fault hb

theorem given_directByte (hi : Position.InRange i.toInt data.length)
    (hbyte : data[Position.ofInteger i.toInt data.length]? = some b) :
    Given m.heap b (((fun v => [v]) <$> (directByte data i : Action υ Failure Value)).run m) := by
  simp only [directByte, Position.checked_of_inRange hi, Machine.byteString, run_map, run_bind,
    run_handle, run_liftM, run_get, atPosition_eq_ok.2 hbyte]
  cases hb : m.heap.byteString b with
  | error f => exact .fault hb
  | ok x =>
    cases x with
    | error e => exact .failed hb
    | ok p => exact .done hb

theorem given_byteAt {p : Nat} {a : SlotAction υ Value} (hbyte : data[p]? = some b)
    (ha : a.run m₀ = (byteAt data (some p)).run m₁) :
    Given m₁.heap b (((fun v => [v]) <$> settle a).run m₀) := by
  simp only [Machine.settle, run_map, run_handle, ha, byteAt, Machine.byteString, run_bind,
    run_liftM, run_get, atPosition_eq_ok.2 hbyte]
  cases hb : m₁.heap.byteString b with
  | error f => exact .fault hb
  | ok x =>
    cases x with
    | error e => exact .failed hb
    | ok p => exact .done hb

theorem run_bytesGet_of_toIndex {kid : TypeId} {kt : TypeObject υ}
    (hkid : m.heap.typeOf key = .ok kid) (hkt : m.registry.get? kid = some kt)
    (hindex : (toIndex H key).run m = .done i m₁) (hb : m₁.heap.body r = .ok (.bytes data)) :
    (bytesGet H (.ref r) key).run m = (byteAt data (Position.checked i data.length)).run m₁ := by
  have hlike : kt.asIndex.isSome := by
    by_contra hnone
    rw [Option.not_isSome_iff_eq_none] at hnone
    simp [toIndex, run_typeOf hkid, run_typeObject hkt, hnone, refuse] at hindex
  have hown : (ownIndex H .bytes key).run m = .done i m₁ := by
    simp [ownIndex, run_isIndexLike hkid hkt, hlike, passOn, hindex]
  have hdata : (bytesData (.ref r) : SlotAction υ (List UInt8)).run m₁ = .done data m₁ :=
    run_part hb rfl
  simp [bytesGet, hown, hdata]

/-- An access by key to a byte string calls its slot. -/
theorem run_perform_of_reads (hs : m.heap.Sound m.registry owned) (hq : q.Reads m (.ref r) key op)
    (hkey : m.heap.Present key) (hquiet : m.pending = {})
    (htype : m.heap.typeOf (.ref r) = .ok BuiltinKind.bytes.typeId) :
    ∃ m₀, (noteDispatch op .mapping BuiltinKind.bytes.typeId : Action υ Failure Unit).run m =
        .done () m₀ ∧ m₀.heap = m.heap ∧ m₀.registry = m.registry ∧
      (q.perform H).run m =
        (((fun v => [v]) <$> settle (bytesGet H (.ref r) key)).run m₀).told op := by
  obtain ⟨model, ht⟩ := hs.built.get? .bytes
  refine ⟨_, run_noteDispatch op .mapping ht, rfl, rfl, ?_⟩
  have hlookup : (lookup H op (.ref r) key).run m = (settle (callGet H (.builtin .bytesGet)
      (.ref r) key)).run { m with tracer := m.tracer.note (.dispatch op .mapping _) } :=
    run_lookup_of_get htype ht rfl op
  rw [hq.run_perform (Heap.present_of_typeOf htype) hkey hquiet, run_map, hlookup, run_map]
  rfl

/-- Whatever way leads to the byte, the store gives its string. -/
theorem ReadsByte.given (hs : c.Sound) (hd : d.Admitted c)
    (hread : d.ReadsByte H c.machine m₁ b) : Given m₁.heap b ((d.perform H).run c.machine) := by
  cases hread with
  | @direct r key i data b hmodel hb hi hbyte =>
    obtain ⟨hborrowed, hquiet⟩ := hd.access (.getConst i)
    have hkey : c.machine.heap.Present key :=
      Heap.Sound.present hs (hborrowed key (by simp [Request.borrowed]))
    have hsource : c.machine.heap.Present (.ref r) := Heap.present_of_typeOf (Heap.typeOf_ref hb)
    have hrun : (lookupConst H (.ref r) key i).run c.machine = (directByte data i).run c.machine := by
      simp [lookupConst, run_readHeap (f := (·.body r)) hb, hmodel]
    have hgiven := given_directByte (m := c.machine) hi hbyte
    rw [run_map] at hgiven
    rw [perform, Request.run_perform_getConst hsource hkey hquiet, run_map, hrun]
    exact hgiven.told .getConst
  | @byKey q op r key i m₀ m₁ data b hq htype hnote hindex hb hi hbyte =>
    obtain ⟨jobs, haccess⟩ := hq.access
    obtain ⟨hborrowed, hquiet⟩ := hd.access haccess
    have hkey : c.machine.heap.Present key :=
      Heap.Sound.present hs (hborrowed key (by cases hq <;> simp [Request.borrowed]))
    obtain ⟨m₂, hnote₂, hheap, hregistry, hrun⟩ :=
      run_perform_of_reads (H := H) hs hq hkey hquiet htype
    obtain rfl : m₀ = m₂ := by
      rw [hnote] at hnote₂
      cases hnote₂
      rfl
    obtain ⟨kid, hkid⟩ := hkey.typeOf
    obtain ⟨kt, hkt⟩ := Heap.Sound.typeObject hs hkid
    rw [← hheap] at hkid
    rw [← hregistry] at hkt
    rw [perform, hrun]
    apply Given.told
    apply given_byteAt hbyte
    rw [run_bytesGet_of_toIndex hkid hkt hindex hb, Position.checked_of_inRange hi]
  | @byPosition r i data b hb hi hbyte =>
    have hlt := (List.getElem?_eq_some_iff.1 hbyte).1
    have hneg : ¬ i < 0 := by simpa [Int64.lt_iff_toInt_lt] using hi
    have hposition : Position.absolute i data.length = some i.toInt.toNat := by
      rw [Position.absolute, if_neg hneg, if_pos hlt]
    have hdata : (bytesData (.ref r) : SlotAction υ (List UInt8)).run c.machine =
        .done data c.machine := run_part hb rfl
    apply given_byteAt hbyte
    simp [callGetAt, bytesGetAt, hdata, hposition]

theorem ownIndex_done (u : IndexUse) (key : Value) :
    (ownIndex H u key).Ends m False (fun i m₁ => (toIndex H key).run m = .done i m₁)
      fun _ _ => True := by
  simp only [ownIndex, ends_bind]
  apply isIndexLike_ends False.elim
  intro like
  apply ends_ite
  · intro _
    rw [ends_passOn]
    exact (ends_run _ m).mono (fun _ _ hrun => hrun) fun _ _ _ => trivial
  · intro _
    simp only [ends_bind, ends_complain]
    exact nameOfType_ends False.elim fun _ => trivial

theorem byteAt_done {P : Prop} {p : Option Nat} (hbyte : ∀ p' b, p = some p' → data[p']? = some b → P) :
    (byteAt data p : SlotAction υ Value).Ends m False (fun _ _ => P) fun _ _ => True := by
  cases p with
  | none => exact trivial
  | some p =>
    simp only [byteAt, ends_bind]
    apply ends_liftM False.elim
    intro b hb
    have hP := hbyte p b rfl (atPosition_eq_ok.1 hb)
    exact (ends_run _ m).mono (fun _ _ _ => hP) fun _ _ _ => trivial

theorem bytesGet_done :
    (settle (bytesGet H (.ref r) key)).Ends m False
      (fun _ _ => ∃ i m₁ data b, (toIndex H key).run m = .done i m₁ ∧
        m₁.heap.body r = .ok (.bytes data) ∧ Position.InRange i.toInt data.length ∧
        data[Position.ofInteger i.toInt data.length]? = some b) fun _ _ => True := by
  simp only [bytesGet, ends_settle, ends_bind]
  apply (ownIndex_done .bytes key).mono
  · intro i m₁ hindex
    apply part_ends bytes?_eq_some False.elim
    intro r' data hr hb
    cases hr
    apply byteAt_done
    intro p b hp hbyte
    by_cases hi : Position.InRange i.toInt data.length
    · rw [Position.checked_of_inRange hi] at hp
      cases hp
      exact ⟨i, m₁, data, b, hindex, hb, hi, hbyte⟩
    · rw [Position.checked_of_not_inRange hi] at hp
      cases hp
  · exact fun _ _ _ => trivial

/-- Whoever owns a byte string can call its slot by position. -/
theorem admitted_callAt (hs : c.Sound) (hr : r ∈ c.owned)
    (hb : c.machine.heap.body r = .ok (.bytes data)) (hquiet : c.machine.pending = {}) (i : Int64) :
    (callAt (.builtin .bytesGetAt) (.ref r) i).Admitted c := by
  obtain ⟨model, ht⟩ := (Heap.Sound.built hs).get? .bytes
  refine ⟨fun s hrs => ?_, ⟨_, _, Heap.typeOf_ref hb, ht, rfl⟩, hquiet⟩
  cases hrs
  exact hr

theorem exists_byKey {vs : List Value} (hs : m.heap.Sound m.registry owned)
    (hq : q.Reads m (.ref r) key op) (hkey : m.heap.Present key) (hquiet : m.pending = {})
    (htype : m.heap.typeOf (.ref r) = .ok BuiltinKind.bytes.typeId)
    (hdone : (q.perform H).run m = .done vs m') : ∃ m₁ b, (ask q).ReadsByte H m m₁ b := by
  obtain ⟨m₀, hnote, -, -, hrun⟩ := run_perform_of_reads (H := H) hs hq hkey hquiet htype
  rw [hrun, run_map] at hdone
  cases hget : (settle (bytesGet H (.ref r) key)).run m₀ with
  | done v m₂ =>
    obtain ⟨i, m₁, data, b, hindex, hb, hi, hbyte⟩ := bytesGet_done.done hget
    exact ⟨m₁, b, .byKey hq htype hnote hindex hb hi hbyte⟩
  | failed f m₂ =>
    rw [hget] at hdone
    cases hdone
  | fault f =>
    rw [hget] at hdone
    cases hdone

theorem exists_direct {vs : List Value} (hmodel : m.settings.textModel = .byteString)
    (hb : m.heap.body r = .ok (.bytes data))
    (hdone : (((fun v => [v]) <$> lookupConst H (.ref r) key i).run m).told .getConst = .done vs m') :
    ∃ b, (ask (.getConst (.ref r) key i)).ReadsByte H m m b := by
  by_cases hi : Position.InRange i.toInt data.length
  · have hbyte := List.getElem?_eq_getElem (Position.ofInteger_lt hi)
    exact ⟨_, .direct hmodel hb hi hbyte⟩
  · have hrun : (lookupConst H (.ref r) key i).run m =
        .failed (.ofComplaint (.outOfRange .bytes)) m := by
      simp [lookupConst, run_readHeap (f := (·.body r)) hb, hmodel, directByte,
        Position.checked_of_not_inRange hi, refuse]
    rw [run_map, hrun] at hdone
    cases hdone

theorem exists_byPosition {vs : List Value} (hb : m.heap.body r = .ok (.bytes data))
    (hdone : ((callAt (.builtin .bytesGetAt) (.ref r) i).perform H).run m = .done vs m') :
    ∃ b, (callAt (.builtin .bytesGetAt) (.ref r) i).ReadsByte H m m b := by
  have hdata : (bytesData (.ref r) : SlotAction υ (List UInt8)).run m = .done data m :=
    run_part hb rfl
  by_cases hi : 0 ≤ i.toInt ∧ i.toInt.toNat < data.length
  · have hbyte := List.getElem?_eq_getElem hi.2
    exact ⟨_, .byPosition hb hi.1 hbyte⟩
  · have hnone : Position.absolute i data.length = none := by
      have hneg : i < 0 ↔ i.toInt < 0 := by simp [Int64.lt_iff_toInt_lt]
      unfold Position.absolute
      split
      case isTrue => rfl
      case isFalse hpos =>
        rw [hneg] at hpos
        rw [if_neg]
        intro hlt
        exact hi ⟨by omega, hlt⟩
    simp [perform, callGetAt, bytesGetAt, Machine.settle, hdata, hnone, byteAt, complain, raise,
      recordPending, takePending] at hdone

/-- A read of a byte string that is done has read a byte. -/
theorem exists_readsByte {vs : List Value} (hs : c.Sound) (hd : d.Admitted c) (hfrom : d.ReadsFrom r)
    (hb : c.machine.heap.body r = .ok (.bytes data))
    (hdone : (d.perform H).run c.machine = .done vs m') :
    ∃ m₁ b, d.ReadsByte H c.machine m₁ b := by
  have htype : c.machine.heap.typeOf (.ref r) = .ok BuiltinKind.bytes.typeId := Heap.typeOf_ref hb
  cases hfrom with
  | get key =>
    obtain ⟨hborrowed, hquiet⟩ := hd.access .get
    have hkey : c.machine.heap.Present key :=
      Heap.Sound.present hs (hborrowed key (by simp [Request.borrowed]))
    exact exists_byKey hs .get hkey hquiet htype hdone
  | getConst key i =>
    obtain ⟨hborrowed, hquiet⟩ := hd.access (.getConst i)
    have hkey : c.machine.heap.Present key :=
      Heap.Sound.present hs (hborrowed key (by simp [Request.borrowed]))
    by_cases hmodel : c.machine.settings.textModel = .byteString
    · rw [perform, Request.run_perform_getConst (Heap.present_of_typeOf htype) hkey hquiet] at hdone
      obtain ⟨b, hread⟩ := exists_direct hmodel hb hdone
      exact ⟨_, b, hread⟩
    · have hnot : ¬ c.machine.Direct (.ref r) := by
        rintro (⟨_, _, hr, hlist⟩ | ⟨-, htext⟩)
        · cases hr
          cases hb.symm.trans hlist
        · exact hmodel htext
      exact exists_byKey hs (.getConst i hnot) hkey hquiet htype hdone
  | callAt s i =>
    obtain ⟨-, ⟨id, t, hid, ht, hslot⟩, -⟩ := hd
    obtain ⟨model, hbytes⟩ := (Heap.Sound.built hs).get? .bytes
    obtain rfl := Except.ok.inj (htype.symm.trans hid)
    obtain rfl := Option.some.inj (hbytes.symm.trans ht)
    cases hslot
    obtain ⟨b, hread⟩ := exists_byPosition hb hdone
    exact ⟨_, b, hread⟩

end Deed

end ItemAccess
