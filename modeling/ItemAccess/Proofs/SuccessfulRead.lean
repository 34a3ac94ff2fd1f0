import ItemAccess.Proofs.FaultFreedom
import ItemAccess.Proofs.Machine.Lookup

/-!
# A successful read adds one reference

A read that the host has no part in, and that is done, leaves one more reference to the value that was
read, and all else as it was. Only a byte that nobody has read before needs a string of its own, which
the store makes and keeps. To drop what was read undoes the read, but for that string.
-/

namespace ItemAccess

open Attempt Machine

variable {υ : SlotKind → Type} {H : Host υ} {m m' : Machine υ} {q : Request υ} {safe : Prop}
  {owned : Multiset Handle} {source key v : Value}

namespace Heap

variable {h h' : Heap} {r : Handle} {b : UInt8} {count : Nat}

inductive OneMore (h : Heap) : Value → Heap → Prop
  | immediate {v : Value} (hv : v.handle? = none) : OneMore h v h
  | counted {r : Handle} {e : Entry} (he : h.lookup? r = some e) :
    OneMore h (.ref r) (h.put r { e with count := e.count + 1 })

theorem OneMore.of_retain (hr : h.retain v = .ok h') : h.OneMore v h' := by
  cases v with
  | ref r =>
    obtain ⟨e, he, rfl⟩ := retainHandle_cases hr
    exact .counted he
  | _ =>
    cases hr
    exact .immediate rfl

/-- The second store is the first one with a new object: the string of the byte `b`, known as such, in
the slot `r` that was freed last or else in a new one. -/
structure WithByte (h : Heap) (b : UInt8) (r : Handle) (count : Nat) (h' : Heap) : Prop where
  unknown : h.byteStrings.lookup b = none
  known : h'.byteStrings = (b, r) :: h.byteStrings
  unused : h.lookup? r = none
  made : ∃ charge, h.meter.allocate (Body.bytes [b]).size = .ok (charge, h'.meter) ∧
    h'.lookup? r = some ⟨count, .bytes [b], charge⟩
  others : ∀ s, s ≠ r → h'.lookup? s = h.lookup? s
  free : h'.free = h.free.tail
  size : h'.slots.size = max h.slots.size (r.index + 1)

theorem WithByte.of_allocate {h₁ : Heap} (hf : h.FreeListed) (hb : h.byteStrings.lookup b = none)
    (ha : h.allocate (.bytes [b]) = .ok (.ok (r, h₁))) :
    h.WithByte b r 1 { h₁ with byteStrings := (b, r) :: h.byteStrings } := by
  obtain ⟨charge, hmeter, hlookup, -⟩ := allocate_spec ha
  have hplace : h₁.free = h.free.tail ∧ h₁.slots.size = max h.slots.size (r.index + 1) := by
    obtain ⟨_, _, -, ⟨free, hfree, hlt, rfl⟩ | ⟨hfree, rfl, rfl⟩⟩ := allocate_cases ha
    · simp only [hfree, List.tail_cons, Array.size_setIfInBounds, true_and]
      omega
    · simp [hfree]
  exact
    { unknown := hb
      known := rfl
      unused := lookup?_of_allocate hf ha
      made := ⟨charge, hmeter, (hlookup r).trans (if_pos rfl)⟩
      others := fun s hs => (hlookup s).trans (if_neg hs)
      free := hplace.1
      size := hplace.2 }

/-- Counting the references to the string changes nothing else. -/
theorem WithByte.recount (hw : h.WithByte b r count h') :
    ∃ e, h'.lookup? r = some e ∧ e.count = count ∧
      ∀ n, h.WithByte b r n (h'.put r { e with count := n }) := by
  obtain ⟨charge, hm, he⟩ := hw.made
  refine ⟨_, he, rfl, fun n => ⟨hw.unknown, hw.known, hw.unused, ⟨charge, hm, ?_⟩, ?_, hw.free, ?_⟩⟩
  · rw [lookup?_put he, if_pos rfl]
  · intro s hs
    rw [lookup?_put he, if_neg hs]
    exact hw.others s hs
  · rw [put, Array.size_setIfInBounds]
    exact hw.size

/-- A string that a byte gets has one more reference, or it is made with two. -/
theorem withByte_of_byteString (hf : h.FreeListed) (hb : h.byteString b = .ok (.ok (r, h'))) :
    (h.byteStrings.lookup b = some r ∧ h.retain (.ref r) = .ok h') ∨ h.WithByte b r 2 h' := by
  obtain hr | ⟨h₁, charge, hnew, ha, he, rfl⟩ := byteString_cases hb
  · exact .inl hr
  · obtain ⟨e, he', -, hcount⟩ := (WithByte.of_allocate hf hnew ha).recount
    obtain rfl : e = ⟨1, .bytes [b], charge⟩ := Option.some.inj (he'.symm.trans he)
    exact .inr (hcount 2)

/-- The store gives back one of the two references and keeps the other. -/
theorem WithByte.release (hw : h.WithByte b r 2 h') :
    ∃ h₁, h'.release (.ref r) = .ok h₁ ∧ h.WithByte b r 1 h₁ := by
  obtain ⟨e, he, hcount, hput⟩ := hw.recount
  refine ⟨_, ?_, hput 1⟩
  rw [Heap.release, releaseAll_ref he, hcount, if_pos (by decide), releaseAll]

end Heap

namespace Machine

def HoldsByte (m : Machine υ) (source : Value) (b : UInt8) : Prop :=
  ∃ r data, source = .ref r ∧ m.heap.body r = .ok (.bytes data) ∧ b ∈ data

/-- What a read hands over: a reference to a value, which may be the first one to the string of a
byte. -/
inductive Lends (m : Machine υ) (source : Value) : Value → Machine υ → Prop
  | retained {v : Value} {h' : Heap} {tracer : Tracer} (hr : m.heap.retain v = .ok h') :
    Lends m source v { m with heap := h', tracer := tracer }
  | firstByte {b : UInt8} {r : Handle} {h' : Heap} {tracer : Tracer} (hb : m.HoldsByte source b)
    (hw : m.heap.WithByte b r 2 h') :
    Lends m source (.ref r) { m with heap := h', tracer := tracer }

theorem Lends.of_tracer {tracer : Tracer} (hl : Lends { m with tracer := tracer } source v m') :
    m.Lends source v m' := by
  cases hl with
  | retained hr => exact .retained hr
  | firstByte hb hw => exact .firstByte hb hw

theorem Lends.withTracer (hl : m.Lends source v m') (tracer : Tracer) :
    m.Lends source v { m' with tracer := tracer } := by
  cases hl with
  | retained hr => exact .retained hr
  | firstByte hb hw => exact .firstByte hb hw

def Lending {ε : Type} (a : Action υ ε Value) (m : Machine υ) (source : Value) : Prop :=
  a.Ends m False (fun v m' => m.Lends source v m') fun _ _ => True

theorem retain_lending {ε : Type} (v : Value) : Lending (retain v : Action υ ε Value) m source :=
  retain_ends False.elim fun _ hr => .retained hr

theorem itemAt_lending (u : IndexUse) (items : List Value) (position : Option Nat) :
    Lending (itemAt u items position) m source := by
  cases position with
  | none => trivial
  | some p =>
    simp only [Lending, itemAt, ends_bind]
    exact ends_liftM False.elim fun v _ => retain_lending v

theorem byteString_lending (hs : m.heap.Sound m.registry owned) {b : UInt8}
    (hb : m.HoldsByte source b) : Lending (byteString b) m source := by
  simp only [Lending, Machine.byteString, ends_bind, ends_get]
  apply ends_liftM False.elim
  intro x hx
  cases x with
  | error e => trivial
  | ok p =>
    obtain ⟨r, h'⟩ := p
    rcases Heap.withByte_of_byteString hs.free hx with ⟨-, hr⟩ | hw
    · exact .retained hr
    · exact .firstByte hb hw

theorem byteAt_lending (hs : m.heap.Sound m.registry owned) {r : Handle} {data : List UInt8}
    (hdata : m.heap.body r = .ok (.bytes data)) (position : Option Nat) :
    Lending (byteAt data position) m (.ref r) := by
  cases position with
  | none => trivial
  | some p =>
    simp only [Lending, byteAt, ends_bind, ends_handle, ends_complain]
    apply ends_liftM False.elim
    intro b hb
    exact byteString_lending hs ⟨r, data, rfl, hdata, mem_of_atPosition hb⟩

/-- What follows on an index lends if it does so for every index. -/
theorem lending_ownIndex {u : IndexUse} {next : Int64 → SlotAction υ Value}
    (hs : m.heap.Sound m.registry owned) (hquiet : m.pending = {}) (hkey : m.heap.Present key)
    (hindex : m.Unserved key .asIndex) (h : ∀ i, Lending (next i) m source) :
    Lending (ownIndex H u key >>= next) m source := by
  rw [Lending, ends_bind]
  apply (ownIndex_ends hs hquiet hkey hindex).mono
  · rintro i _ rfl
    exact h i
  · intros
    trivial

theorem callGet_lending (hs : m.heap.Sound m.registry owned) (hquiet : m.pending = {})
    (hkey : m.heap.Present key) (hindex : m.Unserved key .asIndex) (b : BuiltinSlot .get) :
    Lending (callGet H (.builtin b) source key) m source := by
  cases b with
  | listGet =>
    apply lending_ownIndex hs hquiet hkey hindex
    intro i
    rw [Lending, ends_bind]
    exact part_ends list?_eq_some False.elim fun r items _ _ => itemAt_lending .list items _
  | tupleGet =>
    apply lending_ownIndex hs hquiet hkey hindex
    intro i
    rw [Lending, ends_bind]
    exact part_ends tuple?_eq_some False.elim fun r items _ _ => itemAt_lending .tuple items _
  | bytesGet =>
    apply lending_ownIndex hs hquiet hkey hindex
    intro i
    rw [Lending, ends_bind]
    apply part_ends bytes?_eq_some False.elim
    rintro r data rfl hdata
    exact byteAt_lending hs hdata _
  | dictGet =>
    simp only [Lending, callGet, dictGet]
    rw [ends_bind]
    apply hashKey_ends False.elim False.elim
    · intro k _
      rw [ends_bind]
      apply part_ends dict?_eq_some False.elim
      intro r entries _ _
      cases Dict.get? entries k with
      | some v => exact retain_lending v
      | none =>
        simp only [ends_bind, ends_complain]
        exact textOf_ends (fun _ => hs) (fun _ => hkey) fun _ => trivial
    · intros
      trivial

theorem lookup_lending (hs : m.heap.Sound m.registry owned) (hquiet : m.pending = {})
    (hsource : m.heap.Present source) (hkey : m.heap.Present key)
    (hindex : m.Unserved key .asIndex) (hget : m.Unserved source .get)
    (hgetAt : m.Unserved source .getAt) (op : Operation) :
    Lending (lookup H op source key) m source := by
  cases lookup_served hs hquiet hsource hkey hindex with
  | byKey s ho hrun =>
    obtain ⟨tracer, hrun⟩ := hrun op
    cases s with
    | host u => exact absurd ho (hget u)
    | builtin b =>
      have hlending : Lending (callGet H (.builtin b) source key) { m with tracer := tracer } source :=
        callGet_lending (m := { m with tracer := tracer }) hs hquiet hkey hindex b
      have hsettled : (settle (callGet H (.builtin b) source key)).Ends { m with tracer := tracer }
          False (fun v m' => m.Lends source v m') fun _ _ => True := by
        rw [ends_settle]
        exact hlending.mono (fun v m' hl => hl.of_tracer) fun _ _ h => h
      exact hsettled.of_run hrun
  | byPosition u i ho hrun => exact absurd ho (hgetAt u)
  | refused f hrun =>
    unfold Lending Ends
    rw [hrun op]
    trivial
  | noLength u f ho _ hrun =>
    unfold Lending Ends
    rw [hrun op]
    exact id

theorem lending_note {a : Action υ Failure Value} (ha : Lending a m source) (e : Event) :
    Lending (do let v ← a; note e; return v) m source := by
  simp only [Lending, ends_bind, ends_note, ends_pure]
  exact ha.mono (fun v m' hl => hl.withTracer _) fun _ _ h => h

theorem directItem_lending (items : List Value) (i : Int64) :
    Lending (directItem items i) m source := by
  unfold directItem
  cases Position.checked i items.length with
  | none => trivial
  | some p =>
    rw [Lending, ends_bind]
    exact ends_liftM False.elim fun v _ => lending_note (retain_lending v) _

theorem directByte_lending (hs : m.heap.Sound m.registry owned) {r : Handle} {data : List UInt8}
    (hdata : m.heap.body r = .ok (.bytes data)) (i : Int64) :
    Lending (directByte data i) m (.ref r) := by
  unfold directByte
  cases Position.checked i data.length with
  | none => trivial
  | some p =>
    rw [Lending, ends_bind]
    apply ends_liftM False.elim
    intro b hb
    apply lending_note
    rw [Lending, ends_handle]
    exact byteString_lending hs ⟨r, data, rfl, hdata, mem_of_atPosition hb⟩

theorem lookupConst_lending (hs : m.heap.Sound m.registry owned) (hquiet : m.pending = {})
    (hsource : m.heap.Present source) (hkey : m.heap.Present key)
    (hindex : m.Unserved key .asIndex) (hget : m.Unserved source .get)
    (hgetAt : m.Unserved source .getAt) (i : Int64) :
    Lending (lookupConst H source key i) m source := by
  have hslot : Lending (lookup H .getConst source key) m source :=
    lookup_lending hs hquiet hsource hkey hindex hget hgetAt .getConst
  cases source with
  | ref r =>
    simp only [Lending, lookupConst, ends_bind]
    apply readHeap_ends False.elim
    intro b hb
    cases b with
    | list items => exact directItem_lending items i
    | bytes data =>
      simp only [ends_bind, ends_get]
      exact ends_ite (fun _ => directByte_lending hs hb i) fun _ => hslot
    | _ => exact hslot
  | _ => exact hslot

theorem field_lending (obj : Value) (i : Nat) :
    (field obj i : Action υ Failure (Option Value)).Ends m False
      (fun x m' => ∀ v, x = some v → m.Lends obj v m') fun _ _ => True := by
  cases obj with
  | ref r =>
    simp only [field, ends_bind]
    apply readHeap_ends False.elim
    intro b _
    cases b with
    | inst type fields =>
      dsimp only
      cases fields[i]? with
      | none => exact fun _ hv => by cases hv
      | some v =>
        simp only [ends_bind, ends_pure]
        apply (retain_lending v).mono
        · rintro v m' hl _ ⟨⟩
          exact hl
        · exact fun _ _ h => h
    | _ => exact fun _ hv => by cases hv
  | _ => exact fun _ hv => by cases hv

/-- A read that looks at its operands first. -/
theorem lending_entered {op : Operation} {a : Action υ Failure Value} {operands : List Value}
    (ha : (∀ v ∈ operands, m.heap.Present v) → m.pending = {} → Lending a m source) :
    Lending (do enter operands; finish op a : Action υ Failure Value) m source := by
  rw [Lending, ends_bind]
  apply enter_ends False.elim
  intro hoperands hquiet
  simp only [finish, ends_handle, ends_bind, ends_note, ends_throw]
  exact ha hoperands hquiet

/-- What is left after what was read has been dropped. -/
theorem run_drop {v : Value} {h' : Heap} (hr : m.heap.release v = .ok h') :
    ((Request.drop v).perform H).run m = .done [] { m with heap := h' } := by
  simp [Request.perform, Machine.release, changeHeap, hr]

end Machine

/-- A request to read in a source that the host does not serve, with a key that the host makes no index
of, or to read a field of any object. -/
inductive Request.ReadsIn (m : Machine υ) (source : Value) : Request υ → Prop
  | get {key : Value} (hsource : m.HostFree source [.get, .getAt])
    (hkey : m.HostFree key [.asIndex]) : ReadsIn m source (.get source key)
  | getConst {key : Value} (i : Int64) (hsource : m.HostFree source [.get, .getAt])
    (hkey : m.HostFree key [.asIndex]) : ReadsIn m source (.getConst source key i)
  | field (i : Nat) : ReadsIn m source (.field source i)

theorem Request.ReadsIn.lends (hs : m.heap.Sound m.registry owned) (hq : q.ReadsIn m source) :
    (q.perform H).Ends m False (fun vs m' => ∀ v, vs = [v] → m.Lends source v m')
      fun _ _ => True := by
  have hitem {a : Action υ Failure Value} (ha : Lending a m source) :
      (do return [← a] : Action υ Failure (List Value)).Ends m False
        (fun vs m' => ∀ v, vs = [v] → m.Lends source v m') fun _ _ => True := by
    simp only [ends_bind, ends_pure]
    apply ha.mono
    · rintro v m' hl _ ⟨⟩
      exact hl
    · exact fun _ _ h => h
  cases hq with
  | @get key hsource hkey =>
    apply hitem
    apply lending_entered
    intro hoperands hquiet
    exact lookup_lending hs hquiet (hoperands source (by simp)) (hoperands key (by simp))
      (hkey.unserved hs.built (by simp)) (hsource.unserved hs.built (by simp))
      (hsource.unserved hs.built (by simp)) .get
  | @getConst key i hsource hkey =>
    apply hitem
    apply lending_entered
    intro hoperands hquiet
    exact lookupConst_lending hs hquiet (hoperands source (by simp)) (hoperands key (by simp))
      (hkey.unserved hs.built (by simp)) (hsource.unserved hs.built (by simp))
      (hsource.unserved hs.built (by simp)) i
  | field i =>
    simp only [Request.perform, ends_bind, ends_pure]
    apply (field_lending source i).mono
    · intro x m' hx v hv
      apply hx v
      cases x <;> simp_all
    · exact fun _ _ h => h

/-- A read that is done leaves one more reference to what was read, and dropping it leads back to the
machine as it was; the first read of a byte also leaves the string of this byte, with the reference
that the store keeps. -/
theorem read_adds_one_reference (hm : m.WellFormed) (hq : q.ReadsIn m source)
    (hr : (q.perform H).run m = .done [v] m') :
    m' = { m with heap := m'.heap, tracer := m'.tracer } ∧
      ((m.heap.OneMore v m'.heap ∧
          ((Request.drop v).perform H).run m' = .done [] { m with tracer := m'.tracer }) ∨
        ∃ b r h₁, m.HoldsByte source b ∧ v = .ref r ∧ m.heap.WithByte b r 2 m'.heap ∧
          ((Request.drop v).perform H).run m' =
            .done [] { m with heap := h₁, tracer := m'.tracer } ∧ m.heap.WithByte b r 1 h₁) := by
  obtain ⟨owned, hs⟩ := hm
  obtain ⟨lost, ha⟩ := hs.accounted
  have hlends : m.Lends source v m' := (hq.lends hs).done hr v rfl
  cases hlends with
  | retained hretain =>
    exact ⟨rfl, .inl ⟨.of_retain hretain, run_drop (Heap.release_retain ha hretain)⟩⟩
  | firstByte hb hw =>
    obtain ⟨h₁, hrelease, hw₁⟩ := hw.release
    exact ⟨rfl, .inr ⟨_, _, h₁, hb, rfl, hw, run_drop hrelease, hw₁⟩⟩

/-- The second byte of a string is read for the first time, with a truth value as index and bytes
metered; its own string takes the slot of a list that was dropped. -/
theorem read_adds_one_reference_recycledSlot :
    ∃ (m m' : Machine DelegateSlot) (v : Value), m.WellFormed ∧
      (Request.get (.ref ⟨0⟩) (.bool true)).ReadsIn m (.ref ⟨0⟩) ∧
      ((Request.get (.ref ⟨0⟩) (.bool true)).perform (DelegateSlot.host 2)).run m = .done [v] m' ∧
      v = .ref ⟨1⟩ ∧ m.heap.slots.size = 3 ∧ m'.heap.count? ⟨1⟩ = some 2 ∧
      m' = { m with heap := m'.heap, tracer := m'.tracer } ∧
      ((m.heap.OneMore v m'.heap ∧ ((Request.drop v).perform (DelegateSlot.host 2)).run m' =
          .done [] { m with tracer := m'.tracer }) ∨
        ∃ b r h₁, m.HoldsByte (.ref ⟨0⟩) b ∧ v = .ref r ∧ m.heap.WithByte b r 2 m'.heap ∧
          ((Request.drop v).perform (DelegateSlot.host 2)).run m' =
            .done [] { m with heap := h₁, tracer := m'.tracer } ∧ m.heap.WithByte b r 1 h₁) := by
  let H := DelegateSlot.host 2
  have hrun : ((Client.follow H Client.Careful (.start { limits := { memory := some 400 } })
      [.newBytes [0x61, 0x62], .newList [.int 1, .int 2], .newInt (2 ^ 70), .drop (.ref ⟨1⟩)]).any
        fun c => c.machine.heap.typeOf (.ref ⟨0⟩) = .ok BuiltinKind.bytes.typeId ∧
          c.machine.heap.slots.size = 3 ∧
          (((Request.get (.ref ⟨0⟩) (.bool true)).perform H).run c.machine).done?.any fun p =>
            p.1 = [.ref ⟨1⟩] ∧ p.2.heap.count? ⟨1⟩ = some 2) = true := by decide +kernel
  obtain ⟨c, hc, hsource, hsize, hdone⟩ := Client.exists_reached hrun
  obtain ⟨⟨vs, m'⟩, hdone, hp⟩ := (Option.any_eq_true _ _).1 hdone
  obtain ⟨rfl, hcount⟩ := of_decide_eq_true hp
  have hr := Outcome.done?_eq_some.1 hdone
  have hs := hc.sound (DelegateSlot.host_careful 2)
  have hkey : c.machine.heap.typeOf (.bool true) = .ok BuiltinKind.bool.typeId := rfl
  have hq : (Request.get (.ref ⟨0⟩) (.bool true)).ReadsIn c.machine (.ref ⟨0⟩) :=
    .get (.of_builtin hs.built hsource _) (.of_builtin hs.built hkey _)
  exact ⟨c.machine, m', .ref ⟨1⟩, ⟨c.owned, hs⟩, hq, hr, rfl, hsize, hcount,
    read_adds_one_reference ⟨c.owned, hs⟩ hq hr⟩

end ItemAccess
