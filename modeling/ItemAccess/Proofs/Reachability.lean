import ItemAccess.Proofs.ReferenceCounts
import ItemAccess.Proofs.Store.Reach
import ItemAccess.Proofs.StoreAccounts

/-!
# Nothing leaks unless it holds itself

A client that uses what it owns, and meets no limit when it makes containers, has exact counts. As
long as no object leads back to itself, the objects in use are then those that can be reached from
what the client owns or from the one-byte strings that the store keeps. When the client has given
everything back, only these strings are left, and they are all that memory is charged for.
-/

namespace ItemAccess

open Machine

variable {υ : SlotKind → Type} {H : Host υ} {s : Settings} {c c' : Client υ} {q : Request υ}

def Discipline.pinning : Discipline υ where
  good := fun h _ owned => h.Accounted owned ∧ h.Pinned
  safe := False
  calm := fun _ => True
  writes := fun _ => True
  keyed := False
  evolving := False
  moved := fun hm h => ⟨hm.accounted h.1, hm.pinned h.1 h.2⟩
  registered := fun _ h => h
  accounted := fun h => ⟨0, by rw [add_zero]; exact h.1⟩
  sound := False.elim
  quiet := trivial

namespace Client

theorem serve_pinning (hH : H.Keeps .pinning) (hc : c.Good .pinning) (hq : c.Affordable H q)
    (hserve : c.serve H q = .ok c') : c'.Good .pinning := by
  have hkeeps := serve_keeps hH hc hq.owns (fun _ _ => .of_not_safe id) False.elim
    fun f hr hf => absurd hf (hq.granted f hr)
  exact hkeeps.1 c' hserve

theorem Reached.pinning (hH : H.Keeps .pinning) (hc : Reached H (Affordable H) s c) :
    c.Good .pinning := by
  induction hc with
  | start => exact ⟨Heap.empty_accounted s.limits, Heap.empty_pinned s.limits⟩
  | step _ hq hserve ih => exact serve_pinning hH ih hq hserve

theorem Reached.mono {admits admits' : Client υ → Request υ → Prop}
    (himp : ∀ c q, admits c q → admits' c q) (hc : Reached H admits s c) :
    Reached H admits' s c := by
  induction hc with
  | start => exact .start
  | step _ hq hserve ih => exact ih.step (himp _ _ hq) hserve

/-- As long as no object leads back to itself, an object is in use just if it can be reached from what
the client owns or from a one-byte string that the store keeps. Once the client owns nothing, the
objects in use are these strings, and the memory in use is the sum of what they are charged for. -/
theorem live_iff_reached (hH : H.Keeps .pinning) (hturning : H.Turning)
    (hc : Reached H (Affordable H) s c) (hacyclic : c.machine.heap.Acyclic) :
    (∀ r, c.machine.heap.isLive r = true ↔ ∃ x, c.machine.heap.Root c.owned x ∧
      Relation.ReflTransGen c.machine.heap.Holds x r) ∧
    (c.owned = 0 →
      (∀ r, c.machine.heap.isLive r = true ↔ ∃ b, (b, r) ∈ c.machine.heap.byteStrings) ∧
      (∀ b r, (b, r) ∈ c.machine.heap.byteStrings → c.machine.heap.body r = .ok (.bytes [b])) ∧
      c.machine.heap.meter.memory = c.machine.heap.total (·.charge)) := by
  obtain ⟨ha, hp⟩ := hc.pinning hH
  have hreached := ha.isLive_iff_reached hacyclic
  refine ⟨hreached, fun howned => ⟨fun r => ?_, hp, ?_⟩⟩
  · constructor
    · intro hr
      obtain ⟨x, hroot, hpath⟩ := (hreached r).1 hr
      obtain ⟨b, hx⟩ : ∃ b, (b, x) ∈ c.machine.heap.byteStrings := by
        simpa [Heap.Root, howned] using hroot
      -- a one-byte string holds nothing, so no way leads on from it
      obtain ⟨e, he, hbody⟩ := Heap.body_eq_ok.1 (hp b x hx)
      cases hpath.cases_head with
      | inl heq => exact ⟨b, heq ▸ hx⟩
      | inr hstep =>
        obtain ⟨y, ⟨e', he', hmem⟩, -⟩ := hstep
        obtain rfl : e = e' := Option.some.inj (he.symm.trans he')
        rw [hbody] at hmem
        cases hmem
    · rintro ⟨b, hr⟩
      exact Heap.isLive_iff.2 (ha.exists_of_kept hr)
  · obtain ⟨-, -, hmetered⟩ := (hc.mono fun _ _ _ => trivial).chronicle hturning
    exact hmetered.memory

/-- Where objects hold only what stands in earlier slots, none leads back to itself. -/
theorem acyclic_of_earlier {h : Heap}
    (hearlier : ∀ i ∈ List.range h.slots.size, ∀ e ∈ h.lookup? ⟨i⟩, ∀ v ∈ e.body.children,
      ∀ r ∈ v.handle?, r.index < i) : h.Acyclic := by
  have hlt (x r : Handle) (hx : Relation.TransGen h.Holds x r) : r.index < x.index := by
    have hstep (x r : Handle) (hx : h.Holds x r) : r.index < x.index := by
      obtain ⟨e, he, hmem⟩ := hx
      have hx := (Array.getElem?_eq_some_iff.1 (Heap.lookup?_eq_some.1 he)).1
      exact hearlier x.index (List.mem_range.2 hx) e he _ hmem r rfl
    induction hx with
    | single hx => exact hstep _ _ hx
    | tail _ hy ih => exact (hstep _ _ hy).trans ih
  exact fun r hr => (hlt r r hr).false

/-- A tuple is shared between a list and a dict, under a key that is an instance; a byte of the string
in it is read through a slot of the host. -/
def sharedRun : List (Request HostSlot) :=
  [.newBytes [0x61, 0x62], .clone (.ref ⟨0⟩), .newTuple [.ref ⟨0⟩, .int 1], .clone (.ref ⟨1⟩),
    .register { name := "Inner", mapping := some { get := some (.host .innerGet) } },
    .newInstance ⟨8⟩ [.ref ⟨0⟩], .get (.ref ⟨2⟩) (.int (-1)), .clone (.ref ⟨3⟩),
    .newList [.ref ⟨1⟩, .ref ⟨3⟩], .newDict [(.ref ⟨2⟩, .ref ⟨1⟩)], .drop (.ref ⟨3⟩)]

theorem live_iff_reached_sharedRun :
    (∃ c, Reached (HostSlot.host 2) (Affordable (HostSlot.host 2))
        { limits := { memory := some 1000 } } c ∧ c.machine.heap.live = 6 ∧ c.owned = {⟨4⟩, ⟨5⟩} ∧
      ∃ x, c.machine.heap.Root c.owned x ∧ Relation.ReflTransGen c.machine.heap.Holds x ⟨0⟩) ∧
    ∃ c, Reached (HostSlot.host 2) (Affordable (HostSlot.host 2))
        { limits := { memory := some 1000 } } c ∧ c.owned = 0 ∧
      (∀ r, c.machine.heap.isLive r = true ↔ ∃ b, (b, r) ∈ c.machine.heap.byteStrings) ∧
      c.machine.heap.body ⟨3⟩ = .ok (.bytes [0x62]) ∧
      c.machine.heap.total (·.charge) = 89 := by
  have hrun : ((follow (HostSlot.host 2) (Affordable (HostSlot.host 2))
      (start { limits := { memory := some 1000 } }) sharedRun).any fun c =>
        c.machine.heap.live = 6 ∧ c.owned = {⟨4⟩, ⟨5⟩} ∧ c.machine.heap.isLive ⟨0⟩ = true ∧
        ∀ i ∈ List.range c.machine.heap.slots.size, ∀ e ∈ c.machine.heap.lookup? ⟨i⟩,
          ∀ v ∈ e.body.children, ∀ r ∈ v.handle?, r.index < i) = true := by decide +kernel
  have hempty : ((follow (HostSlot.host 2) (Affordable (HostSlot.host 2))
      (start { limits := { memory := some 1000 } })
      (sharedRun ++ [.drop (.ref ⟨4⟩), .drop (.ref ⟨5⟩)])).any fun c =>
        c.owned = 0 ∧ (0x62, ⟨3⟩) ∈ c.machine.heap.byteStrings ∧ c.machine.heap.meter.memory = 89 ∧
        ∀ i ∈ List.range c.machine.heap.slots.size, ∀ e ∈ c.machine.heap.lookup? ⟨i⟩,
          ∀ v ∈ e.body.children, ∀ r ∈ v.handle?, r.index < i) = true := by decide +kernel
  have hkeeps : (HostSlot.host 2).Keeps .pinning := HostSlot.host_keeps id 2
  constructor
  · obtain ⟨c, hc, hlive, howned, hstring, hearlier⟩ := exists_reached hrun
    obtain ⟨hreached, -⟩ :=
      live_iff_reached hkeeps (HostSlot.host_turning 2) hc (acyclic_of_earlier hearlier)
    exact ⟨c, hc, hlive, howned, (hreached ⟨0⟩).1 hstring⟩
  · obtain ⟨c, hc, howned, hkept, hmemory, hearlier⟩ := exists_reached hempty
    obtain ⟨-, hnothing⟩ :=
      live_iff_reached hkeeps (HostSlot.host_turning 2) hc (acyclic_of_earlier hearlier)
    obtain ⟨hlive, hbytes, htotal⟩ := hnothing howned
    exact ⟨c, hc, howned, hlive, hbytes _ _ hkept, htotal.symm.trans hmemory⟩

end Client

end ItemAccess
