import ItemAccess.Proofs.Script.HostSlot

/-!
# The accounts of a store are exact

Here a client may ask for anything, also with handles that it does not own or that are not in use any
more. As long as there is no fault its store changes by turns. So the meter agrees with the objects
after every request, and slots are recycled: there are as many of them as there were objects in use at
one moment of the run.
-/

namespace ItemAccess.Client

open Machine

variable {υ : SlotKind → Type} {H : Host υ} {s : Settings} {c c' : Client υ} {q : Request υ}
  {made peak : Nat}

/-- A run together with a history of the store during every request. It counts the objects made and
knows the largest number of objects that were in use at one moment. -/
inductive Chronicle (H : Host υ) (s : Settings) : Nat → Nat → Client υ → Prop
  | start : Chronicle H s 0 0 (start s)
  | step {made peak made' peak' : Nat} {c c' : Client υ} {q : Request υ}
    (hc : Chronicle H s made peak c) (hserve : c.serve H q = .ok c')
    (hh : c.machine.heap.History made' peak' c'.machine.heap) :
    Chronicle H s (made + made') (max peak peak') c'

/-- A request changes the store by turns, whether it is done or fails. -/
theorem turns_of_serve (hH : H.Turning) (hserve : c.serve H q = .ok c') :
    c.machine.heap.Turns c'.machine.heap := by
  have hturns := Request.perform_turning hH q c.machine
  rcases run_of_serve hserve with ⟨vs, hrun⟩ | ⟨f, hrun⟩
  · exact hturns.done hrun
  · exact hturns.failed hrun

/-- Every run has a chronicle, and the meter agrees with the objects after it. -/
theorem Reached.chronicle (hH : H.Turning) (hc : Reached H (fun _ _ => True) s c) :
    (∃ made peak, Chronicle H s made peak c) ∧ c.machine.heap.Recycled ∧ c.machine.heap.Metered 0 := by
  induction hc with
  | start =>
    exact ⟨⟨0, 0, .start⟩, Heap.empty_recycled s.limits, Heap.empty_metered s.limits⟩
  | step _ _ hserve ih =>
    obtain ⟨⟨made, peak, hrun⟩, hrecycled, hmetered⟩ := ih
    -- between two requests there is no gap, so the turns of the next one are exact from the start
    have hexact := (Heap.Exact.refl hrecycled hmetered).turns (turns_of_serve hH hserve)
    obtain ⟨made', peak', hh⟩ := hexact.history
    exact ⟨⟨_, _, hrun.step hserve hh⟩, hexact.recycled, hexact.metered⟩

namespace Chronicle

theorem recycled (hc : Chronicle H s made peak c) : c.machine.heap.Recycled := by
  induction hc with
  | start => exact Heap.empty_recycled s.limits
  | step _ _ hh ih => exact hh.recycled ih

theorem slots (hc : Chronicle H s made peak c) : c.machine.heap.slots.size = peak := by
  induction hc with
  | start => rfl
  | step hc _ hh ih => rw [hh.size hc.recycled, ih]

theorem allocations (hc : Chronicle H s made peak c) :
    c.machine.heap.meter.limits = s.limits ∧ c.machine.heap.meter.allocations = made := by
  induction hc with
  | start => exact ⟨rfl, rfl⟩
  | step _ _ hh ih =>
    obtain ⟨hlimits, hcount⟩ := hh.allocations
    exact ⟨hlimits.trans ih.1, by omega⟩

end Chronicle

theorem allocations_le_of_serve (hH : H.Turning) (hc : Reached H (fun _ _ => True) s c)
    (hserve : c.serve H q = .ok c') :
    c.machine.heap.meter.allocations ≤ c'.machine.heap.meter.allocations := by
  obtain ⟨-, hrecycled, hmetered⟩ := hc.chronicle hH
  obtain ⟨made, peak, hh⟩ :=
    ((Heap.Exact.refl hrecycled hmetered).turns (turns_of_serve hH hserve)).history
  obtain ⟨-, hcount⟩ := hh.allocations
  omega

/-- With a limit on memory every object is charged for its size and the meter shows their sum, within
the limit; without, nothing is charged. Nothing is cut off when charges are given back, for the run has
a chronicle, and a chronicle has no such change. -/
theorem meter_agrees_with_objects (hH : H.Turning) (hc : Reached H (fun _ _ => True) s c) :
    (∀ limit, s.limits.memory = some limit →
      (∀ r e, c.machine.heap.lookup? r = some e → e.charge = e.body.size) ∧
        c.machine.heap.meter.memory = c.machine.heap.total (·.charge) ∧
        c.machine.heap.total (·.charge) ≤ limit.toNat) ∧
      (s.limits.memory = none →
        (∀ r e, c.machine.heap.lookup? r = some e → e.charge = 0) ∧
          c.machine.heap.meter.memory = 0) ∧
      (∃ made peak, Chronicle H s made peak c) ∧
      (∀ made peak, Chronicle H s made peak c → c.machine.heap.meter.allocations = made) ∧
      (∀ q c', c.serve H q = .ok c' →
        c.machine.heap.meter.allocations ≤ c'.machine.heap.meter.allocations) ∧
      ∀ limit, s.limits.allocations = some limit →
        c.machine.heap.meter.allocations ≤ limit.toNat := by
  obtain ⟨⟨made, peak, hrun⟩, -, hmetered⟩ := hc.chronicle hH
  have hlimits := hrun.allocations.1
  have hcharge (r : Handle) (e : Entry) (he : c.machine.heap.lookup? r = some e) :
      e.charge = s.limits.charge e.body.size := by
    rw [← hlimits]
    exact hmetered.charges r e he
  refine ⟨?_, ?_, ⟨made, peak, hrun⟩, fun _ _ h => h.allocations.2,
    fun _ _ hserve => allocations_le_of_serve hH hc hserve, ?_⟩
  · intro limit hlimit
    refine ⟨fun r e he => ?_, hmetered.memory, ?_⟩
    · rw [hcharge r e he, Limits.charge, hlimit]
      rfl
    · rw [← hmetered.memory]
      exact hmetered.memoryLimit limit (hlimits ▸ hlimit)
  · intro hnone
    have hzero (r : Handle) (e : Entry) (he : c.machine.heap.lookup? r = some e) : e.charge = 0 := by
      rw [hcharge r e he, Limits.charge, hnone]
      rfl
    refine ⟨hzero, ?_⟩
    rw [hmetered.memory]
    exact Heap.total_eq_zero hzero
  · exact fun limit hlimit => hmetered.allocationLimit limit (hlimits ▸ hlimit)

/-- A dict grows and shrinks, a list loses an item, and a slot of the host makes a string; a tuple is
refused; and with a reference that it gave away, the client frees what a dict still holds. -/
def forgedRun : List (Request HostSlot) :=
  [.newBytes [0x61, 0x62], .newDict [(.ref ⟨0⟩, .int 1)], .set (.int 2) (.ref ⟨1⟩) (.int 5),
    .get (.ref ⟨0⟩) (.int 0), .newList [.int 1, .ref ⟨2⟩], .del (.ref ⟨3⟩) (.int 0),
    .del (.ref ⟨1⟩) (.int 5),
    .register { name := "Namer", mapping := some { get := some (.host .typeName) } },
    .newInstance ⟨8⟩ [.ref ⟨3⟩], .get (.ref ⟨4⟩) (.int 7), .newTuple (List.replicate 20 .none),
    .drop (.ref ⟨5⟩), .drop (.ref ⟨0⟩), .newInt (2 ^ 70)]

def tightSettings : Settings :=
  { limits := { memory := some 700, allocations := some 8 } }

theorem forgedRun_reached :
    ∃ c, Reached (HostSlot.host 2) (fun _ _ => True) tightSettings c ∧
      c.machine.heap.summary = ⟨5, 1, 6, 7, 530⟩ := by
  have hrun : ((follow (HostSlot.host 2) (fun _ _ => True) (start tightSettings) forgedRun).any
      fun c => c.machine.heap.summary = ⟨5, 1, 6, 7, 530⟩) = true := by decide +kernel
  exact exists_reached hrun

theorem meter_agrees_with_objects_forgedRun :
    ∃ c, Reached (HostSlot.host 2) (fun _ _ => True) tightSettings c ∧
      (∀ r e, c.machine.heap.lookup? r = some e → e.charge = e.body.size) ∧
      c.machine.heap.total (·.charge) = 530 ∧
      ∃ peak, Chronicle (HostSlot.host 2) tightSettings 7 peak c := by
  obtain ⟨c, hc, hsummary⟩ := forgedRun_reached
  obtain ⟨hmemory, -, ⟨made, peak, hrun⟩, hmade, -⟩ :=
    meter_agrees_with_objects (HostSlot.host_turning 2) hc
  obtain ⟨hcharges, htotal, -⟩ := hmemory 700 rfl
  obtain rfl : made = 7 := (hmade made peak hrun).symm.trans (congrArg (·.allocations) hsummary)
  exact ⟨c, hc, hcharges, htotal.symm.trans (congrArg (·.memory) hsummary), peak, hrun⟩

/-- The free list names every empty slot once, and nothing else; an allocation at any moment takes an
empty slot and leaves all objects alone; and there are as many slots as there were objects in use at
one moment of the run. -/
theorem slots_are_recycled (hH : H.Turning) (hc : Reached H (fun _ _ => True) s c) :
    (∀ r, c.machine.heap.free.count r =
        if c.machine.heap.slots[r.index]? = some none then 1 else 0) ∧
      c.machine.heap.summary.live + c.machine.heap.summary.free = c.machine.heap.summary.slots ∧
      (c.machine.heap.census.map (·.2)).sum = c.machine.heap.summary.live ∧
      (∀ n p h₁ h₂ b r, c.machine.heap.History n p h₁ → h₁.allocate b = .ok (.ok (r, h₂)) →
        h₁.lookup? r = none ∧ ∀ r', r' ≠ r → h₂.lookup? r' = h₁.lookup? r') ∧
      (∃ made peak, Chronicle H s made peak c) ∧
      ∀ made peak, Chronicle H s made peak c → c.machine.heap.summary.slots = peak := by
  obtain ⟨hrun, hrecycled, -⟩ := hc.chronicle hH
  refine ⟨hrecycled.count_free, hrecycled.balance, c.machine.heap.sum_census, ?_, hrun,
    fun _ _ h => h.slots⟩
  intro n p h₁ h₂ b r hh ha
  refine ⟨Heap.lookup?_of_allocate (hh.recycled hrecycled).toFreeListed ha, fun r' hne => ?_⟩
  obtain ⟨charge, hlookup⟩ := Heap.lookup?_allocate ha
  rw [hlookup, if_neg hne]

theorem slots_are_recycled_forgedRun :
    ∃ c, Reached (HostSlot.host 2) (fun _ _ => True) tightSettings c ∧
      (∀ r, c.machine.heap.free.count r =
        if c.machine.heap.slots[r.index]? = some none then 1 else 0) ∧
      (c.machine.heap.census.map (·.2)).sum = 5 ∧
      ∃ made, Chronicle (HostSlot.host 2) tightSettings made 6 c := by
  obtain ⟨c, hc, hsummary⟩ := forgedRun_reached
  obtain ⟨hfree, -, hcensus, -, ⟨made, peak, hrun⟩, hpeak⟩ :=
    slots_are_recycled (HostSlot.host_turning 2) hc
  obtain rfl : peak = 6 := (hpeak made peak hrun).symm.trans (congrArg (·.slots) hsummary)
  exact ⟨c, hc, hfree, hcensus.trans (congrArg (·.live) hsummary), made, hrun⟩

end ItemAccess.Client
