import ItemAccess.Proofs.Store.Ledger
import Mathlib.Algebra.GroupWithZero.Nat

/-!
# The history of a store

A history takes a store apart into its smallest changes. It counts the objects made on the way and
knows the largest number of objects that were in use at one moment. Slots are recycled: the free list
names every empty slot once. Hence there are as many slots as there ever were objects at one moment,
and as many allocations as there were objects made.
-/

namespace ItemAccess

/-- What the use of some bytes is charged: nothing, unless memory is limited. -/
def Limits.charge (l : Limits) (bytes : Nat) : Nat :=
  if l.memory.isSome then bytes else 0

namespace Meter

theorem grow_cases {m m' : Meter} {bytes charge : Nat} (hg : m.grow bytes = .ok (charge, m')) :
    charge = m.limits.charge bytes ∧ m' = { m with memory := m.memory + charge } ∧
      ∀ limit ∈ m.limits.memory, m.memory + charge ≤ limit.toNat := by
  unfold grow at hg
  unfold Limits.charge
  cases hlimit : m.limits.memory with
  | none =>
    simp only [hlimit, Except.ok.injEq, Prod.mk.injEq] at hg
    obtain ⟨rfl, rfl⟩ := hg
    simp
  | some limit =>
    simp only [hlimit] at hg
    split at hg
    case isTrue => cases hg
    case isFalse hle =>
      simp only [Except.ok.injEq, Prod.mk.injEq] at hg
      obtain ⟨rfl, rfl⟩ := hg
      simpa using Nat.le_of_not_lt hle

/-- An allocation that is not refused is charged, and counted. -/
theorem counted_cases {m m' : Meter} {bytes charge : Nat} (hc : (do
      let (charge, m) ← m.grow bytes
      return (charge, { m with allocations := m.allocations + 1 }) :
        Except LimitError (Nat × Meter)) = .ok (charge, m')) :
    ∃ m₁, m.grow bytes = .ok (charge, m₁) ∧
      m' = { m₁ with allocations := m₁.allocations + 1 } := by
  cases hg : m.grow bytes with
  | error e => simp [hg, bind, Except.bind] at hc
  | ok q =>
    obtain ⟨charge₁, m₁⟩ := q
    simp only [hg, bind, Except.bind, pure, Except.pure, Except.ok.injEq, Prod.mk.injEq] at hc
    obtain ⟨rfl, rfl⟩ := hc
    exact ⟨m₁, rfl, rfl⟩

theorem allocate_cases {m m' : Meter} {bytes charge : Nat}
    (ha : m.allocate bytes = .ok (charge, m')) :
    charge = m.limits.charge bytes ∧
      m' = { m with allocations := m.allocations + 1, memory := m.memory + charge } ∧
      (∀ limit ∈ m.limits.memory, m.memory + charge ≤ limit.toNat) ∧
      ∀ limit ∈ m.limits.allocations, m.allocations + 1 ≤ limit.toNat := by
  unfold allocate at ha
  cases hlimit : m.limits.allocations with
  | none =>
    simp only [hlimit] at ha
    obtain ⟨m₁, hg, rfl⟩ := counted_cases ha
    obtain ⟨hcharge, rfl, hmemory⟩ := grow_cases hg
    exact ⟨hcharge, rfl, hmemory, by simp⟩
  | some limit =>
    simp only [hlimit] at ha
    split at ha
    case isTrue => cases ha
    case isFalse hle =>
      obtain ⟨m₁, hg, rfl⟩ := counted_cases ha
      obtain ⟨hcharge, rfl, hmemory⟩ := grow_cases hg
      refine ⟨hcharge, rfl, hmemory, ?_⟩
      rintro _ ⟨⟩
      exact Nat.lt_of_not_le hle

end Meter

theorem Body.kindName_mem (b : Body) : b.kindName ∈ Body.kindNames := by
  cases b <;> simp [Body.kindName, Body.kindNames]

namespace Heap

variable {h h' start : Heap} {r s : Handle} {e e' : Entry} {b : Body} {n p bytes : Nat}

/-- A change that makes no object. It cuts nothing off: what is given back to the meter is in use, and
an object gives back just what it was charged for beyond its size. -/
inductive Alters : Heap → Heap → Prop
  | write {h : Heap} {r : Handle} {e e' : Entry} (he : h.lookup? r = some e)
    (hc : e'.charge = e.charge) : Alters h (h.put r e')
  | vacate {h : Heap} {r : Handle} {e : Entry} (he : h.lookup? r = some e)
    (hm : e.charge ≤ h.meter.memory) : Alters h (h.vacate r e.charge)
  | grow {h h' : Heap} {r : Handle} {bytes : Nat} (hg : h.grow r bytes = .ok (.ok h')) : Alters h h'
  | shrink {h h' : Heap} {r : Handle} {e : Entry} {bytes : Nat} (he : h.lookup? r = some e)
    (hs : h.shrink r bytes = .ok h')
    (hx : e.charge = h.meter.limits.charge e.body.size + h.meter.limits.charge bytes)
    (hc : min e.charge bytes = h.meter.limits.charge bytes)
    (hm : min e.charge bytes ≤ h.meter.memory) : Alters h h'
  | keep (h : Heap) (b : UInt8) (r : Handle) :
    Alters h { h with byteStrings := (b, r) :: h.byteStrings }

/-- The changes from one store to another, with the number of objects made and the largest number of
objects in use at any moment. -/
inductive History (start : Heap) : Nat → Nat → Heap → Prop
  | refl : History start 0 start.live start
  | alter {n p : Nat} {h h' : Heap} (hh : History start n p h) (ha : h.Alters h') :
    History start n (max p h'.live) h'
  | create {n p : Nat} {h h' : Heap} {b : Body} {r : Handle} (hh : History start n p h)
    (ha : h.allocate b = .ok (.ok (r, h'))) : History start (n + 1) (max p h'.live) h'

theorem live_eq_total (h : Heap) : h.live = h.total fun _ => 1 := by
  unfold live total
  rw [← Array.countP_toList]
  induction h.slots.toList with
  | nil => rfl
  | cons slot slots ih => cases slot <;> simp [ih, Nat.add_comm]

theorem live_put (he : h.lookup? r = some e) (e' : Entry) : (h.put r e').live = h.live := by
  have := total_put he (fun _ => 1) e'
  simp only [live_eq_total]
  omega

theorem live_vacate (he : h.lookup? r = some e) (charge : Nat) :
    (h.vacate r charge).live + 1 = h.live := by
  simp only [live_eq_total]
  exact total_vacate he (fun _ => 1) charge

theorem live_allocate (hf : h.FreeListed) (ha : h.allocate b = .ok (.ok (r, h'))) :
    h'.live = h.live + 1 := by
  obtain ⟨charge, htotal⟩ := total_allocate hf ha
  simp only [live_eq_total]
  exact htotal fun _ => 1

/-- The objects in use, counted by kind, add up to all of them. -/
theorem sum_census (h : Heap) : (h.census.map (·.2)).sum = h.live := by
  have hcensus : (h.census.map (·.2)).sum =
      (Body.kindNames.map fun name => h.bodies.countP (·.kindName == name)).sum := by
    unfold census
    induction Body.kindNames with
    | nil => rfl
    | cons name names ih =>
      cases hn : h.bodies.countP (·.kindName == name) <;> simp [hn, ih]
  have hlive : h.live = h.bodies.length := by
    unfold live bodies
    rw [← Array.countP_toList]
    induction h.slots.toList with
    | nil => rfl
    | cons slot slots ih => cases slot <;> simp [ih]
  rw [hcensus, hlive]
  induction h.bodies with
  | nil => rfl
  | cons b bodies ih =>
    simp only [Body.kindNames, List.map_cons, List.map_nil, List.sum_cons, List.sum_nil,
      List.countP_cons, List.length_cons] at ih ⊢
    have hkind := b.kindName_mem
    simp only [Body.kindNames, List.mem_cons, List.not_mem_nil, or_false] at hkind
    rcases hkind with hk | hk | hk | hk | hk | hk <;> simp [hk] <;> omega

/-- Every empty slot is on the free list, once, and only empty slots are. -/
structure Recycled (h : Heap) : Prop extends FreeListed h where
  complete : ∀ r : Handle, h.slots[r.index]? = some none → r ∈ h.free
  balance : h.live + h.free.length = h.slots.size

theorem empty_recycled (limits : Limits) : (Heap.empty limits).Recycled where
  empty := fun r hr => by simp [Heap.empty] at hr
  nodup := List.nodup_nil
  complete := fun r hr => by simp [Heap.empty] at hr
  balance := rfl

theorem Recycled.count_free (hr : h.Recycled) (r : Handle) :
    h.free.count r = if h.slots[r.index]? = some none then 1 else 0 := by
  by_cases hslot : h.slots[r.index]? = some none
  · rw [if_pos hslot]
    exact List.count_eq_one_of_mem hr.nodup (hr.complete r hslot)
  · rw [if_neg hslot]
    apply List.count_eq_zero_of_not_mem
    intro hmem
    exact hslot (hr.empty r hmem)

theorem Recycled.put (hr : h.Recycled) (he : h.lookup? r = some e) (e' : Entry) :
    (h.put r e').Recycled where
  toFreeListed := hr.toFreeListed.put he e'
  complete := by
    intro s hs
    have hne : r.index ≠ s.index := by
      intro heq
      obtain ⟨hlt, -⟩ := Array.getElem?_eq_some_iff.1 (lookup?_eq_some.1 he)
      simp [Heap.put, ← heq, hlt] at hs
    rw [Heap.put, Array.getElem?_setIfInBounds_ne hne] at hs
    exact hr.complete s hs
  balance := by
    rw [live_put he]
    simpa [Heap.put] using hr.balance

theorem Recycled.vacate (hr : h.Recycled) (he : h.lookup? r = some e) (charge : Nat) :
    (h.vacate r charge).Recycled where
  toFreeListed := hr.toFreeListed.vacate he charge
  complete := by
    intro s hs
    by_cases hsr : s = r
    · subst hsr
      exact List.mem_cons_self
    · have hne : r.index ≠ s.index := fun heq => hsr (Handle.index_inj.1 heq).symm
      rw [Heap.vacate, Array.getElem?_setIfInBounds_ne hne] at hs
      exact List.mem_cons_of_mem r (hr.complete s hs)
  balance := by
    have hlive := live_vacate he charge
    have hbalance := hr.balance
    simp only [Heap.vacate, List.length_cons, Array.size_setIfInBounds] at hlive ⊢
    omega

theorem Recycled.allocate (hr : h.Recycled) (ha : h.allocate b = .ok (.ok (r, h'))) :
    h'.Recycled where
  toFreeListed := hr.toFreeListed.allocate ha
  complete := by
    obtain ⟨charge, meter, -, ⟨free, hfree, hlt, rfl⟩ | ⟨hfree, rfl, rfl⟩⟩ := allocate_cases ha
    · intro s hs
      have hne : r.index ≠ s.index := by
        intro heq
        simp [← heq, hlt] at hs
      rw [Array.getElem?_setIfInBounds_ne hne] at hs
      have hmem := hr.complete s hs
      rw [hfree, List.mem_cons] at hmem
      rcases hmem with rfl | hmem
      · exact absurd rfl hne
      · exact hmem
    · intro s hs
      rw [Array.getElem?_push] at hs
      split at hs
      · cases hs
      · exact hr.complete s hs
  balance := by
    have hlive := live_allocate hr.toFreeListed ha
    have hbalance := hr.balance
    obtain ⟨charge, meter, -, ⟨free, hfree, hlt, rfl⟩ | ⟨hfree, rfl, rfl⟩⟩ := allocate_cases ha
    · simp only [hfree, List.length_cons, Array.size_setIfInBounds] at hlive hbalance ⊢
      omega
    · simp only [hfree, List.length_nil, Array.size_push] at hlive hbalance ⊢
      omega

/-- Neither the meter nor the known strings have to do with the slots. -/
theorem Recycled.of_slots (hr : h.Recycled) (hslots : h'.slots = h.slots) (hfree : h'.free = h.free) :
    h'.Recycled where
  empty := by rw [hslots, hfree]; exact hr.empty
  nodup := by rw [hfree]; exact hr.nodup
  complete := by rw [hslots, hfree]; exact hr.complete
  balance := by
    have hlive : h'.live = h.live := by rw [live, live, hslots]
    rw [hlive, hslots, hfree]
    exact hr.balance

theorem Alters.recycled (ha : h.Alters h') (hr : h.Recycled) : h'.Recycled := by
  have hmeter (meter : Meter) : { h with meter := meter }.Recycled := hr.of_slots rfl rfl
  cases ha with
  | write he _ => exact hr.put he _
  | vacate he _ => exact hr.vacate he _
  | grow hg =>
    obtain ⟨charge, meter, e, -, he, rfl⟩ := grow_cases hg
    exact (hmeter meter).put he _
  | shrink _ hs _ _ _ =>
    obtain ⟨e, he, rfl⟩ := shrink_cases hs
    exact (hmeter (h.meter.free _)).put he _
  | keep b r => exact hr.of_slots rfl rfl

theorem Alters.size (ha : h.Alters h') : h'.slots.size = h.slots.size := by
  cases ha with
  | write he _ => simp [put]
  | vacate he _ => simp [Heap.vacate]
  | grow hg =>
    obtain ⟨charge, meter, e, -, he, rfl⟩ := grow_cases hg
    simp [put]
  | shrink _ hs _ _ _ =>
    obtain ⟨e, he, rfl⟩ := shrink_cases hs
    simp [put]
  | keep b r => rfl

theorem Alters.meter (ha : h.Alters h') : h'.meter.limits = h.meter.limits ∧
    h'.meter.allocations = h.meter.allocations := by
  cases ha with
  | write he _ => exact ⟨rfl, rfl⟩
  | vacate he _ => exact ⟨rfl, rfl⟩
  | grow hg =>
    obtain ⟨charge, meter, e, hm, he, rfl⟩ := grow_cases hg
    obtain ⟨-, rfl, -⟩ := Meter.grow_cases hm
    exact ⟨rfl, rfl⟩
  | shrink _ hs _ _ _ =>
    obtain ⟨e, he, rfl⟩ := shrink_cases hs
    exact ⟨rfl, rfl⟩
  | keep b r => exact ⟨rfl, rfl⟩

theorem meter_allocate (ha : h.allocate b = .ok (.ok (r, h'))) :
    h'.meter.limits = h.meter.limits ∧ h'.meter.allocations = h.meter.allocations + 1 := by
  obtain ⟨charge, meter, hm, hcases⟩ := allocate_cases ha
  obtain ⟨-, rfl, -⟩ := Meter.allocate_cases hm
  rcases hcases with ⟨free, -, -, rfl⟩ | ⟨-, -, rfl⟩ <;> exact ⟨rfl, rfl⟩

/-- A new slot is only made when all slots are in use. -/
theorem size_allocate (hr : h.Recycled) (ha : h.allocate b = .ok (.ok (r, h'))) :
    h'.slots.size = max h.slots.size h'.live := by
  have hbalance := hr.balance
  have hbalance' := (hr.allocate ha).balance
  have hlive := live_allocate hr.toFreeListed ha
  obtain ⟨charge, meter, -, ⟨free, hfree, -, rfl⟩ | ⟨hfree, -, rfl⟩⟩ := allocate_cases ha
  · simp only [Array.size_setIfInBounds] at hbalance' ⊢
    omega
  · simp only [hfree, List.length_nil, Array.size_push] at hbalance hbalance' ⊢
    omega

namespace History

theorem recycled (hh : History start n p h) (hr : start.Recycled) : h.Recycled := by
  induction hh with
  | refl => exact hr
  | alter _ ha ih => exact ha.recycled ih
  | create _ ha ih => exact ih.allocate ha

/-- There are as many slots as there were objects in use at one moment. -/
theorem size (hh : History start n p h) (hr : start.Recycled) :
    h.slots.size = max start.slots.size p := by
  induction hh with
  | refl =>
    have := hr.balance
    omega
  | @alter n p h h' hh ha ih =>
    have hbalance := (ha.recycled (hh.recycled hr)).balance
    have hsize := ha.size
    omega
  | create hh ha ih =>
    have hsize := size_allocate (hh.recycled hr) ha
    omega

/-- Every object that is made is counted as an allocation. -/
theorem allocations (hh : History start n p h) :
    h.meter.limits = start.meter.limits ∧ h.meter.allocations = start.meter.allocations + n := by
  induction hh with
  | refl => exact ⟨rfl, rfl⟩
  | alter _ ha ih => exact ⟨ha.meter.1.trans ih.1, ha.meter.2.trans ih.2⟩
  | create _ ha ih =>
    obtain ⟨hlimits, hcount⟩ := meter_allocate ha
    exact ⟨hlimits.trans ih.1, by omega⟩

end History

end Heap

end ItemAccess
