import ItemAccess.Proofs.Attempt
import ItemAccess.Store.Release
import Mathlib.Algebra.BigOperators.Group.List.Basic
import Mathlib.Data.List.Perm.Basic

/-!
# Slots of the store, read and written

What `put`, `vacate` and `allocate` do to the entry of every handle, and to a sum over all entries.
Sums over the entries are what reference counts and charges are compared with.
-/

namespace ItemAccess

theorem Handle.index_inj {r s : Handle} : r.index = s.index ↔ r = s := by
  cases r; cases s; simp

namespace Heap

variable {h h' : Heap} {r s : Handle} {e e' : Entry} {b : Body}

theorem isLive_iff : h.isLive r = true ↔ ∃ e, h.lookup? r = some e := by
  simp [isLive, Option.isSome_iff_exists]

theorem entry_eq_ok {t : Touch} : h.entry t r = .ok e ↔ h.lookup? r = some e := by
  rw [lookup?_eq_some, entry]
  split <;> simp_all

theorem body_eq_ok : h.body r = .ok b ↔ ∃ e, h.lookup? r = some e ∧ e.body = b := by
  simp only [body, except_map_eq_ok, entry_eq_ok]

theorem body_of_lookup? (he : h.lookup? r = some e) : h.body r = .ok e.body :=
  body_eq_ok.2 ⟨e, he, rfl⟩

theorem typeOf_ref (hb : h.body r = .ok b) : h.typeOf (.ref r) = .ok b.typeId :=
  except_map_eq_ok.2 ⟨b, hb, rfl⟩

theorem lookup?_put (he : h.lookup? r = some e) (e' : Entry) (s : Handle) :
    (h.put r e').lookup? s = if s = r then some e' else h.lookup? s := by
  obtain ⟨hlt, -⟩ := Array.getElem?_eq_some_iff.1 (lookup?_eq_some.1 he)
  simp only [lookup?, put, Array.getElem?_setIfInBounds, Handle.index_inj, eq_comm (a := r)]
  split <;> simp_all

theorem body_put_of_ne {s : Handle} (hs : s ≠ r) (e' : Entry) : (h.put r e').body s = h.body s := by
  simp only [body, entry, put]
  have hidx : r.index ≠ s.index := fun heq => hs (Handle.index_inj.1 heq).symm
  rw [Array.getElem?_setIfInBounds_ne hidx]

theorem body_put (he : h.lookup? r = some e) (e' : Entry) (hb : e'.body = e.body) (s : Handle) :
    (h.put r e').body s = h.body s := by
  by_cases hs : s = r
  · subst hs
    rw [body_of_lookup? he, ← hb]
    exact body_of_lookup? (by rw [lookup?_put he, if_pos rfl])
  · exact body_put_of_ne hs e'

theorem lookup?_vacate (he : h.lookup? r = some e) (charge : Nat) (s : Handle) :
    (h.vacate r charge).lookup? s = if s = r then none else h.lookup? s := by
  obtain ⟨hlt, -⟩ := Array.getElem?_eq_some_iff.1 (lookup?_eq_some.1 he)
  simp only [lookup?, vacate, Array.getElem?_setIfInBounds, Handle.index_inj, eq_comm (a := r)]
  split <;> simp_all

/-- Writing back what a slot holds changes nothing. -/
theorem put_self (he : h.lookup? r = some e) : h.put r e = h := by
  obtain ⟨hlt, hget⟩ := Array.getElem?_eq_some_iff.1 (lookup?_eq_some.1 he)
  have hs : h.slots.setIfInBounds r.index (some e) = h.slots := by
    rw [← hget, Array.setIfInBounds, dif_pos hlt, Array.set_getElem_self]
  rw [put, hs]

/-- Of two writes to a slot the second stays. -/
theorem put_put (r : Handle) (e e' : Entry) : (h.put r e).put r e' = h.put r e' := by
  simp [put]

theorem le_total (he : h.lookup? r = some e) (f : Entry → Nat) : f e ≤ h.total f := by
  have := total_vacate he f 0
  omega

theorem foldr_add_start {α : Type} (l : List α) (f : α → Nat) (k : Nat) :
    l.foldr (fun x n => f x + n) k = l.foldr (fun x n => f x + n) 0 + k := by
  induction l with
  | nil => simp
  | cons x l ih => simp only [List.foldr_cons, ih, Nat.add_assoc]

theorem total_eq_zero {f : Entry → Nat} (hf : ∀ r e, h.lookup? r = some e → f e = 0) :
    h.total f = 0 := by
  have hslots (slot : Option Entry) (hmem : slot ∈ h.slots.toList) : slot.elim 0 f = 0 := by
    cases slot with
    | none => rfl
    | some e =>
      obtain ⟨i, hi⟩ := List.mem_iff_getElem?.1 hmem
      exact hf ⟨i⟩ e (lookup?_eq_some.2 (by simpa using hi))
  unfold total
  generalize h.slots.toList = slots at hslots
  induction slots with
  | nil => rfl
  | cons slot slots ih =>
    rw [List.foldr_cons, hslots slot List.mem_cons_self, Nat.zero_add]
    exact ih fun s hs => hslots s (List.mem_cons_of_mem slot hs)

/-- The slots on the free list are there and empty, and none is on it twice. -/
structure FreeListed (h : Heap) : Prop where
  empty : ∀ r ∈ h.free, h.slots[r.index]? = some none
  nodup : h.free.Nodup

/-- An allocation takes a charge from the meter, and then the slot freed last or a new one. -/
theorem allocate_cases (ha : h.allocate b = .ok (.ok (r, h'))) :
    ∃ charge meter, h.meter.allocate b.size = .ok (charge, meter) ∧
      ((∃ free, h.free = r :: free ∧ r.index < h.slots.size ∧ h' = { h with
          slots := h.slots.setIfInBounds r.index (some ⟨1, b, charge⟩), free := free,
          meter := meter }) ∨
        (h.free = [] ∧ r = ⟨h.slots.size⟩ ∧ h' = { h with
          slots := h.slots.push (some ⟨1, b, charge⟩), meter := meter })) := by
  unfold allocate at ha
  cases hm : h.meter.allocate b.size with
  | error e => simp [hm] at ha
  | ok p =>
    obtain ⟨charge, meter⟩ := p
    refine ⟨charge, meter, rfl, ?_⟩
    cases hfree : h.free with
    | nil =>
      simp only [hm, hfree, Except.ok.injEq, Prod.mk.injEq] at ha
      obtain ⟨hr, hh⟩ := ha
      exact .inr ⟨rfl, hr.symm, hh.symm⟩
    | cons s free =>
      simp only [hm, hfree] at ha
      split at ha
      case isTrue hlt =>
        simp only [Except.ok.injEq, Prod.mk.injEq] at ha
        obtain ⟨rfl, hh⟩ := ha
        exact .inl ⟨free, rfl, hlt, hh.symm⟩
      case isFalse => simp at ha

theorem byteStrings_allocate (ha : h.allocate b = .ok (.ok (r, h'))) :
    h'.byteStrings = h.byteStrings := by
  obtain ⟨_, _, -, ⟨_, -, -, rfl⟩ | ⟨-, -, rfl⟩⟩ := allocate_cases ha <;> rfl

/-- The new object is charged what the meter says, and stands beside all others. -/
theorem allocate_spec (ha : h.allocate b = .ok (.ok (r, h'))) :
    ∃ charge, h.meter.allocate b.size = .ok (charge, h'.meter) ∧
      (∀ s, h'.lookup? s = if s = r then some ⟨1, b, charge⟩ else h.lookup? s) ∧
      (h.FreeListed → ∀ f : Entry → Nat, h'.total f = h.total f + f ⟨1, b, charge⟩) := by
  obtain ⟨charge, meter, hm, ⟨free, hf, hlt, rfl⟩ | ⟨-, rfl, rfl⟩⟩ := allocate_cases ha
  · refine ⟨charge, hm, fun s => ?_, fun hfree f => ?_⟩
    · simp only [lookup?, Array.getElem?_setIfInBounds, Handle.index_inj, eq_comm (a := r)]
      split <;> simp_all
    · have hs : h.slots.toList[r.index]? = some none := by
        rw [Array.getElem?_toList]; exact hfree.empty r (by simp [hf])
      simpa [total] using foldr_add_set hs (fun slot => slot.elim 0 f) (some ⟨1, b, charge⟩)
  · refine ⟨charge, hm, fun s => ?_, fun _ f => ?_⟩
    · simp only [lookup?, Array.getElem?_push, ← Handle.index_inj]
      split <;> simp
    · simp only [total, Array.toList_push, List.foldr_append, List.foldr_cons, List.foldr_nil]
      exact foldr_add_start h.slots.toList (fun slot => slot.elim 0 f) (f ⟨1, b, charge⟩)

theorem lookup?_allocate (ha : h.allocate b = .ok (.ok (r, h'))) :
    ∃ charge, ∀ s, h'.lookup? s = if s = r then some ⟨1, b, charge⟩ else h.lookup? s := by
  obtain ⟨charge, -, hlookup, -⟩ := allocate_spec ha
  exact ⟨charge, hlookup⟩

/-- The slot that an allocation takes was empty. -/
theorem lookup?_of_allocate (hfree : h.FreeListed) (ha : h.allocate b = .ok (.ok (r, h'))) :
    h.lookup? r = none := by
  obtain ⟨charge, meter, -, ⟨free, hf, -, -⟩ | ⟨-, rfl, -⟩⟩ := allocate_cases ha
  · have := hfree.empty r (by simp [hf])
    simp [lookup?, this]
  · simp [lookup?]

theorem total_allocate (hfree : h.FreeListed) (ha : h.allocate b = .ok (.ok (r, h'))) :
    ∃ charge, ∀ f : Entry → Nat, h'.total f = h.total f + f ⟨1, b, charge⟩ := by
  obtain ⟨charge, -, -, htotal⟩ := allocate_spec ha
  exact ⟨charge, htotal hfree⟩

/-- Where the free list is in order, an allocation is made or refused. -/
theorem allocate_ok (hfree : h.FreeListed) (b : Body) : ∃ x, h.allocate b = .ok x := by
  unfold allocate
  cases h.meter.allocate b.size with
  | error e => exact ⟨_, rfl⟩
  | ok p =>
    cases hf : h.free with
    | nil => exact ⟨_, rfl⟩
    | cons r free =>
      have hlt := (Array.getElem?_eq_some_iff.1 (hfree.empty r (by simp [hf]))).1
      exact ⟨_, if_pos hlt⟩

theorem releaseAll_ref (he : h.lookup? r = some e) (rest : List Value) :
    h.releaseAll (.ref r :: rest) =
      if 1 < e.count then (h.put r { e with count := e.count - 1 }).releaseAll rest
      else (h.vacate r e.charge).releaseAll (e.body.children ++ rest) := by
  have hslot := lookup?_eq_some.1 he
  rw [releaseAll]
  split
  case h_1 e' he' =>
    obtain rfl : e = e' := by simpa using hslot.symm.trans he'
    rfl
  all_goals simp_all

theorem FreeListed.put (hfree : h.FreeListed) (he : h.lookup? r = some e) (e' : Entry) :
    (h.put r e').FreeListed := by
  refine ⟨fun s hs => ?_, hfree.nodup⟩
  have hne : r ≠ s := by
    rintro rfl
    simp [lookup?, hfree.empty r hs] at he
  have hidx : r.index ≠ s.index := fun h => hne (Handle.index_inj.1 h)
  simpa [Heap.put, Array.getElem?_setIfInBounds, hidx] using hfree.empty s hs

theorem FreeListed.vacate (hfree : h.FreeListed) (he : h.lookup? r = some e) (charge : Nat) :
    (h.vacate r charge).FreeListed := by
  obtain ⟨hlt, -⟩ := Array.getElem?_eq_some_iff.1 (lookup?_eq_some.1 he)
  have hnot : r ∉ h.free := by
    intro hr
    simp [lookup?, hfree.empty r hr] at he
  refine ⟨fun s hs => ?_, List.nodup_cons.2 ⟨hnot, hfree.nodup⟩⟩
  obtain rfl | hs := List.mem_cons.1 hs
  · simp [Heap.vacate, hlt]
  · have hne : r.index ≠ s.index := fun h => hnot (Handle.index_inj.1 h ▸ hs)
    simpa [Heap.vacate, Array.getElem?_setIfInBounds, hne] using hfree.empty s hs

theorem FreeListed.allocate (hfree : h.FreeListed) (ha : h.allocate b = .ok (.ok (r, h'))) :
    h'.FreeListed := by
  obtain ⟨charge, meter, -, ⟨free, hf, -, rfl⟩ | ⟨hf, -, rfl⟩⟩ := allocate_cases ha
  · obtain ⟨hnot, hnodup⟩ := List.nodup_cons.1 (hf ▸ hfree.nodup)
    refine ⟨fun s hs => ?_, hnodup⟩
    have hne : r.index ≠ s.index := fun h => hnot (Handle.index_inj.1 h ▸ hs)
    have hempty := hfree.empty s (by rw [hf]; exact List.mem_cons_of_mem r hs)
    simpa [Array.getElem?_setIfInBounds, hne] using hempty
  · exact ⟨fun s hs => by simp [hf] at hs, hfree.nodup⟩

end Heap

end ItemAccess
