import ItemAccess.Proofs.Store.Metering
import ItemAccess.Proofs.Store.ReleaseOrder

/-!
# References that come on top

A store in which some objects have more references is the same store but for counts. What looks at no
count works on it as before, and the references that came on top can be given back without an object
being freed. So what two runs do to references in different orders can be compared by what they add to
one store.

An object that is made small, and grown and filled later, is the object that is made at once: it has the
same slot, and the meter shows the same.
-/

namespace ItemAccess

namespace Meter

variable {m m' : Meter} {bytes more charge : Nat} {e : LimitError}

/-- Where one more object may be made, only the bytes decide. -/
theorem allocate_of_count (hcount : ∀ limit ∈ m.limits.allocations, m.allocations + 1 ≤ limit.toNat)
    (bytes : Nat) : m.allocate bytes =
      (m.grow bytes).map fun p => (p.1, { p.2 with allocations := p.2.allocations + 1 }) := by
  unfold allocate
  cases hlimit : m.limits.allocations with
  | none => cases m.grow bytes <;> rfl
  | some limit =>
    have hlt : ¬ limit.toNat ≤ m.allocations := Nat.not_le.2 (hcount limit hlimit)
    simp only [if_neg hlt]
    cases m.grow bytes <;> rfl

/-- An allocation and a later growth are one larger allocation, granted or refused. -/
theorem allocate_add (ha : m.allocate bytes = .ok (charge, m')) (more : Nat) :
    m.allocate (bytes + more) = (m'.grow more).map fun p => (charge + p.1, p.2) := by
  obtain ⟨rfl, rfl, -, hcount⟩ := allocate_cases ha
  rw [allocate_of_count hcount]
  unfold grow Limits.charge
  cases hlimit : m.limits.memory with
  | none => rfl
  | some limit =>
    simp only [Option.isSome_some, if_true, Nat.add_assoc]
    split <;> rfl

/-- Where an allocation is granted, a smaller one is granted too. -/
theorem allocate_of_le (hle : bytes ≤ more) (ha : m.allocate more = .ok (charge, m')) :
    ∃ x, m.allocate bytes = .ok x := by
  obtain ⟨rfl, -, hmemory, hcount⟩ := allocate_cases ha
  rw [allocate_of_count hcount]
  unfold grow
  cases hlimit : m.limits.memory with
  | none => exact ⟨_, rfl⟩
  | some limit =>
    have hfits := hmemory limit hlimit
    simp only [Limits.charge, hlimit, Option.isSome_some, if_true] at hfits
    have hroom : ¬ limit.toNat < m.memory + bytes := by omega
    simp only [if_neg hroom]
    exact ⟨_, rfl⟩

theorem allocate_refused_of_le (hle : bytes ≤ more) (ha : m.allocate bytes = .error e) :
    ∃ e', m.allocate more = .error e' := by
  cases hmore : m.allocate more with
  | error e' => exact ⟨e', rfl⟩
  | ok p =>
    obtain ⟨x, hx⟩ := allocate_of_le hle hmore
    rw [ha] at hx
    cases hx

end Meter

namespace Heap

variable {h h' : Heap} {r s : Handle} {e e' : Entry} {b b' : Body} {v : Value} {vs : List Value}
  {more : Multiset Handle} {bytes : Nat}

theorem eq_of_lookup? (hsize : h.slots.size = h'.slots.size) (hl : ∀ r, h.lookup? r = h'.lookup? r)
    (hfree : h.free = h'.free) (hmeter : h.meter = h'.meter)
    (hknown : h.byteStrings = h'.byteStrings) : h = h' := by
  have hslots := slots_ext hsize hl
  cases h
  cases h'
  simp_all

/-- The store with one more reference to an object for each time that `more` has its handle. -/
def gain (h : Heap) (more : Multiset Handle) : Heap :=
  { h with slots := h.slots.mapIdx fun i slot =>
      slot.map fun e => { e with count := e.count + more.count ⟨i⟩ } }

@[simp] theorem size_gain : (h.gain more).slots.size = h.slots.size := by
  simp [gain]

theorem lookup?_gain (more : Multiset Handle) (s : Handle) :
    (h.gain more).lookup? s = (h.lookup? s).map fun e => { e with count := e.count + more.count s } := by
  simp only [lookup?, gain, Array.getElem?_mapIdx]
  cases h.slots[s.index]? <;> rfl

theorem lookup?_gain_of_some (he : h.lookup? r = some e) (more : Multiset Handle) :
    (h.gain more).lookup? r = some { e with count := e.count + more.count r } := by
  rw [lookup?_gain, he, Option.map_some]

theorem body_gain (hb : h.body r = .ok b) (more : Multiset Handle) : (h.gain more).body r = .ok b := by
  obtain ⟨e, he, rfl⟩ := body_eq_ok.1 hb
  exact body_eq_ok.2 ⟨_, lookup?_gain_of_some he more, rfl⟩

theorem gain_zero (h : Heap) : h.gain 0 = h := by
  refine eq_of_lookup? size_gain (fun s => ?_) rfl rfl rfl
  rw [lookup?_gain]
  cases h.lookup? s <;> simp

theorem gain_put (he : h.lookup? r = some e) (e' : Entry) (more : Multiset Handle) :
    (h.put r e').gain more = (h.gain more).put r { e' with count := e'.count + more.count r } := by
  refine eq_of_lookup? (by simp [put]) (fun s => ?_) rfl rfl rfl
  rw [lookup?_gain, lookup?_put he, lookup?_put (lookup?_gain_of_some he more), lookup?_gain]
  split
  case isTrue hs => rw [hs]; rfl
  case isFalse => rfl

theorem setBody_gain (hb : h.setBody r b = .ok h') (more : Multiset Handle) :
    (h.gain more).setBody r b = .ok (h'.gain more) := by
  obtain ⟨e, he, rfl⟩ := setBody_cases hb
  rw [gain_put he]
  exact except_bind_eq_ok.2 ⟨_, entry_eq_ok.2 (lookup?_gain_of_some he more), rfl⟩

theorem grow_gain (hg : h.grow r bytes = .ok (.ok h')) (more : Multiset Handle) :
    (h.gain more).grow r bytes = .ok (.ok (h'.gain more)) := by
  obtain ⟨charge, meter, e, hm, he, rfl⟩ := grow_cases hg
  rw [gain_put (h := { h with meter := meter }) he]
  have hm' : (h.gain more).meter.grow bytes = .ok (charge, meter) := hm
  simp only [grow, hm']
  exact except_bind_eq_ok.2 ⟨_, entry_eq_ok.2 (lookup?_gain_of_some he more), rfl⟩

/-- A new object has only the reference that it is made with. -/
theorem allocate_gain (ha : h.allocate b = .ok (.ok (r, h'))) (hr : r ∉ more) :
    (h.gain more).allocate b = .ok (.ok (r, h'.gain more)) := by
  have hcount : more.count r = 0 := Multiset.count_eq_zero.2 hr
  obtain ⟨charge, meter, hm, ⟨free, hf, hlt, rfl⟩ | ⟨hf, rfl, rfl⟩⟩ := allocate_cases ha
  · have hlt' : r.index < (h.gain more).slots.size := by rwa [size_gain]
    simp only [allocate, show (h.gain more).meter = h.meter from rfl, hm,
      show (h.gain more).free = h.free from rfl, hf, if_pos hlt']
    simp [gain, Array.mapIdx_setIfInBounds, hcount]
  · simp only [allocate, show (h.gain more).meter = h.meter from rfl, hm,
      show (h.gain more).free = h.free from rfl, hf]
    simp [gain, Array.mapIdx_push, hcount]

theorem retain_gain (hv : h.Present v) (more : Multiset Handle) :
    (h.gain more).retain v = .ok (h.gain (more + v.handles)) := by
  cases v with
  | ref r =>
    obtain ⟨e, he⟩ := hv r rfl
    have hentry := entry_eq_ok (t := .retain).2 (lookup?_gain_of_some he more)
    refine except_bind_eq_ok.2 ⟨_, hentry, congrArg Except.ok ?_⟩
    refine eq_of_lookup? (by simp [put]) (fun s => ?_) rfl rfl rfl
    rw [lookup?_put (lookup?_gain_of_some he more), lookup?_gain, lookup?_gain]
    split
    case isTrue hs => simp [hs, he, Nat.add_assoc]
    case isFalse hs => simp [hs]
  | _ => simp [retain, Value.handles, Value.handle?]

def Counted (h : Heap) (rs : Multiset Handle) : Prop :=
  ∀ r ∈ rs, ∃ e, h.lookup? r = some e ∧ 1 ≤ e.count

theorem Counted.present (hv : h.Counted v.handles) : h.Present v := by
  rintro r rfl
  obtain ⟨e, he, -⟩ := hv r (Multiset.mem_singleton_self r)
  exact ⟨e, he⟩

theorem Counted.mono {rs rs' : Multiset Handle} (hrs : h.Counted rs) (hle : rs' ≤ rs) : h.Counted rs' :=
  fun r hr => hrs r (Multiset.mem_of_le hle hr)

theorem drops_gain (hv : h.Counted v.handles) (more : Multiset Handle) :
    (h.gain (more + v.handles)).Drops v (h.gain more) [] := by
  cases v with
  | ref r =>
    obtain ⟨e, he, hpos⟩ := hv r (Multiset.mem_singleton_self r)
    have hgained := lookup?_gain_of_some he (more + {r})
    have hstep : h.gain more = (h.gain (more + {r})).put r
        { e with count := e.count + (more + {r}).count r - 1 } := by
      refine eq_of_lookup? (by simp [put]) (fun s => ?_) rfl rfl rfl
      rw [lookup?_put hgained, lookup?_gain, lookup?_gain]
      split
      case isTrue hs => simp [hs, he]
      case isFalse hs => simp [hs]
    rw [hstep]
    exact .fewer hgained (by simp; omega)
  | _ =>
    simp only [Value.handles, Value.handle?, Option.toList_none, Multiset.coe_nil, add_zero]
    exact .immediate rfl

/-- Giving back what came on top frees nothing. -/
theorem releaseAll_gain (hvs : h.Counted (handles vs)) (more : Multiset Handle) :
    (h.gain (more + handles vs)).releaseAll vs = .ok (h.gain more) := by
  induction vs with
  | nil => rw [handles_nil, add_zero, releaseAll]
  | cons v vs ih =>
    rw [handles_cons] at hvs
    have hv := drops_gain (hvs.mono (Multiset.le_add_right _ _)) (more + handles vs)
    rw [handles_cons, add_comm v.handles, ← add_assoc]
    exact releaseAll_cons.2 ⟨_, [], hv, ih (hvs.mono (Multiset.le_add_left _ _))⟩

/-- Another object that is granted its room gets the same slot. -/
theorem allocate_other {charge : Nat} {meter : Meter} (ha : h.allocate b = .ok (.ok (r, h')))
    (hm : h.meter.allocate b'.size = .ok (charge, meter)) :
    h.allocate b' = .ok (.ok (r, { h' with meter := meter }.put r ⟨1, b', charge⟩)) := by
  obtain ⟨charge₀, meter₀, -, ⟨free, hf, hlt, rfl⟩ | ⟨hf, rfl, rfl⟩⟩ := allocate_cases ha
  · simp only [allocate, hm, hf, if_pos hlt]
    simp [put]
  · simp only [allocate, hm, hf]
    simp [put, Array.setIfInBounds_def, Array.set_push]

theorem lookup?_allocate_self (ha : h.allocate b = .ok (.ok (r, h'))) :
    ∃ charge, h.meter.allocate b.size = .ok (charge, h'.meter) ∧ h'.lookup? r = some ⟨1, b, charge⟩ := by
  obtain ⟨charge, hm, hlookup, -⟩ := allocate_spec ha
  exact ⟨charge, hm, by rw [hlookup, if_pos rfl]⟩

/-- Replacing an object by one of its size leaves what making that one leaves. -/
theorem allocate_setBody (ha : h.allocate b = .ok (.ok (r, h'))) (hsize : b'.size = b.size) :
    ∃ h₁, h'.setBody r b' = .ok h₁ ∧ h.allocate b' = .ok (.ok (r, h₁)) := by
  obtain ⟨charge, hm, hr⟩ := lookup?_allocate_self ha
  exact ⟨_, except_bind_eq_ok.2 ⟨_, entry_eq_ok.2 hr, rfl⟩, allocate_other ha (hsize ▸ hm)⟩

/-- So does growing it and replacing it by one that needs the room. -/
theorem allocate_grow_setBody (ha : h.allocate b = .ok (.ok (r, h'))) {h₁ : Heap}
    (hg : h'.grow r bytes = .ok (.ok h₁)) (hsize : b'.size = b.size + bytes) :
    ∃ h₂, h₁.setBody r b' = .ok h₂ ∧ h.allocate b' = .ok (.ok (r, h₂)) := by
  obtain ⟨charge, hm, hr⟩ := lookup?_allocate_self ha
  obtain ⟨more, meter, e, hmore, he, rfl⟩ := grow_cases hg
  obtain rfl : ⟨1, b, charge⟩ = e := Option.some.inj (hr.symm.trans he)
  have hm' : h.meter.allocate b'.size = .ok (charge + more, meter) := by
    rw [hsize, Meter.allocate_add hm, hmore]
    rfl
  have hr' : ({ h' with meter := meter }.put r ⟨1, b, charge + more⟩).lookup? r =
      some ⟨1, b, charge + more⟩ := by
    rw [lookup?_put (h := { h' with meter := meter }) hr, if_pos rfl]
  refine ⟨_, except_bind_eq_ok.2 ⟨_, entry_eq_ok.2 hr', rfl⟩, ?_⟩
  rw [allocate_other ha hm', put_put]

/-- What was there stays beside a new object. -/
theorem lookup?_allocate_of_some (hfree : h.FreeListed) (ha : h.allocate b = .ok (.ok (r, h')))
    (he : h.lookup? s = some e) : h'.lookup? s = some e := by
  obtain ⟨charge, hlookup⟩ := lookup?_allocate ha
  have hne : s ≠ r := by
    rintro rfl
    rw [lookup?_of_allocate hfree ha] at he
    cases he
  rw [hlookup, if_neg hne, he]

theorem size_le_allocate (ha : h.allocate b = .ok (.ok (r, h'))) : h.slots.size ≤ h'.slots.size := by
  obtain ⟨_, _, -, ⟨_, -, -, rfl⟩ | ⟨-, -, rfl⟩⟩ := allocate_cases ha <;> simp

theorem Counted.allocate {rs : Multiset Handle} (hrs : h.Counted rs) (hfree : h.FreeListed)
    (ha : h.allocate b = .ok (.ok (r, h'))) : h'.Counted rs := by
  intro s hs
  obtain ⟨e, he, hpos⟩ := hrs s hs
  exact ⟨e, lookup?_allocate_of_some hfree ha he, hpos⟩

theorem Counted.not_mem {rs : Multiset Handle} (hrs : h.Counted rs) (hr : h.lookup? r = none) :
    r ∉ rs := by
  intro hmem
  obtain ⟨e, he, -⟩ := hrs r hmem
  rw [hr] at he
  cases he

theorem grow_of_granted {x : Nat × Meter} (he : h.lookup? r = some e)
    (hm : h.meter.grow bytes = .ok x) : ∃ h', h.grow r bytes = .ok (.ok h') := by
  rw [grow, hm]
  exact ⟨_, except_bind_eq_ok.2 ⟨e, entry_eq_ok.2 he, rfl⟩⟩

theorem grow_of_refused {e : LimitError} (hm : h.meter.grow bytes = .error e) (r : Handle) :
    h.grow r bytes = .ok (.error e) := by
  rw [grow, hm]

theorem allocate_of_granted (hfree : h.FreeListed) {x : Nat × Meter}
    (hm : h.meter.allocate b.size = .ok x) : ∃ r h', h.allocate b = .ok (.ok (r, h')) := by
  unfold allocate
  rw [hm]
  cases hf : h.free with
  | nil => exact ⟨_, _, rfl⟩
  | cons r free =>
    have hlt := (Array.getElem?_eq_some_iff.1 (hfree.empty r (by simp [hf]))).1
    exact ⟨_, _, if_pos hlt⟩

theorem allocate_of_refused {e : LimitError} (hm : h.meter.allocate b.size = .error e) :
    h.allocate b = .ok (.error e) := by
  rw [allocate, hm]

end Heap

end ItemAccess
