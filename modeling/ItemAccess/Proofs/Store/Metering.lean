import ItemAccess.Proofs.Store.Contents
import ItemAccess.Proofs.Store.History
import ItemAccess.Proofs.Store.ReleaseOrder

/-!
# Metering

The machine turns the store over from one state to the next. Between two turns every object is charged
for its size, and the meter shows the sum of the charges. Within a turn an object may be charged for
more: a dict is charged before it has the new entry, and a container that has lost an item is still
charged for it while the item is released. This is the gap that the invariant below allows for.
-/

namespace ItemAccess

theorem Limits.charge_add (l : Limits) (a b : Nat) : l.charge (a + b) = l.charge a + l.charge b := by
  unfold charge
  split <;> rfl

theorem Body.size_eraseIdx {items : List Value} {p : Nat} (hp : p < items.length) :
    (Body.list items).size = (Body.list (items.eraseIdx p)).size + Body.itemSize := by
  have hlength := List.length_eraseIdx_add_one hp
  simp only [Body.size, ← hlength, Nat.succ_mul]
  omega

namespace Dict

variable {entries rest : List DictEntry} {k : Key} {e : DictEntry}

/-- A new key is put at the end, and nothing is left over. -/
theorem insert_of_isNone (hk : (get? entries k).isNone) (key v : Value) :
    insert entries k key v = (entries ++ [⟨k, key, v⟩], []) := by
  induction entries with
  | nil => rfl
  | cons e rest ih =>
    by_cases he : e.hash = k
    · simp [get?, he] at hk
    · have hrest : (get? rest k).isNone := by simpa [get?, he] using hk
      simp [insert, he, ih hrest]

theorem length_insert (hk : ¬ (get? entries k).isNone) (key v : Value) :
    (insert entries k key v).1.length = entries.length := by
  induction entries with
  | nil => simp [get?] at hk
  | cons e rest ih =>
    by_cases he : e.hash = k
    · simp [insert, he]
    · have hrest : ¬ (get? rest k).isNone := by simpa [get?, he] using hk
      simp [insert, he, ih hrest]

theorem length_remove? (hr : remove? entries k = some (e, rest)) :
    entries.length = rest.length + 1 := by
  obtain ⟨e', he', heq⟩ := Option.map_eq_some_iff.1 hr
  obtain ⟨rfl, rfl⟩ := Prod.mk.inj heq
  have hmem := List.mem_of_find?_eq_some he'
  have hlength := List.length_eraseP_of_mem hmem (List.find?_some he')
  have hpos := List.length_pos_of_mem hmem
  omega

end Dict

namespace Heap

variable {h h' start : Heap} {r : Handle} {e e' : Entry} {b : Body} {v : Value} {vs : List Value}
  {bytes : Nat} {gap gap' : Handle → Nat}

/-- Every object is charged for its size and the gap, and the meter shows the sum of the charges,
which is within the limits. -/
structure Metered (h : Heap) (gap : Handle → Nat) : Prop where
  charges : ∀ r e, h.lookup? r = some e → e.charge = h.meter.limits.charge (e.body.size + gap r)
  memory : h.meter.memory = h.total (·.charge)
  memoryLimit : ∀ limit ∈ h.meter.limits.memory, h.meter.memory ≤ limit.toNat
  allocationLimit : ∀ limit ∈ h.meter.limits.allocations, h.meter.allocations ≤ limit.toNat

theorem empty_metered (limits : Limits) : (Heap.empty limits).Metered 0 where
  charges := fun r e he => by simp [Heap.empty, lookup?] at he
  memory := rfl
  memoryLimit := fun _ _ => Nat.zero_le _
  allocationLimit := fun _ _ => Nat.zero_le _

namespace Metered

/-- What an object is charged for is in use. -/
theorem charge_le (hm : h.Metered gap) (he : h.lookup? r = some e) : e.charge ≤ h.meter.memory := by
  rw [hm.memory]
  exact le_total he (·.charge)

theorem put (hm : h.Metered gap) (he : h.lookup? r = some e) (hc : e'.charge = e.charge)
    (hsize : e'.body.size + gap' r = e.body.size + gap r) (hgap : ∀ s, s ≠ r → gap' s = gap s) :
    (h.put r e').Metered gap' where
  charges := by
    intro s e₁ hs
    rw [lookup?_put he] at hs
    by_cases hsr : s = r
    · rw [if_pos hsr] at hs
      cases hs
      rw [hsr, hc, hsize]
      exact hm.charges r e he
    · rw [if_neg hsr] at hs
      rw [hgap s hsr]
      exact hm.charges s e₁ hs
  memory := by
    have htotal := total_put he (·.charge) e'
    have hmemory : h.meter.memory = h.total (·.charge) := hm.memory
    change h.meter.memory = _
    omega
  memoryLimit := hm.memoryLimit
  allocationLimit := hm.allocationLimit

theorem vacate (hm : h.Metered gap) (he : h.lookup? r = some e) :
    (h.vacate r e.charge).Metered gap where
  charges := by
    intro s e₁ hs
    rw [lookup?_vacate he] at hs
    split at hs
    · cases hs
    · exact hm.charges s e₁ hs
  memory := by
    have htotal := total_vacate he (·.charge) e.charge
    have hmemory : h.meter.memory = h.total (·.charge) := hm.memory
    change h.meter.memory - e.charge = _
    omega
  memoryLimit := fun limit hl => (Nat.sub_le _ _).trans (hm.memoryLimit limit hl)
  allocationLimit := hm.allocationLimit

/-- A new object is charged for its size. -/
theorem allocate (hm : h.Metered gap) (hf : h.FreeListed) (ha : h.allocate b = .ok (.ok (r, h')))
    (hgap : gap r = 0) : h'.Metered gap := by
  obtain ⟨charge, hmeter, hlookup, htotal⟩ := allocate_spec ha
  obtain ⟨hcharge, hmeter, hmemory, hcount⟩ := Meter.allocate_cases hmeter
  constructor
  · intro s e hs
    rw [hlookup] at hs
    rw [hmeter]
    by_cases hsr : s = r
    · rw [if_pos hsr] at hs
      cases hs
      rw [hsr, hgap]
      exact hcharge
    · rw [if_neg hsr] at hs
      exact hm.charges s e hs
  · rw [hmeter, htotal hf, ← hm.memory]
  · rw [hmeter]
    exact hmemory
  · rw [hmeter]
    exact hcount

theorem known (hm : h.Metered gap) {known : List (UInt8 × Handle)} :
    { h with byteStrings := known }.Metered gap :=
  ⟨hm.charges, hm.memory, hm.memoryLimit, hm.allocationLimit⟩

/-- What an object is charged changes, and with it what the meter shows. -/
theorem recharge (hm : h.Metered gap) (he : h.lookup? r = some e) {charge memory : Nat}
    (hcharge : charge = h.meter.limits.charge (e.body.size + gap' r))
    (hgap : ∀ s, s ≠ r → gap' s = gap s) (hmemory : memory + e.charge = h.meter.memory + charge)
    (hlimit : ∀ limit ∈ h.meter.limits.memory, memory ≤ limit.toNat) :
    ({ h with meter := { h.meter with memory := memory } }.put r { e with charge := charge }).Metered
      gap' where
  charges := by
    intro s e₁ hs
    change (h.put r { e with charge := charge }).lookup? s = some e₁ at hs
    rw [lookup?_put he] at hs
    by_cases hsr : s = r
    · rw [if_pos hsr] at hs
      cases hs
      rw [hsr]
      exact hcharge
    · rw [if_neg hsr] at hs
      rw [hgap s hsr]
      exact hm.charges s e₁ hs
  memory := by
    have htotal := total_put he (·.charge) { e with charge := charge }
    have hold := hm.memory
    change memory = (h.put r { e with charge := charge }).total (·.charge)
    simp only at htotal
    omega
  memoryLimit := hlimit
  allocationLimit := hm.allocationLimit

/-- An object is charged for more than it holds. -/
theorem grow (hm : h.Metered 0) (hg : h.grow r bytes = .ok (.ok h')) :
    h'.Metered (Pi.single r bytes) := by
  obtain ⟨charge, meter, e, hmeter, he, rfl⟩ := grow_cases hg
  obtain ⟨hcharge, rfl, hmemory⟩ := Meter.grow_cases hmeter
  apply hm.recharge he _ (fun s hsr => by rw [Pi.single_eq_of_ne hsr, Pi.zero_apply]) (by omega) hmemory
  rw [Pi.single_eq_same, Limits.charge_add, ← hcharge, hm.charges r e he, Pi.zero_apply, Nat.add_zero]

/-- An object that is charged for more than it holds can give the difference back. -/
theorem excess (hm : h.Metered (Pi.single r bytes)) (he : h.lookup? r = some e) :
    e.charge = h.meter.limits.charge e.body.size + h.meter.limits.charge bytes ∧
      min e.charge bytes = h.meter.limits.charge bytes := by
  have hcharge := hm.charges r e he
  rw [Pi.single_eq_same, Limits.charge_add] at hcharge
  refine ⟨hcharge, ?_⟩
  unfold Limits.charge at hcharge ⊢
  split_ifs at hcharge ⊢ <;> omega

theorem shrink (hm : h.Metered (Pi.single r bytes)) (hs : h.shrink r bytes = .ok h') :
    h'.Metered 0 := by
  obtain ⟨e, he, rfl⟩ := shrink_cases hs
  obtain ⟨hcharge, hmin⟩ := hm.excess he
  have hle := hm.charge_le he
  rw [hmin]
  apply hm.recharge he
  · rw [Pi.zero_apply, Nat.add_zero]
    omega
  · intro s hsr
    rw [Pi.single_eq_of_ne hsr, Pi.zero_apply]
  · omega
  · intro limit hl
    exact (Nat.sub_le _ _).trans (hm.memoryLimit limit hl)

end Metered

/-- A store with a history since `start`, whose slots are recycled and whose meter agrees with its
objects up to the gap. -/
structure Exact (start : Heap) (gap : Handle → Nat) (h : Heap) : Prop where
  history : ∃ n p, History start n p h
  recycled : h.Recycled
  metered : h.Metered gap

namespace Exact

theorem refl (hr : h.Recycled) (hm : h.Metered gap) : Exact h gap h :=
  ⟨⟨0, h.live, .refl⟩, hr, hm⟩

theorem alter (hx : Exact start gap h) (ha : h.Alters h') (hm : h'.Metered gap') :
    Exact start gap' h' := by
  obtain ⟨n, p, hh⟩ := hx.history
  exact ⟨⟨n, _, hh.alter ha⟩, ha.recycled hx.recycled, hm⟩

theorem write (hx : Exact start gap h) (he : h.lookup? r = some e) (hc : e'.charge = e.charge)
    (hsize : e'.body.size + gap' r = e.body.size + gap r) (hgap : ∀ s, s ≠ r → gap' s = gap s) :
    Exact start gap' (h.put r e') :=
  hx.alter (.write he hc) (hx.metered.put he hc hsize hgap)

/-- The number of references to an object is nothing to the meter. -/
theorem recount (hx : Exact start gap h) (he : h.lookup? r = some e) (count : Nat) :
    Exact start gap (h.put r { e with count := count }) :=
  hx.write he rfl rfl fun _ _ => rfl

theorem retain (hx : Exact start gap h) (hr : h.retain v = .ok h') : Exact start gap h' := by
  cases v with
  | ref r =>
    obtain ⟨e, he, rfl⟩ := retainHandle_cases hr
    exact hx.recount he (e.count + 1)
  | _ =>
    cases hr
    exact hx

/-- Whatever a release leads to, objects are freed with what they are charged for. -/
theorem releaseAll (hx : Exact start gap h) (hr : h.releaseAll vs = .ok h') :
    Exact start gap h' := by
  induction hr using releaseAll_induction with
  | nil h => exact hx
  | step hd _ ih =>
    apply ih
    cases hd with
    | immediate _ => exact hx
    | @fewer r e he _ => exact hx.recount he (e.count - 1)
    | @last r e he _ => exact hx.alter (.vacate he (hx.metered.charge_le he)) (hx.metered.vacate he)

theorem allocate (hx : Exact start 0 h) (ha : h.allocate b = .ok (.ok (r, h'))) :
    Exact start 0 h' := by
  obtain ⟨n, p, hh⟩ := hx.history
  exact ⟨⟨n + 1, _, hh.create ha⟩, hx.recycled.allocate ha,
    hx.metered.allocate hx.recycled.toFreeListed ha rfl⟩

theorem byteString {byte : UInt8} (hx : Exact start 0 h)
    (hb : h.byteString byte = .ok (.ok (r, h'))) : Exact start 0 h' := by
  rcases byteString_cases hb with ⟨-, hr⟩ | ⟨h₁, charge, -, ha, he, rfl⟩
  · exact hx.retain (v := .ref r) hr
  · have htwo := (hx.allocate ha).recount he 2
    rw [← byteStrings_allocate ha]
    exact htwo.alter (.keep _ byte r) htwo.metered.known

theorem setBody (hx : Exact start gap h) (hb : h.body r = .ok b) {b' : Body}
    (hs : h.setBody r b' = .ok h') (hsize : b'.size + gap' r = b.size + gap r)
    (hgap : ∀ s, s ≠ r → gap' s = gap s) : Exact start gap' h' := by
  obtain ⟨e, he, rfl⟩ := setBody_cases hs
  obtain ⟨e', he', rfl⟩ := body_eq_ok.1 hb
  obtain rfl : e = e' := Option.some.inj (he.symm.trans he')
  exact hx.write he rfl hsize hgap

theorem grow (hx : Exact start 0 h) (hg : h.grow r bytes = .ok (.ok h')) :
    Exact start (Pi.single r bytes) h' :=
  hx.alter (.grow hg) (hx.metered.grow hg)

theorem shrink (hx : Exact start (Pi.single r bytes) h) (hs : h.shrink r bytes = .ok h') :
    Exact start 0 h' := by
  obtain ⟨e, he, -⟩ := shrink_cases hs
  obtain ⟨hcharge, hmin⟩ := hx.metered.excess he
  have hle := hx.metered.charge_le he
  exact hx.alter (.shrink he hs hcharge hmin (by omega)) (hx.metered.shrink hs)

end Exact

/-- What the machine does to the store at a time. A container changes for one of the same size; or it
is charged for more, before it changes; or it changes, what it has lost is released, and it is charged
for less. -/
inductive Turn : Heap → Heap → Prop
  | retain {h h' : Heap} {v : Value} (hr : h.retain v = .ok h') : Turn h h'
  | release {h h' : Heap} {vs : List Value} (hr : h.releaseAll vs = .ok h') : Turn h h'
  | allocate {h h' : Heap} {b : Body} {r : Handle} (ha : h.allocate b = .ok (.ok (r, h'))) :
    Turn h h'
  | byteString {h h' : Heap} {b : UInt8} {r : Handle} (hb : h.byteString b = .ok (.ok (r, h'))) :
    Turn h h'
  | exchange {h h' : Heap} {r : Handle} {b b' : Body} (hb : h.body r = .ok b)
    (hsize : b'.size = b.size) (hs : h.setBody r b' = .ok h') : Turn h h'
  | enlarge {h h₁ h₂ h₃ h' : Heap} {r : Handle} {b b' : Body} {u v : Value} {bytes : Nat}
    (hb : h.body r = .ok b) (hsize : b'.size = b.size + bytes)
    (hg : h.grow r bytes = .ok (.ok h₁)) (hu : h₁.retain u = .ok h₂) (hv : h₂.retain v = .ok h₃)
    (hs : h₃.setBody r b' = .ok h') : Turn h h'
  | curtail {h h₁ h₂ h' : Heap} {r : Handle} {b b' : Body} {vs : List Value} {bytes : Nat}
    (hb : h.body r = .ok b) (hsize : b.size = b'.size + bytes) (hs : h.setBody r b' = .ok h₁)
    (hr : h₁.releaseAll vs = .ok h₂) (hk : h₂.shrink r bytes = .ok h') : Turn h h'

abbrev Turns : Heap → Heap → Prop := Relation.ReflTransGen Turn

/-- After a turn the meter agrees with the objects again. -/
theorem Exact.turn (hx : Exact start 0 h) (ht : h.Turn h') : Exact start 0 h' := by
  -- a container that is charged for more than it holds makes no gap anywhere else
  have hgap (r s : Handle) (bytes : Nat) (hsr : s ≠ r) : (Pi.single r bytes : Handle → Nat) s = 0 := by
    rw [Pi.single_eq_of_ne hsr]
  cases ht with
  | retain hr => exact hx.retain hr
  | release hr => exact hx.releaseAll hr
  | allocate ha => exact hx.allocate ha
  | byteString hb => exact hx.byteString hb
  | exchange hb hsize hs => exact hx.setBody hb hs hsize fun _ _ => rfl
  | @enlarge h₁ h₂ h₃ _ r b b' u v bytes hb hsize hg hu hv hs =>
    have hx₃ := ((hx.grow hg).retain hu).retain hv
    have hb₃ : h₃.body r = .ok b := by rw [body_retain hv, body_retain hu, body_grow hg, hb]
    exact hx₃.setBody hb₃ hs (by simp [hsize]) fun s hsr => (hgap r s bytes hsr).symm
  | @curtail h₁ h₂ _ r b b' vs bytes hb hsize hs hr hk =>
    have hx₁ : Exact start (Pi.single r bytes) h₁ :=
      hx.setBody hb hs (by simp [hsize]) fun s hsr => hgap r s bytes hsr
    exact (hx₁.releaseAll hr).shrink hk

theorem Exact.turns (hx : Exact start 0 h) (ht : h.Turns h') : Exact start 0 h' := by
  induction ht with
  | refl => exact hx
  | tail _ hturn ih => exact ih.turn hturn

end Heap

end ItemAccess
