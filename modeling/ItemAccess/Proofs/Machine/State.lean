import ItemAccess.Machine.State
import ItemAccess.Proofs.Attempt
import ItemAccess.Proofs.Store.Sound

/-!
# How the small operations of a machine end

For each operation: which states it may end in, and what keeps it from a fault.
-/

namespace ItemAccess.Machine

open Attempt

variable {υ : SlotKind → Type} {α ε : Type} {safe : Prop} {m : Machine υ} {v : Value} {id : TypeId}
  {P : α → Machine υ → Prop} {Q : ε → Machine υ → Prop}

theorem readHeap_ends {f : Heap → Except Fault α} (hok : safe → ∃ a, f m.heap = .ok a)
    (h : ∀ a, f m.heap = .ok a → P a m) : (readHeap f : Action υ ε α).Ends m safe P Q := by
  simp only [readHeap, ends_bind, ends_get]
  exact ends_liftM hok h

theorem changeHeap_ends {f : Heap → Except Fault Heap} {P : Unit → Machine υ → Prop}
    (hok : safe → ∃ h', f m.heap = .ok h')
    (h : ∀ h', f m.heap = .ok h' → P () { m with heap := h' }) :
    (changeHeap f : Action υ ε Unit).Ends m safe P Q := by
  simp only [changeHeap, ends_bind, ends_get]
  exact ends_liftM hok h

theorem retain_ends {P : Value → Machine υ → Prop} (hv : safe → m.heap.Present v)
    (h : ∀ h', m.heap.retain v = .ok h' → P v { m with heap := h' }) :
    (retain v : Action υ ε Value).Ends m safe P Q := by
  simp only [retain, ends_bind, ends_pure]
  exact changeHeap_ends (fun hs => (hv hs).retain) h

theorem releaseAll_ends {vs : List Value} {P : Unit → Machine υ → Prop}
    (hok : safe → ∃ h', m.heap.releaseAll vs = .ok h')
    (h : ∀ h', m.heap.releaseAll vs = .ok h' → P () { m with heap := h' }) :
    (releaseAll vs : Action υ ε Unit).Ends m safe P Q :=
  changeHeap_ends hok h

theorem typeOf_ends {P : TypeId → Machine υ → Prop} (hv : safe → m.heap.Present v)
    (h : ∀ id, m.heap.typeOf v = .ok id → P id m) :
    (typeOf v : Action υ ε TypeId).Ends m safe P Q :=
  readHeap_ends (fun hs => (hv hs).typeOf) h

theorem typeObject_ends {P : TypeObject υ → Machine υ → Prop}
    (hid : safe → ∃ t, m.registry.get? id = some t)
    (h : ∀ t, m.registry.get? id = some t → P t m) :
    (typeObject id : Action υ ε (TypeObject υ)).Ends m safe P Q := by
  simp only [typeObject, ends_bind, ends_get]
  cases ht : m.registry.get? id with
  | some t => exact h t ht
  | none =>
    intro hs
    obtain ⟨t, ht'⟩ := hid hs
    rw [ht] at ht'
    cases ht'

theorem typeName_ends {P : String → Machine υ → Prop}
    (hid : safe → ∃ t, m.registry.get? id = some t) (h : ∀ name, P name m) :
    (typeName id : Action υ ε String).Ends m safe P Q := by
  simp only [typeName, ends_map]
  exact typeObject_ends hid fun t _ => h t.name

def Typed (m : Machine υ) (v : Value) : Prop :=
  ∃ id t, m.heap.typeOf v = .ok id ∧ m.registry.get? id = some t

theorem Typed.of_sound {owned : Multiset Handle} (hs : m.heap.Sound m.registry owned)
    (hv : m.heap.Present v) : m.Typed v := by
  obtain ⟨id, hid⟩ := hv.typeOf
  obtain ⟨t, ht⟩ := hs.typeObject hid
  exact ⟨id, t, hid, ht⟩

theorem nameOfType_ends {P : String → Machine υ → Prop} (hv : safe → m.Typed v)
    (h : ∀ name, P name m) : (nameOfType v : Action υ ε String).Ends m safe P Q := by
  simp only [nameOfType, typeOf, ends_bind]
  refine readHeap_ends (fun hs => ?_) fun id hid => typeName_ends (fun hs => ?_) h
  · obtain ⟨id, t, hid, -⟩ := hv hs
    exact ⟨id, hid⟩
  · obtain ⟨id', t, hid', ht⟩ := hv hs
    obtain rfl := Except.ok.inj (hid'.symm.trans hid)
    exact ⟨t, ht⟩

@[simp] theorem ends_note {P : Unit → Machine υ → Prop} (e : Event) :
    (note e : Action υ ε Unit).Ends m safe P Q ↔ P () { m with tracer := m.tracer.note e } := Iff.rfl

@[simp] theorem ends_raise {Q : Raised → Machine υ → Prop} (e : Exception) :
    (raise e : SlotAction υ α).Ends m safe P Q ↔
      Q {} { m with pending := m.pending.record e } := Iff.rfl

@[simp] theorem ends_complain {Q : Raised → Machine υ → Prop} (c : Complaint) :
    (complain c : SlotAction υ α).Ends m safe P Q ↔
      Q {} { m with pending := m.pending.record c.exception } := Iff.rfl

@[simp] theorem ends_refuse {Q : Failure → Machine υ → Prop} (c : Complaint) :
    (refuse c : Action υ Failure α).Ends m safe P Q ↔ Q (.ofComplaint c) m := Iff.rfl

@[simp] theorem ends_settle {Q : Failure → Machine υ → Prop} (a : SlotAction υ α) :
    (settle a).Ends m safe P Q ↔
      a.Ends m safe P fun _ t => Q t.pending.settle.1 { t with pending := t.pending.settle.2 } := by
  rw [settle, ends_handle]
  rfl

@[simp] theorem ends_passOn {Q : Raised → Machine υ → Prop} (a : Action υ Failure α) :
    (passOn a).Ends m safe P Q ↔
      a.Ends m safe P fun f t => Q {} { t with pending := t.pending.record f.exception } := by
  rw [passOn, ends_handle]
  rfl

end ItemAccess.Machine
