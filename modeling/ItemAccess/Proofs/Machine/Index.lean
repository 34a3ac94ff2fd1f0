import ItemAccess.Machine.Index
import ItemAccess.Proofs.Machine.Discipline

/-!
# Finding the index that a key means keeps to every discipline

The integer that stands in between is given by a slot and released at once.
-/

namespace ItemAccess

open Attempt

variable {υ : SlotKind → Type} {ε : Type} {H : Host υ} {m m₁ : Machine υ}
  {owned : Multiset Handle} {obj key v : Value}

namespace Machine

theorem isIndexLike_ends {safe : Prop} {P : Bool → Machine υ → Prop} {Q : ε → Machine υ → Prop}
    (hv : safe → m.Typed key) (h : ∀ b, P b m) :
    (isIndexLike key : Action υ ε Bool).Ends m safe P Q := by
  simp only [isIndexLike, typeOf, ends_bind, ends_pure]
  refine readHeap_ends (fun hs => ?_) fun id hid => typeObject_ends (fun hs => ?_) fun t _ => h _
  · obtain ⟨id, t, hid, -⟩ := hv hs
    exact ⟨id, hid⟩
  · obtain ⟨id', t, hid', ht⟩ := hv hs
    obtain rfl := Except.ok.inj (hid'.symm.trans hid)
    exact ⟨t, ht⟩

theorem nativeIndex_ends {safe : Prop} {P : NativeIndex → Machine υ → Prop}
    {Q : ε → Machine υ → Prop} (hv : safe → m.heap.Present v) (h : ∀ n, P n m) :
    (nativeIndex v : Action υ ε NativeIndex).Ends m safe P Q := by
  cases v with
  | ref r =>
    simp only [nativeIndex, ends_bind]
    refine readHeap_ends (fun hs => (hv hs).body) fun b _ => ?_
    cases b <;> exact h _
  | _ => exact h _

end Machine

namespace Discipline

open Machine

variable {D : Discipline υ}

theorem intAsIndex_keeps (hc : D.Call m owned (.builtin .intAsIndex) obj []) :
    (intAsIndex obj).Ends m D.safe
      (fun v m' => D.After owned m m' v.handles ∧ (D.safe → D.calm m'.pending))
      fun _ m' => D.After owned m m' 0 := by
  have hafter := hc.after
  have hobj : obj.Within (owned + 0) := hc.receiver.mono 0
  cases obj with
  | int i => exact ⟨hafter, hc.calm⟩
  | bool b => exact ⟨hafter, hc.calm⟩
  | ref r =>
    simp only [intAsIndex, ends_bind]
    refine readHeap_ends (fun hs => (hafter.present hobj hs).body) fun b _ => ?_
    cases b with
    | bigInt n =>
      refine retain_ends (hafter.present hobj) fun h' hh => ⟨?_, hc.calm⟩
      simpa using hafter.gain (Heap.retain_moves _ hh)
    | _ =>
      simp only [ends_bind, ends_complain]
      exact nameOfType_ends (hafter.typed hobj) fun _ => hafter.of_eq rfl rfl
  | _ =>
    simp only [intAsIndex, ends_bind, ends_complain]
    exact nameOfType_ends (hafter.typed hobj) fun _ => hafter.of_eq rfl rfl

theorem callAsIndex_keeps (hH : H.Keeps D) {s : Slot υ .asIndex} (hc : D.Call m owned s obj []) :
    (callAsIndex H s obj).Ends m D.safe
      (fun v m' => D.After owned m m' v.handles ∧ (D.safe → D.calm m'.pending))
      fun _ m' => D.After owned m m' 0 := by
  cases s with
  | builtin b => cases b; exact intAsIndex_keeps hc
  | host u => exact hH.asIndex hc

theorem toIndex_keeps (hH : H.Keeps D) (hg : D.good m.heap m.registry owned)
    (hkey : key.Within owned) (hcalm : D.safe → D.calm m.pending) :
    (toIndex H key).Ends m D.safe
      (fun _ m' => D.After owned m m' 0 ∧ (D.safe → D.calm m'.pending))
      fun _ m' => D.After owned m m' 0 := by
  have hafter : D.After owned m m 0 := .refl hg
  simp only [toIndex, ends_bind]
  refine typeOf_ends (hafter.present (hkey.mono 0)) fun keyType hid => ?_
  refine typeObject_ends (fun hs => (hafter.sound hs).typeObject hid) fun t ht => ?_
  cases hslot : t.asIndex with
  | none => exact hafter
  | some s =>
    simp only [ends_bind, ends_settle]
    have hcall : D.Call m owned s key [] :=
      ⟨hg, hkey, by simp, hcalm, fun _ => ⟨keyType, t, hid, ht, hslot⟩, False.elim⟩
    refine (callAsIndex_keeps hH hcall).mono ?_ fun _ m₁ h => h.of_eq rfl rfl
    rintro v m₁ ⟨h₁, hcalm₁⟩
    have hv : v.Within (owned + v.handles) := by
      rintro r rfl
      simp
    refine nativeIndex_ends (h₁.present hv) fun native => ?_
    refine typeOf_ends (h₁.present hv) fun type htype => ?_
    have h₁' : D.After owned m m₁ (0 + handles [v]) := by simpa using h₁
    refine releaseAll_ends (fun hs => ?_) fun h' hh => ?_
    · exact (h₁'.sound hs).releaseAll
    have h₂ := h₁'.spend (Heap.releaseAll_moves _ hh)
    cases native with
    | fits i => exact ⟨h₂, hcalm₁⟩
    | tooLarge =>
      simp only [ends_bind, ends_refuse]
      exact typeName_ends (fun hs => ⟨t, Registry.get?_extend (h₂.steady hs).types ht⟩) fun _ => h₂
    | notInteger =>
      simp only [ends_bind, ends_refuse]
      exact typeName_ends (fun hs => (h₁.sound hs).typeObject htype) fun _ => h₂

end Discipline

end ItemAccess
