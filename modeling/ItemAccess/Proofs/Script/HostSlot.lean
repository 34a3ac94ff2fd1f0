import ItemAccess.Proofs.Machine.Turns
import ItemAccess.Script.HostSlot

/-!
# The slots of the scripts keep to every discipline

They are made of requests to the machine, so they also keep every likeness under which objects can be made
and fields stored, and in particular they change the store by turns. A slot that hands an access on to its
first field holds a reference to the field meanwhile. Handing on may go round in a circle, so faults are
not excluded.
-/

namespace ItemAccess.HostSlot

open Attempt Machine

variable {α ε : Type} {owned : Multiset Handle} {obj key v : Value}

section

variable {υ : SlotKind → Type} {D : Discipline υ} {m : Machine υ}

theorem inner_keeps (hg : D.good m.heap m.registry owned) (hobj : obj.Within owned) :
    (inner obj).Ends m D.safe
      (fun v m' => D.After owned m m' v.handles ∧ m'.pending = m.pending)
      fun _ m' => D.After owned m m' 0 := by
  simp only [inner, ends_bind]
  refine (Discipline.field_keeps hg hobj 0).mono ?_ fun _ _ h => h
  rintro x m₁ ⟨ha, hp⟩
  cases x with
  | none => exact ha.of_eq rfl rfl
  | some v => exact ⟨by simpa using ha, hp⟩

/-- Something is done with the first field by one who owns a reference to it. -/
theorem withInner_keeps {a : Value → Action υ Failure α} {given : α → Multiset Handle}
    (hg : D.good m.heap m.registry owned) (hobj : obj.Within owned)
    (ha : ∀ v m₁, D.good m₁.heap m₁.registry (owned + v.handles) → m₁.pending = m.pending →
      D.Gives (a v) m₁ (owned + v.handles) given) :
    D.Gives (withInner obj a) m owned given := by
  simp only [Discipline.Gives, withInner, ends_bind, ends_handle, ends_raise, ends_pure]
  refine (inner_keeps hg hobj).mono ?_ fun _ _ h => h
  rintro v m₁ ⟨h₁, hp₁⟩
  refine (ha v m₁ h₁.good hp₁).mono (fun x m₂ h₂ => ?_) fun f m₂ h₂ => ?_
  · have h := h₁.trans h₂
    rw [add_comm] at h
    exact Discipline.release_keeps (by simpa using h)
  · have h : D.After owned m m₂ (0 + handles [v]) := by simpa using h₁.trans h₂
    refine (Discipline.release_keeps h).mono ?_ fun _ _ h => h
    exact fun _ m₃ h₃ => h₃.of_eq rfl rfl

end

variable {D : Discipline HostSlot} {H : Host HostSlot} {m m₁ : Machine HostSlot}

theorem passOn_keeps {a : Action HostSlot Failure α} {given : α → Multiset Handle}
    (ha : D.Gives a m owned given) : D.Gives (passOn a) m owned given := by
  rw [Discipline.Gives, ends_passOn]
  exact ha.mono (fun _ _ h => h) fun _ _ h => h.of_eq rfl rfl

theorem failing_keeps {cls : ExceptionClass} {message : String} {P : α → Machine HostSlot → Prop}
    (ha : D.After owned m m₁ 0) :
    (failing cls message : SlotAction HostSlot α).Ends m₁ D.safe P
      fun _ m' => D.After owned m m' 0 :=
  ha.of_eq rfl rfl

theorem fieldAt_keeps {Q : ε → Machine HostSlot → Prop} (hg : D.good m.heap m.registry owned)
    (hobj : obj.Within owned) (i : Int64) :
    (fieldAt obj i : Action HostSlot ε (Option Value)).Ends m D.safe
      (fun x m' => D.After owned m m' (handles x.toList)) Q :=
  ends_ite (fun _ => Discipline.After.refl hg) fun _ =>
    (Discipline.field_keeps hg hobj _).mono (fun _ _ h => h.1) fun _ _ h => h

theorem setFieldAt_keeps {Q : ε → Machine HostSlot → Prop} (hg : D.good m.heap m.registry owned)
    (hobj : obj.Within owned) (hv : v.Within owned) (hw : D.Writable obj) (i : Int64) :
    (setFieldAt obj i v : Action HostSlot ε Bool).Ends m D.safe
      (fun _ m' => D.After owned m m' 0) Q :=
  ends_ite (fun _ => Discipline.After.refl hg) fun _ => Discipline.setField_keeps hg hobj hv hw _

theorem get_keeps (hD : ¬ D.safe) (hH : H.Keeps D) {u : HostSlot .get}
    (hc : D.Call m owned (.host u) obj [key]) : D.Gives (get H u obj key) m owned Value.handles := by
  have ha := hc.after
  have hkey := hc.operands key (by simp)
  cases u with
  | keyError =>
    simp only [Discipline.Gives, get, ends_bind]
    exact textOf_ends ha.sound (ha.present (hkey.mono 0)) fun _ => failing_keeps ha
  | echoKey =>
    refine retain_ends (ha.present (hkey.mono 0)) fun h' hh => ?_
    simpa using ha.gain (Heap.retain_moves _ hh)
  | typeName =>
    simp only [Discipline.Gives, get, ends_bind]
    exact nameOfType_ends (ha.typed (hkey.mono 0)) fun _ =>
      passOn_keeps (Discipline.newBytes_keeps hc.good)
  | innerGet =>
    refine withInner_keeps hc.good hc.receiver fun v m₁ hg₁ _ => ?_
    exact Discipline.getItem_keeps hH hg₁ (fun r hr => by simp [hr]) (hkey.mono _) (absurd · hD)
  | swap =>
    simp only [Discipline.Gives, get, ends_bind, ends_pure]
    refine (inner_keeps hc.good hc.receiver).mono ?_ fun _ _ h => h
    rintro old m₁ ⟨h₁, -⟩
    refine (Discipline.setField_keeps h₁.good (hc.receiver.mono _) (hkey.mono _)
      (.of_not_safe hD) 0).mono ?_ fun _ _ h => h
    exact fun _ _ h₂ => by simpa using h₁.trans h₂
  | forget => exact ha.of_eq rfl rfl
  | twice => exact ha.of_eq rfl rfl
  | bare => exact ha.of_eq rfl rfl
  | leak => exact ha.of_eq rfl rfl

theorem set_keeps (hD : ¬ D.safe) (hH : H.Keeps D) {u : HostSlot .set}
    (hc : D.Call m owned (.host u) obj [key, v]) : D.Gives (set H u obj key v) m owned fun _ => 0 := by
  have ha := hc.after
  have hkey := hc.operands key (by simp)
  have hv := hc.operands v (by simp)
  cases u with
  | readOnly => exact failing_keeps ha
  | innerSet =>
    refine withInner_keeps hc.good hc.receiver fun w m₁ hg₁ _ => ?_
    exact Discipline.setItem_keeps hH hg₁ (hv.mono _) (fun r hr => by simp [hr]) (hkey.mono _)
      (.of_not_safe hD) (absurd · hD)
  | store =>
    simp only [Discipline.Gives, set, ends_bind]
    refine (Discipline.setField_keeps hc.good hc.receiver hkey (hc.writable trivial) 0).mono ?_
      fun _ _ h => h
    intro _ m₁ h₁
    refine ends_ite (fun _ => ?_) fun _ => failing_keeps h₁
    have hg₁ : D.good m₁.heap m₁.registry owned := by simpa using h₁.good
    simp only [ends_bind]
    refine (Discipline.setField_keeps hg₁ hc.receiver hv (hc.writable trivial) 1).mono ?_
      fun _ _ h => h
    intro _ m₂ h₂
    exact ends_ite (fun _ => h₁.next h₂) fun _ => failing_keeps (h₁.next h₂)

theorem del_keeps (hD : ¬ D.safe) (hH : H.Keeps D) {u : HostSlot .del}
    (hc : D.Call m owned (.host u) obj [key]) : D.Gives (del H u obj key) m owned fun _ => 0 := by
  cases u with
  | refuseDel => exact failing_keeps hc.after
  | innerDel =>
    refine withInner_keeps hc.good hc.receiver fun w m₁ hg₁ _ => ?_
    have hkey := hc.operands key (by simp)
    exact Discipline.delItem_keeps hH hg₁ (fun r hr => by simp [hr]) (hkey.mono _) (.of_not_safe hD)
      (absurd · hD)
  | noop => exact hc.after

theorem getAt_keeps (hD : ¬ D.safe) {u : HostSlot .getAt} {i : Int64}
    (hc : D.Call m owned (.host u) obj []) : D.Gives (getAt u obj i) m owned Value.handles := by
  have ha := hc.after
  cases u with
  | echo => exact ha
  | fieldGet =>
    simp only [Discipline.Gives, getAt, ends_bind]
    refine (fieldAt_keeps hc.good hc.receiver i).mono ?_ fun _ _ h => h
    intro x m₁ h₁
    cases x with
    | none => exact failing_keeps h₁
    | some v => simpa using h₁
  | squares =>
    simp only [Discipline.Gives, getAt, ends_bind]
    refine ends_liftM (absurd · hD) fun n _ => ?_
    exact ends_ite (fun _ => passOn_keeps (Discipline.newInt_keeps hc.good)) fun _ => failing_keeps ha

theorem setAt_keeps {u : HostSlot .setAt} {i : Int64} (hc : D.Call m owned (.host u) obj [v]) :
    D.Gives (setAt u obj i v) m owned fun _ => 0 := by
  cases u with
  | fieldSet =>
    simp only [Discipline.Gives, setAt, ends_bind]
    refine (setFieldAt_keeps hc.good hc.receiver (hc.operands v (by simp))
      (hc.writable trivial) i).mono ?_ fun _ _ h => h
    exact fun _ m₁ h₁ => ends_ite (fun _ => h₁) fun _ => failing_keeps h₁
  | refuseSet => exact failing_keeps hc.after

theorem asIndex_keeps (hD : ¬ D.safe) {u : HostSlot .asIndex}
    (hc : D.Call m owned (.host u) obj []) : D.Gives (asIndex u obj) m owned Value.handles := by
  have ha := hc.after
  cases u with
  | fieldIndex => exact (inner_keeps hc.good hc.receiver).mono (fun _ _ h => h.1) fun _ _ h => h
  | raiseIndex => exact failing_keeps ha
  | selfIndex =>
    refine retain_ends (ha.present (hc.receiver.mono 0)) fun h' hh => ?_
    simpa using ha.gain (Heap.retain_moves _ hh)
  | countdown =>
    simp only [Discipline.Gives, asIndex, ends_bind]
    refine (inner_keeps hc.good hc.receiver).mono ?_ fun _ _ h => h
    rintro v m₁ ⟨h₁, -⟩
    cases v with
    | int n =>
      simp only [ends_bind, ends_pure]
      have hn : (Value.int (n - 1)).Within (owned + (Value.int n).handles) := fun _ hr => by cases hr
      refine (Discipline.setField_keeps h₁.good (hc.receiver.mono _) hn (.of_not_safe hD) 0).mono ?_
        fun _ _ h => h
      exact fun _ _ h₂ => by simpa using h₁.trans h₂
    | _ => exact h₁
  | huge => exact passOn_keeps (Discipline.newInt_keeps hc.good)
  | bytesIndex => exact passOn_keeps (Discipline.newBytes_keeps hc.good)

/-- The slots keep to every discipline that does not exclude faults. -/
theorem host_keeps (hD : ¬ D.safe) (depth : Nat) : (host depth).Keeps D := by
  induction depth with
  | zero =>
    exact
      { get := fun _ => hD
        set := fun _ => hD
        del := fun _ => hD
        getAt := getAt_keeps hD
        setAt := setAt_keeps
        length := fun _ => (absurd · hD)
        asIndex := fun hc =>
          (asIndex_keeps hD hc).mono (fun _ _ h => ⟨h, (absurd · hD)⟩) fun _ _ h => h }
  | succ depth ih =>
    exact
      { get := get_keeps hD ih
        set := set_keeps hD ih
        del := del_keeps hD ih
        getAt := getAt_keeps hD
        setAt := setAt_keeps
        length := fun _ => (absurd · hD)
        asIndex := fun hc =>
          (asIndex_keeps hD hc).mono (fun _ _ h => ⟨h, (absurd · hD)⟩) fun _ _ h => h }

section

variable {υ : SlotKind → Type} {L : Likeness υ} {S : Machine υ → Machine υ → Prop}

theorem inner_like (hL : L.Ample) (obj : Value) : L.Keeps L.raised (inner obj : SlotAction υ Value) := by
  apply Likeness.Keeps.bind (hL.field obj 0)
  intro x
  cases x with
  | some v => exact .pure v
  | none => exact hL.raise _

theorem withInner_like (hL : L.Ample) (obj : Value) {a : Value → Action υ Failure α}
    (ha : ∀ v, L.Keeps L.calm (a v)) : L.Keeps L.raised (withInner obj a) := by
  apply Likeness.Keeps.bind (inner_like hL obj)
  intro v
  have hfailed (f : Failure) : L.Keeps L.raised (do release v; raise f.exception : SlotAction υ α) :=
    .bind (hL.release v) fun _ => hL.raise _
  exact .bind (Relates.handle (ha v) hfailed) fun _ => .bind (hL.release v) fun _ => .pure _

end

section

variable {L : Likeness HostSlot}

theorem get_like (hL : L.Ample) (hH : H.Respects L) (u : HostSlot .get) (obj key : Value) :
    L.Keeps L.raised (get H u obj key) := by
  cases u with
  | keyError => exact .bind (hL.textOf key) fun _ => hL.raise _
  | echoKey => exact hL.retain key
  | typeName => exact .bind (hL.nameOfType key) fun _ => hL.passOn (hL.newBytes _)
  | innerGet => exact withInner_like hL obj fun v => hL.getItem hH hL.hears v key
  | swap => exact .bind (inner_like hL obj) fun _ => .bind (hL.setField obj 0 key) fun _ => .pure _
  | forget =>
    exact .bind (hL.recordPending _) fun _ => .bind (hL.changePending (·.fetch.2)) fun _ => hL.throw _
  | twice => exact .bind (hL.recordPending _) fun _ => hL.raise _
  | bare => exact hL.raise _
  | leak => exact .bind (hL.recordPending _) fun _ => .pure _

theorem set_like (hL : L.Ample) (hH : H.Respects L) (u : HostSlot .set) (obj key v : Value) :
    L.Keeps L.raised (set H u obj key v) := by
  cases u with
  | readOnly => exact hL.raise _
  | innerSet => exact withInner_like hL obj fun w => hL.setItem hH hL.hears v w key
  | store =>
    have hfailing : L.Keeps L.raised (failing .valueError "" : SlotAction HostSlot Unit) := hL.raise _
    exact .bind (hL.setField obj 0 key) fun _ =>
      .ite (.bind (hL.setField obj 1 v) fun _ => .ite (.pure _) hfailing) hfailing

theorem del_like (hL : L.Ample) (hH : H.Respects L) (u : HostSlot .del) (obj key : Value) :
    L.Keeps L.raised (del H u obj key) := by
  cases u with
  | refuseDel => exact hL.raise _
  | innerDel => exact withInner_like hL obj fun w => hL.delItem hH hL.hears w key
  | noop => exact .pure _

theorem lengthField_like (hL : L.Ample) {m m' : Machine HostSlot} (hm : L.calm m m') (obj : Value) :
    lengthField m' obj = lengthField m obj := by
  cases obj with
  | ref r =>
    rw [lengthField, lengthField, hL.heap hm, Heap.body_retype]
    cases m.heap.body r with
    | error f => rfl
    | ok b =>
      cases b with
      | inst type fields =>
        cases fields with
        | nil => rfl
        | cons v rest => cases v <;> rfl
      | _ => rfl
  | _ => rfl

theorem getAt_like (hL : L.Ample) (u : HostSlot .getAt) (obj : Value) (i : Int64) :
    L.Keeps L.raised (getAt u obj i) := by
  cases u with
  | echo => exact .pure _
  | fieldGet =>
    apply Likeness.Keeps.bind (.ite (.pure _) (hL.field obj _))
    intro x
    cases x with
    | some v => exact .pure v
    | none => exact hL.raise _
  | squares =>
    apply Relates.ask
    intro m m' hm
    rw [lengthField_like hL hm]
    have hsquare (n : Nat) : L.Keeps L.raised
        (if 0 ≤ i.toInt ∧ i.toInt < n then passOn (newInt (i.toInt * i.toInt))
          else failing .indexError ("Squares index " ++ toString i.toInt ++ " out of range")) :=
      .ite (hL.passOn (hL.newInt _)) (hL.raise _)
    exact Likeness.Keeps.bind (hL.lift _) hsquare m m' hm

theorem setAt_like (hL : L.Ample) (u : HostSlot .setAt) (obj : Value) (i : Int64) (v : Value) :
    L.Keeps L.raised (setAt u obj i v) := by
  cases u with
  | fieldSet =>
    exact .bind (.ite (.pure _) (hL.setField obj _ v)) fun _ => .ite (.pure _) (hL.raise _)
  | refuseSet => exact hL.raise _

theorem asIndex_like (hL : L.Ample) (u : HostSlot .asIndex) (obj : Value) :
    L.Keeps L.raised (asIndex u obj) := by
  cases u with
  | fieldIndex => exact inner_like hL obj
  | raiseIndex => exact hL.raise _
  | selfIndex => exact hL.retain obj
  | countdown =>
    apply Likeness.Keeps.bind (inner_like hL obj)
    intro v
    cases v with
    | int n => exact .bind (hL.setField obj 0 _) fun _ => .pure _
    | _ => exact .pure _
  | huge => exact hL.passOn (hL.newInt _)
  | bytesIndex => exact hL.passOn (hL.newBytes _)

theorem length_like (hL : L.Ample) {m m' : Machine HostSlot} (hm : L.calm m m') (u : HostSlot .length)
    (obj : Value) : length u m' obj = length u m obj := by
  cases u with
  | fieldLength => exact lengthField_like hL hm obj
  | _ => rfl

theorem host_respects (hL : L.Ample) (depth : Nat) : (host depth).Respects L := by
  induction depth with
  | zero =>
    exact
      { get := fun _ _ _ _ => hL.fault _
        set := fun _ _ _ _ _ => hL.fault _
        del := fun _ _ _ _ => hL.fault _
        getAt := fun u _ => getAt_like hL u
        setAt := fun u _ => setAt_like hL u
        length := fun u _ obj _ _ hm => length_like hL hm u obj
        asIndex := fun u _ => asIndex_like hL u }
  | succ depth ih =>
    exact
      { get := fun u _ => get_like hL ih u
        set := fun u _ => set_like hL ih u
        del := fun u _ => del_like hL ih u
        getAt := fun u _ => getAt_like hL u
        setAt := fun u _ => setAt_like hL u
        length := fun u _ obj _ _ hm => length_like hL hm u obj
        asIndex := fun u _ => asIndex_like hL u }

end

theorem host_turning (depth : Nat) : (host depth).Turning := by
  have hR (m : Machine HostSlot) : (host depth).Respects (.turnedFrom m.heap) :=
    host_respects (Likeness.turnedFrom_ample m.heap) depth
  exact
    { get := fun u obj key m => Relates.ends ((hR m).get u trivial obj key) .refl
      set := fun u obj key v m => Relates.ends ((hR m).set u trivial obj key v) .refl
      del := fun u obj key m => Relates.ends ((hR m).del u trivial obj key) .refl
      getAt := fun u obj i m => Relates.ends ((hR m).getAt u trivial obj i) .refl
      setAt := fun u obj i v m => Relates.ends ((hR m).setAt u trivial obj i v) .refl
      asIndex := fun u obj m => Relates.ends ((hR m).asIndex u trivial obj) .refl }

end ItemAccess.HostSlot
