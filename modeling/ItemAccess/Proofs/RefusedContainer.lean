import ItemAccess.Proofs.FaultFreedom
import ItemAccess.Proofs.Store.ReleaseOrder

/-!
# What a container leaves behind that a limit refuses

A builder takes over the references that it is given. A dict gives back those that it has no use for,
as the keys are put in. But when the container is made in the end, and a limit stands in the way, what
it would have held is not given back. So the store is the one in which everything was released only if
the container would have held no reference.
-/

namespace ItemAccess

open Attempt Machine

variable {υ : SlotKind → Type} {H : Host υ} {m m' : Machine υ} {q : Request υ} {f : Failure}
  {owned : Multiset Handle}

/-- The values that the container of a request would hold. Of equal keys, a dict holds the first with
the value of the last. -/
def Request.contents (m : Machine υ) : Request υ → List Value
  | newList items | newTuple items | newInstance _ items => items
  | newDict pairs => ((fillDict [] pairs).run m).done?.elim [] fun p => Dict.children p.1
  | _ => []

namespace Machine

/-- Of the references that were taken, those that are not held any more have been released. -/
structure GivesBack (m : Machine υ) (taken held : Multiset Handle) (m' : Machine υ) : Prop where
  frame : m' = { m with heap := m'.heap }
  released : ∃ vs, m.heap.releaseAll vs = .ok m'.heap ∧ handles vs + held = taken

theorem GivesBack.refl (m : Machine υ) (taken : Multiset Handle) : m.GivesBack taken taken m :=
  ⟨rfl, [], by rw [Heap.releaseAll], by simp⟩

theorem GivesBack.of_release {vs : List Value} {h' : Heap} {taken held rest : Multiset Handle}
    (hr : m.heap.releaseAll vs = .ok h') (ht : handles vs + rest = taken)
    (hg : GivesBack { m with heap := h' } rest held m') : m.GivesBack taken held m' := by
  obtain ⟨ws, hws, hheld⟩ := hg.released
  refine ⟨hg.frame, vs ++ ws, Heap.releaseAll_append.2 ⟨h', hr, hws⟩, ?_⟩
  rw [handles_append, add_assoc, hheld, ht]

/-- An object that is refused changes nothing. -/
theorem allocate_refused (b : Body) :
    (Machine.allocate b).Ends m False (fun _ _ => True) fun _ m' => m' = m := by
  simp only [Machine.allocate, ends_bind, ends_get]
  apply ends_liftM False.elim
  intro x _
  cases x with
  | error e => rfl
  | ok p => trivial

/-- Every pair is put in, up to what is left over of it. -/
theorem fillDict_givesBack (entries : List DictEntry) (pairs : List (Value × Value)) :
    (fillDict entries pairs).Ends m False
      (fun entries' m' => m.GivesBack (handles (Dict.children entries) + handles (flattenPairs pairs))
        (handles (Dict.children entries')) m')
      fun f _ => f.kind ≠ .resourceExhausted := by
  induction pairs generalizing entries m with
  | nil =>
    simp only [fillDict, ends_pure, flattenPairs, List.flatMap_nil, handles_nil, add_zero]
    exact .refl m _
  | cons pair rest ih =>
    obtain ⟨key, value⟩ := pair
    simp only [fillDict, ends_bind]
    apply readHeap_ends False.elim
    intro x _
    cases x with
    | error type =>
      simp only [ends_bind, ends_refuse]
      apply typeName_ends False.elim
      intro name
      exact releaseAll_ends False.elim fun _ _ => by simp [Failure.ofComplaint]
    | ok k =>
      simp only [ends_bind]
      apply releaseAll_ends False.elim
      intro h' hr
      apply (ih (m := { m with heap := h' }) (Dict.insert entries k key value).1).mono
      · intro entries' m' hg
        refine .of_release hr ?_ hg
        have hinsert := Dict.handles_insert entries k key value
        rw [Discipline.handles_flattenPairs_cons, ← add_assoc, add_comm (handles _), hinsert]
        exact (add_assoc _ _ _)
      · exact fun _ _ h => h

theorem newInstance_refused (type : TypeId) (fields : List Value) :
    (newInstance type fields).Ends m False (fun _ _ => True)
      fun f m' => f.kind = .resourceExhausted → m' = m := by
  have hturned (c : Complaint) (hc : (Failure.ofComplaint c).kind ≠ .resourceExhausted) :
      (do Machine.releaseAll fields; refuse c : Action υ Failure Value).Ends m False
        (fun _ _ => True) fun f m' => f.kind = .resourceExhausted → m' = m := by
    simp only [ends_bind, ends_refuse]
    exact releaseAll_ends False.elim fun _ _ h => absurd h hc
  simp only [newInstance, ends_bind, ends_get]
  cases m.registry.get? type with
  | none => exact hturned (.unregistered type.index) (by simp [Failure.ofComplaint])
  | some t =>
    apply ends_ite
    · exact fun _ => hturned (.notInstantiable t.name) (by simp [Failure.ofComplaint])
    · exact fun _ => (allocate_refused _).mono (fun _ _ h => h) fun _ _ h _ => h

/-- A dict that a limit refuses had been filled. -/
theorem newDict_refused {pairs : List (Value × Value)} (hr : (newDict pairs).run m = .failed f m')
    (hkind : f.kind = .resourceExhausted) :
    ∃ entries, (fillDict [] pairs).run m = .done entries m' := by
  rw [newDict, run_bind] at hr
  cases hfill : (fillDict [] pairs).run m with
  | done entries m₁ =>
    rw [hfill] at hr
    obtain rfl := (allocate_refused (.dict entries)).failed hr
    exact ⟨entries, rfl⟩
  | failed f₁ m₁ =>
    rw [hfill] at hr
    cases hr
    exact absurd hkind ((fillDict_givesBack [] pairs).failed hfill)
  | fault g =>
    rw [hfill] at hr
    cases hr

end Machine

/-- What a container that is refused would have held is not given back; all else is. -/
theorem Request.Refused.givesBack (hq : q.Refused f) (hr : (q.perform H).run m = .failed f m') :
    m.GivesBack (handles q.consumed) (handles (q.contents m)) m' := by
  obtain ⟨hbuilds, hkind⟩ := hq
  have hvalue {a : Action υ Failure Value}
      (ha : (do return [← a] : Action υ Failure (List Value)).run m = .failed f m') :
      a.run m = .failed f m' := by
    cases hrun : a.run m <;> simp_all
  cases q with
  | newList items =>
    obtain rfl := (allocate_refused (.list items)).failed (hvalue hr)
    exact .refl m' _
  | newTuple items =>
    obtain rfl := (allocate_refused (.tuple items)).failed (hvalue hr)
    exact .refl m' _
  | newInstance type fields =>
    obtain rfl := (newInstance_refused type fields).failed (hvalue hr) hkind
    exact .refl m' _
  | newDict pairs =>
    obtain ⟨entries, hfill⟩ := newDict_refused (hvalue hr) hkind
    have hback := (fillDict_givesBack [] pairs).done hfill
    simpa [contents, consumed, hfill, Outcome.done?] using hback
  | _ => cases hbuilds

/-- Releasing what the refused container would have held leads to where releasing all that was given
leads to. Hence the entries in use with their counts and charges, and the meter, are those that
releasing all that was given leaves exactly if the container would have held no reference. -/
theorem refused_container_keeps_contents (hs : m.heap.Sound m.registry (owned + handles q.consumed))
    (hr : (q.perform H).run m = .failed f m') (hq : q.Refused f) :
    ∃ h₁ h₂, m.heap.releaseAll q.consumed = .ok h₁ ∧
      m'.heap.releaseAll (q.contents m) = .ok h₂ ∧ h₁.Reordered h₂ ∧
      (((∀ r, m'.heap.lookup? r = h₁.lookup? r) ∧ m'.heap.meter = h₁.meter) ↔
        handles (q.contents m) = 0) := by
  obtain ⟨vs, hvs, hheld⟩ := (hq.givesBack hr).released
  obtain ⟨h₁, hh₁⟩ := hs.releaseAll
  have hall : handles q.consumed = handles (vs ++ q.contents m) := by rw [handles_append, hheld]
  obtain ⟨h₂, hh₂, hsame⟩ := Heap.releaseAll_of_handles hall hh₁
  obtain ⟨k, hk, hrest⟩ := Heap.releaseAll_append.1 hh₂
  obtain rfl : m'.heap = k := Except.ok.inj (hvs.symm.trans hk)
  refine ⟨h₁, h₂, hh₁, hrest, hsame, ?_⟩
  constructor
  · rintro ⟨hlookup, -⟩
    apply Heap.handles_eq_zero_of_releaseAll hrest
    intro r
    rw [hlookup, hsame.lookup?_eq]
  · intro hnone
    have hkept : m'.heap.Reordered h₂ := by
      have hnothing : handles (q.contents m) = handles [] := hnone
      obtain ⟨h₃, hh₃, hsame₃⟩ := Heap.releaseAll_of_handles hnothing hrest
      obtain rfl : m'.heap = h₃ := by simpa [Heap.releaseAll] using hh₃
      exact hsame₃.symm
    exact ⟨fun r => by rw [← hkept.lookup?_eq, hsame.lookup?_eq],
      by rw [← hkept.meter_eq, hsame.meter_eq]⟩

/-- Two equal keys: the second is given back, while the first and the second value stay behind. -/
def doubledKey : Request DelegateSlot :=
  .newDict [(.ref ⟨0⟩, .int 1), (.ref ⟨1⟩, .ref ⟨2⟩)]

theorem refused_container_keeps_contents_doubledKey :
    ∃ (m m' : Machine DelegateSlot) (f : Failure),
      m.heap.Sound m.registry (0 + handles doubledKey.consumed) ∧
      (doubledKey.perform (DelegateSlot.host 0)).run m = .failed f m' ∧ doubledKey.Refused f ∧
      m.heap.live = 3 ∧ m'.heap.live = 2 ∧
      ∃ h₁ h₂, m.heap.releaseAll doubledKey.consumed = .ok h₁ ∧
        m'.heap.releaseAll (doubledKey.contents m) = .ok h₂ ∧ h₁.Reordered h₂ ∧
        (((∀ r, m'.heap.lookup? r = h₁.lookup? r) ∧ m'.heap.meter = h₁.meter) ↔
          handles (doubledKey.contents m) = 0) := by
  have hrun : ((Client.follow (DelegateSlot.host 0) Client.Careful
      (.start { limits := { allocations := some 3, memory := some 300 } })
      [.newBytes [0x61], .newBytes [0x61], .newBytes [0x62]]).any fun c =>
        c.owned = 0 + handles doubledKey.consumed ∧ c.machine.heap.live = 3 ∧
        (((doubledKey.perform (DelegateSlot.host 0)).run c.machine).failed?.any fun p =>
          doubledKey.Refused p.1 ∧ p.2.heap.live = 2)) = true := by decide +kernel
  obtain ⟨c, hc, howned, hlive, hfailed⟩ := Client.exists_reached hrun
  obtain ⟨⟨f, m'⟩, hfailed, hp⟩ := (Option.any_eq_true _ _).1 hfailed
  obtain ⟨hrefused, hlive'⟩ := of_decide_eq_true hp
  have hr := Outcome.failed?_eq_some.1 hfailed
  have hs : c.machine.heap.Sound c.machine.registry c.owned := hc.sound (DelegateSlot.host_careful 0)
  rw [howned] at hs
  exact ⟨c.machine, m', f, hs, hr, hrefused, hlive, hlive',
    refused_container_keeps_contents hs hr hrefused⟩

/-- A list of one byte string that there is no room for: the string stays in use, though it was given
away and nothing holds it. -/
theorem refused_list_strands_its_item :
    ∃ (m m' : Machine DelegateSlot) (f : Failure) (h₁ : Heap),
      m.heap.Sound m.registry (handles [.ref ⟨0⟩]) ∧
      ((Request.newList [.ref ⟨0⟩]).perform (DelegateSlot.host 0)).run m = .failed f m' ∧
      f.kind = .resourceExhausted ∧ m.heap.releaseAll [.ref ⟨0⟩] = .ok h₁ ∧
      m'.heap.lookup? ⟨0⟩ ≠ h₁.lookup? ⟨0⟩ := by
  have hrun : ((Client.follow (DelegateSlot.host 0) Client.Careful
      (.start { limits := { allocations := some 1 } }) [.newBytes [0x61]]).any fun c =>
        c.owned = handles [.ref ⟨0⟩] ∧
        (((Request.newList [.ref ⟨0⟩]).perform (DelegateSlot.host 0)).run c.machine).failed?.any
          fun p => p.1.kind = .resourceExhausted ∧ p.2.heap.isLive ⟨0⟩ ∧
            (c.machine.heap.releaseAll [.ref ⟨0⟩]).toOption.any fun h₁ => h₁.isLive ⟨0⟩ = false) =
      true := by decide +kernel
  obtain ⟨c, hc, howned, hfailed⟩ := Client.exists_reached hrun
  obtain ⟨⟨f, m'⟩, hfailed, hp⟩ := (Option.any_eq_true _ _).1 hfailed
  obtain ⟨hkind, hlive, hreleased⟩ := of_decide_eq_true hp
  have hs : c.machine.heap.Sound c.machine.registry c.owned := hc.sound (DelegateSlot.host_careful 0)
  rw [howned] at hs
  have hgiven : c.machine.heap.Sound c.machine.registry (0 + handles [.ref ⟨0⟩]) := by rwa [zero_add]
  obtain ⟨h₁, hh₁⟩ := hgiven.releaseAll
  refine ⟨c.machine, m', f, h₁, hs, Outcome.failed?_eq_some.1 hfailed, hkind, hh₁, ?_⟩
  intro heq
  simp only [hh₁, Except.toOption, Option.any_some, decide_eq_true_eq] at hreleased
  rw [Heap.isLive, heq, ← Heap.isLive, hreleased] at hlive
  cases hlive

end ItemAccess
