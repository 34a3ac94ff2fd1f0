import ItemAccess.Proofs.FaultFreedom
import ItemAccess.Proofs.Machine.Lookup

/-!
# A failed access changes nothing

An access that the host has no part in, and that fails, leaves the machine as it was. Only the tracer
has been told of it.
-/

namespace ItemAccess

open Attempt Machine

variable {υ : SlotKind → Type} {α : Type} {H : Host υ} {m m' : Machine υ} {q : Request υ}
  {owned : Multiset Handle} {v target key : Value} {f : Failure}

namespace Machine

theorem assign_clean (hs : m.heap.Sound m.registry owned) (hquiet : m.pending = {})
    (hkey : m.heap.Present key) (hindex : m.Unserved key .asIndex)
    (hset : m.Unserved target .set) (hsetAt : m.Unserved target .setAt) :
    (assign H v target key).Ends m False (fun _ _ => True) fun _ m' => m.Alike m' := by
  have hsame : m.Alike m := ⟨m.tracer, rfl⟩
  simp only [assign, ends_bind]
  refine typeOf_ends False.elim fun type htype => typeObject_ends False.elim fun t ht => ?_
  cases hslot : t.capabilities.set? with
  | some s =>
    cases s with
    | host u => exact absurd ⟨type, t, htype, ht, hslot⟩ (hset u)
    | builtin b =>
      simp only [ends_bind]
      refine noteDispatch_ends False.elim fun tracer => ?_
      have hclean : Clean False (callSet H (.builtin b) target key v) { m with tracer := tracer } :=
        callSet_clean (m := { m with tracer := tracer }) hs hquiet hkey hindex b
      exact hclean.settle hquiet
  | none =>
    cases htable : t.capabilities.sequence? with
    | none =>
      simp only [ends_bind, ends_refuse]
      exact typeName_ends False.elim fun _ => hsame
    | some table =>
      simp only [ends_bind]
      refine isIndexLike_ends False.elim fun b => ends_ite (fun _ => ?_) fun _ => ?_
      · cases htableSet : table.set with
        | none =>
          simp only [ends_bind, ends_refuse]
          exact typeName_ends False.elim fun _ => hsame
        | some s =>
          have hslotAt : t.slot? .setAt = some s := by simp [TypeObject.slot?, htable, htableSet]
          cases s with
          | host u => exact absurd ⟨type, t, htype, ht, hslotAt⟩ (hsetAt u)
          | builtin b =>
            -- Only lists have such a slot, and they have one by key as well.
            cases b
            obtain rfl : type = BuiltinKind.list.typeId :=
              hs.built.receiver hs.served ht hslotAt (c := .list) rfl
            obtain ⟨model, hlist⟩ := hs.built.get? .list
            obtain rfl := Option.some.inj (ht.symm.trans hlist)
            cases hslot
      · refine ends_ite (fun _ => ?_) fun _ => ?_
        · simp only [ends_bind, ends_refuse]
          exact nameOfType_ends False.elim fun _ => hsame
        · simp only [ends_bind, ends_refuse]
          exact typeName_ends False.elim fun _ => hsame

theorem delete_clean (hs : m.heap.Sound m.registry owned) (hquiet : m.pending = {})
    (hkey : m.heap.Present key) (hindex : m.Unserved key .asIndex)
    (hdel : m.Unserved target .del) :
    (delete H target key).Ends m False (fun _ _ => True) fun _ m' => m.Alike m' := by
  simp only [delete, ends_bind]
  refine typeOf_ends False.elim fun type htype => noteDispatch_ends False.elim fun tracer => ?_
  refine typeObject_ends False.elim fun t ht => ?_
  cases hslot : t.capabilities.del? with
  | some s =>
    cases s with
    | host u => exact absurd ⟨type, t, htype, ht, hslot⟩ (hdel u)
    | builtin b =>
      have hclean : Clean False (callDel H (.builtin b) target key) { m with tracer := tracer } :=
        callDel_clean (m := { m with tracer := tracer }) hs hquiet hkey hindex b
      exact hclean.settle hquiet
  | none =>
    simp only [ends_bind, ends_refuse]
    exact typeName_ends False.elim fun _ => ⟨tracer, rfl⟩

theorem lookupConst_clean (hs : m.heap.Sound m.registry owned) (hquiet : m.pending = {})
    (htarget : m.heap.Present target) (hkey : m.heap.Present key)
    (hindex : m.Unserved key .asIndex) (hget : m.Unserved target .get)
    (hgetAt : m.Unserved target .getAt) (i : Int64) :
    (lookupConst H target key i).Ends m False (fun _ _ => True) fun _ m' => m.Alike m' := by
  have hsame : m.Alike m := ⟨m.tracer, rfl⟩
  have hslot : (lookup H .getConst target key).Ends m False (fun _ _ => True) fun _ m' => m.Alike m' :=
    lookup_clean hs hquiet htarget hkey hindex hget hgetAt False.elim .getConst
  cases target with
  | ref r =>
    simp only [lookupConst, ends_bind]
    refine readHeap_ends False.elim fun b _ => ?_
    cases b with
    | list items =>
      simp only [directItem]
      cases Position.checked i items.length with
      | none => exact hsame
      | some p =>
        simp only [ends_bind]
        exact ends_liftM False.elim fun v _ => retain_ends False.elim fun _ _ => trivial
    | bytes data =>
      simp only [ends_bind, ends_get]
      refine ends_ite (fun _ => ?_) fun _ => hslot
      simp only [directByte]
      cases Position.checked i data.length with
      | none => exact hsame
      | some p =>
        simp only [Machine.byteString, ends_bind, ends_handle, ends_throw, ends_get]
        refine ends_liftM False.elim fun b _ => ends_liftM False.elim fun x _ => ?_
        cases x with
        | error e => exact hsame
        | ok p => trivial
    | _ => exact hslot
  | _ => exact hslot

/-- An access that looks at its operands first. -/
theorem access_clean {op : Operation} {a : Action υ Failure α} {operands : List Value}
    (ha : (∀ v ∈ operands, m.heap.Present v) → m.pending = {} →
      a.Ends m False (fun _ _ => True) fun _ m' => m.Alike m') :
    (do enter operands; finish op a : Action υ Failure α).Ends m False (fun _ _ => True)
      fun _ (m' : Machine υ) => m.Alike m' ∧ m'.pending = {} := by
  rw [ends_bind]
  refine enter_ends False.elim fun hoperands hquiet => ?_
  simp only [finish, ends_handle, ends_bind, ends_note, ends_throw]
  refine (ha hoperands hquiet).mono (fun _ _ h => h) ?_
  rintro f _ ⟨tracer, rfl⟩
  exact ⟨⟨_, rfl⟩, hquiet⟩

end Machine

/-- A request to get at an item of a target, and the jobs that slots can do for it. -/
inductive Request.Access (target key : Value) : Request υ → List SlotKind → Prop
  | get : Access target key (.get target key) [.get, .getAt]
  | getConst (i : Int64) : Access target key (.getConst target key i) [.get, .getAt]
  | set (v : Value) : Access target key (.set v target key) [.set, .setAt]
  | del : Access target key (.del target key) [.del]

/-- A likeness that the slots of the host respect is kept by every access. -/
theorem Request.Access.keeps {L : Likeness υ} {jobs : List SlotKind} (hq : q.Access target key jobs)
    (hL : L.Lawful) (hH : H.Respects L) (hnote : L.Hears) : L.Keeps L.calm (q.perform H) := by
  cases hq with
  | get => exact .bind (hL.getItem hH hnote target key) fun _ => .pure _
  | getConst i => exact .bind (hL.getItemConst hH hnote target key i) fun _ => .pure _
  | set v => exact .bind (hL.setItem hH hnote v target key) fun _ => .pure _
  | del => exact .bind (hL.delItem hH hnote target key) fun _ => .pure _

/-- A careful client owns the operands of an access, and nothing is pending. -/
theorem Client.Careful.access {c : Client υ} {jobs : List SlotKind} (hq : c.Careful q)
    (hon : q.Access target key jobs) :
    (∀ v ∈ q.borrowed, v.Within c.owned) ∧ c.machine.pending = {} := by
  have hconsumed : q.consumed = [] := by cases hon <;> rfl
  have hquiet : c.machine.pending.isSet = false := by
    cases hon <;> exact hq.timely
  refine ⟨fun v hv => ?_, Pending.eq_empty hquiet⟩
  have hwithin := hq.owns.borrowed v hv
  rwa [hconsumed, handles_nil, Multiset.sub_zero] at hwithin

theorem Request.Access.clean {jobs : List SlotKind} (hq : q.Access target key jobs)
    (hm : m.WellFormed) (htarget : m.HostFree target jobs) (hkey : m.HostFree key [.asIndex]) :
    (q.perform H).Ends m False (fun _ _ => True)
      fun _ (m' : Machine υ) => m.Alike m' ∧ m'.pending = {} := by
  obtain ⟨owned, hs⟩ := hm
  have hindex : m.Unserved key .asIndex := hkey.unserved hs.built (by simp)
  have hjob {k : SlotKind} (hk : k ∈ jobs) : m.Unserved target k := htarget.unserved hs.built hk
  cases hq with
  | get =>
    simp only [Request.perform, ends_bind, ends_pure]
    refine access_clean fun hoperands hquiet => ?_
    exact lookup_clean hs hquiet (hoperands target (by simp)) (hoperands key (by simp)) hindex
      (hjob (by simp)) (hjob (by simp)) False.elim .get
  | getConst i =>
    simp only [Request.perform, ends_bind, ends_pure]
    refine access_clean fun hoperands hquiet => ?_
    exact lookupConst_clean hs hquiet (hoperands target (by simp)) (hoperands key (by simp)) hindex
      (hjob (by simp)) (hjob (by simp)) i
  | set v =>
    simp only [Request.perform, ends_bind, ends_pure]
    refine access_clean fun hoperands hquiet => ?_
    exact assign_clean hs hquiet (hoperands key (by simp)) hindex (hjob (by simp)) (hjob (by simp))
  | del =>
    simp only [Request.perform, ends_bind, ends_pure]
    refine access_clean fun hoperands hquiet => ?_
    exact delete_clean hs hquiet (hoperands key (by simp)) hindex (hjob (by simp))

/-- A failed access to a target that the host does not serve, with a key that the host makes no index
of, leaves the store with its meter, the types and the settings as they were, and nothing pending. -/
theorem failed_access_changes_nothing {jobs : List SlotKind} (hm : m.WellFormed)
    (hq : q.Access target key jobs) (htarget : m.HostFree target jobs)
    (hkey : m.HostFree key [.asIndex]) (hr : (q.perform H).run m = .failed f m') :
    m' = { m with tracer := m'.tracer } ∧ m'.pending = {} := by
  obtain ⟨⟨tracer, rfl⟩, hquiet⟩ := (hq.clean hm htarget hkey).failed hr
  exact ⟨rfl, hquiet⟩

/-- A dict that there is no room for a large integer in. -/
theorem failed_access_changes_nothing_fullDict :
    ∃ (m m' : Machine DelegateSlot) (f : Failure), m.WellFormed ∧
      m.HostFree (.ref ⟨0⟩) [.set, .setAt] ∧ m.HostFree (.ref ⟨1⟩) [.asIndex] ∧
      ((Request.set (.int 7) (.ref ⟨0⟩) (.ref ⟨1⟩)).perform (DelegateSlot.host 2)).run m =
        .failed f m' ∧ m' = { m with tracer := m'.tracer } ∧ m'.pending = {} := by
  have hrun : ((Client.follow (DelegateSlot.host 2) Client.Careful
      (.start { limits := { memory := some 200 }, trace := .stderr })
      [.newDict [], .newInt (2 ^ 70)]).any fun c =>
        c.machine.heap.typeOf (.ref ⟨0⟩) = .ok BuiltinKind.dict.typeId ∧
        c.machine.heap.typeOf (.ref ⟨1⟩) = .ok BuiltinKind.int.typeId ∧
        (((Request.set (.int 7) (.ref ⟨0⟩) (.ref ⟨1⟩)).perform (DelegateSlot.host 2)).run
          c.machine).failure?.isSome) = true := by decide +kernel
  obtain ⟨c, hc, htarget, hkey, hfailed⟩ := Client.exists_reached hrun
  obtain ⟨f, hf⟩ := Option.isSome_iff_exists.1 hfailed
  obtain ⟨m', hr⟩ := Outcome.failure?_eq_some.1 hf
  have hs := hc.sound (DelegateSlot.host_careful 2)
  have htarget : c.machine.HostFree (.ref ⟨0⟩) [.set, .setAt] := .of_builtin hs.built htarget _
  have hkey : c.machine.HostFree (.ref ⟨1⟩) [.asIndex] := .of_builtin hs.built hkey _
  exact ⟨c.machine, m', f, ⟨c.owned, hs⟩, htarget, hkey, hr,
    failed_access_changes_nothing ⟨c.owned, hs⟩ (.set _) htarget hkey hr⟩

end ItemAccess
