import ItemAccess.Proofs.Object.Position
import ItemAccess.Proofs.PendingErrors
import ItemAccess.Proofs.Store.SharedBytes

/-!
# What the tracer is told of an access

A read that needs no slot is told with the position that it found. Any other access is told with the
slot that it came to, and a deletion in any case. A failure is told last. There are no other events, as
long as the slots of the host do not access items in their turn.
-/

namespace ItemAccess

open Attempt Machine

variable {υ : SlotKind → Type} {α : Type} {H : Host υ} {m m₀ m' : Machine υ} {q : Request υ}
  {id kid : TypeId} {t kt : TypeObject υ} {v obj target key : Value} {jobs : List SlotKind}
  {es : List Event} {f : Failure}

namespace Machine

/-- The tracer has been told nothing, and types have only been added. -/
structure Unheard (m m' : Machine υ) : Prop where
  tracer : m'.tracer = m.tracer
  types : m.registry.types <+: m'.registry.types

theorem Unheard.refl (m : Machine υ) : m.Unheard m :=
  ⟨rfl, List.prefix_rfl⟩

theorem Unheard.trans {m m₁ m₂ : Machine υ} (h₁ : m.Unheard m₁) (h₂ : m₁.Unheard m₂) :
    m.Unheard m₂ :=
  ⟨h₂.tracer.trans h₁.tracer, h₁.types.trans h₂.types⟩

/-- However the computation ends, the tracer has been told nothing. -/
def Untold {ε : Type} (a : Action υ ε α) : Prop :=
  ∀ m, a.Ends m False (fun _ m' => m.Unheard m') fun _ m' => m.Unheard m'

end Machine

/-- The slots of the host tell the tracer nothing. They are free to do all else, only that they do not
access items in their turn and leave the tracer in its place. -/
abbrev Host.Untold (H : Host υ) : Prop :=
  H.All Machine.Untold

namespace Likeness

abbrev unheardSince (m : Machine υ) : Likeness υ :=
  .ofInvariant m.Unheard m.Unheard

theorem unheardSince_lawful (m : Machine υ) : (unheardSince m).Lawful := by
  apply Invariant.lawful
  constructor
  · rintro m₁ _ h₁ ⟨h, -, rfl⟩
    exact h₁.trans ⟨rfl, List.prefix_rfl⟩
  · exact fun _ h₁ => h₁.trans ⟨rfl, List.prefix_rfl⟩
  · exact fun h₁ => h₁.trans ⟨rfl, List.prefix_rfl⟩

end Likeness

theorem Host.Untold.respects (hH : H.Untold) (m : Machine υ) : H.Respects (.unheardSince m) :=
  Host.All.respects hH fun ha m₁ h₁ =>
    (ha m₁).mono (fun _ _ h₂ => h₁.trans h₂) fun _ _ h₂ => h₁.trans h₂

theorem Host.raising_untold (e : Exception) : (raising e : Host υ).Untold where
  get _ _ _ _ := ⟨rfl, List.prefix_rfl⟩
  set _ _ _ _ _ := ⟨rfl, List.prefix_rfl⟩
  del _ _ _ _ := ⟨rfl, List.prefix_rfl⟩
  getAt _ _ _ _ := ⟨rfl, List.prefix_rfl⟩
  setAt _ _ _ _ _ := ⟨rfl, List.prefix_rfl⟩
  asIndex _ _ _ := ⟨rfl, List.prefix_rfl⟩

/-- The making of an index is not for the tracer. -/
theorem Machine.toIndex_untold (hH : H.Untold) (key : Value) : Machine.Untold (toIndex H key) :=
  fun m => Relates.ends ((Likeness.unheardSince_lawful m).toIndex (hH.respects m) key) (.refl m)

def Tracer.noteAll (t : Tracer) (es : List Event) : Tracer :=
  es.foldl note t

/-- A recording without a limit has them all. -/
theorem Tracer.noteAll_recording (events es : List Event) :
    (recording { events }).noteAll es = recording { events := events ++ es.map Event.recorded } := by
  induction es generalizing events with
  | nil => simp [noteAll]
  | cons e es ih =>
    have hnote : (recording { events }).note e = recording { events := events ++ [e.recorded] } := rfl
    have hrest := ih (events ++ [e.recorded])
    rw [List.append_assoc, List.singleton_append] at hrest
    rw [noteAll, List.foldl_cons, hnote, List.map_cons]
    exact hrest

def Outcome.tracer? {ε : Type} : Outcome (Machine υ) ε α → Option Tracer
  | .done _ m => some m.tracer
  | .failed _ m => some m.tracer
  | .fault _ => none

theorem Outcome.ne_fault_of_tracer? {ε : Type} {o : Outcome (Machine υ) ε α} {tracer : Tracer}
    (htracer : o.tracer? = some tracer) (f : Fault) : o ≠ .fault f := by
  rintro rfl
  cases htracer

namespace Request

/-- The table that has the slot which an access calls. Deletion names none. -/
def route (t : TypeObject υ) : Request υ → Route
  | .set _ _ _ => if (t.slot? .set).isSome then .mapping else .sequence
  | .del _ _ => .generic
  | _ => if (t.slot? .get).isSome then .mapping else .sequence

/-- The reads that need no slot, with the kind of the container, the position and the value. A byte is
given as the string of just this byte. -/
inductive Finds (m m' : Machine υ) : Request υ → BuiltinKind → Nat → Value → Prop
  | item {r : Handle} {key : Value} {i : Int64} {items : List Value} {v : Value}
    (hb : m.heap.body r = .ok (.list items)) (hi : Position.InRange i.toInt items.length)
    (hv : items[Position.ofInteger i.toInt items.length]? = some v) :
    Finds m m' (.getConst (.ref r) key i) .list (Position.ofInteger i.toInt items.length) v
  | byte {r s : Handle} {key : Value} {i : Int64} {data : List UInt8} {b : UInt8}
    (hmodel : m.settings.textModel = .byteString) (hb : m.heap.body r = .ok (.bytes data))
    (hi : Position.InRange i.toInt data.length)
    (hbyte : data[Position.ofInteger i.toInt data.length]? = some b)
    (hs : m'.heap.body s = .ok (.bytes [b])) :
    Finds m m' (.getConst (.ref r) key i) .bytes (Position.ofInteger i.toInt data.length) (.ref s)

/-- How an access to a target of the type `t`, with a key of the type `kt`, ends and what is told. -/
inductive Tells (H : Host υ) (m : Machine υ) (id : TypeId) (target key : Value)
    (t kt : TypeObject υ) (q : Request υ) :
    Outcome (Machine υ) Failure (List Value) → List Event → Prop
  | found {m' : Machine υ} {kind : BuiltinKind} {position : Nat} {v : Value}
    (hno : ¬ ∃ a m₀, q.Calls H m id target key t kt a m₀) (hfinds : q.Finds m m' kind position v) :
    Tells H m id target key t kt q (.done [v] m') [.direct kind position]
  | served {a : SlotAction υ (List Value)} {m₀ m' : Machine υ} {vs : List Value}
    (hcall : q.Calls H m id target key t kt a m₀) (hrun : a.run m₀ = .done vs m') :
    Tells H m id target key t kt q (.done vs m') [.dispatch q.operation (q.route t) t.name]
  | slotFailed {a : SlotAction υ (List Value)} {m₀ m₁ m' : Machine υ} {f : Failure}
    (hcall : q.Calls H m id target key t kt a m₀) (hrun : a.run m₀ = .failed {} m₁)
    (hf : m₁.pending.Reported f) :
    Tells H m id target key t kt q (.failed f m')
      [.dispatch q.operation (q.route t) t.name, .failure q.operation f]
  | noDeletion {m' : Machine υ} {f : Failure}
    (hno : ¬ ∃ a m₀, q.Calls H m id target key t kt a m₀) (hop : q.operation = .del) :
    Tells H m id target key t kt q (.failed f m')
      [.dispatch q.operation .generic t.name, .failure q.operation f]
  | refused {m' : Machine υ} {f : Failure}
    (hno : ¬ ∃ a m₀, q.Calls H m id target key t kt a m₀) (hop : q.operation ≠ .del) :
    Tells H m id target key t kt q (.failed f m') [.failure q.operation f]

end Request

def Service.route (S : Service υ α) : Route :=
  if S.byKey.isSome then .mapping else .sequence

/-- The tracer is told of the slot just before it is called. -/
theorem Service.Calls.tracer {S : Service υ α} {a : SlotAction υ α} (hH : H.Untold)
    (ht : m.registry.get? id = some t) (hcall : S.Calls H m id obj key kt a m₀) :
    m₀.tracer = m.tracer.note (.dispatch S.op S.route t.name) := by
  cases hcall with
  | byKey ha hnote =>
    rw [run_noteDispatch S.op .mapping ht] at hnote
    cases hnote
    simp [Service.route, ha]
  | byPosition hkey ha hlike hi hj hnote =>
    have hunheard := (toIndex_untold hH key m).done hi
    rw [run_noteDispatch S.op .sequence (Registry.get?_extend hunheard.types ht)] at hnote
    cases hnote
    simp [Service.route, hkey, hunheard.tracer]

/-- Without a slot an access fails, and the tracer has been told nothing so far. -/
theorem Service.Leads.uncalled {S : Service υ α} {o : Outcome (Machine υ) Failure α}
    (hH : H.Untold) (hleads : S.Leads H m id obj key kt o)
    (hno : ∀ a m₀, ¬ S.Calls H m id obj key kt a m₀) :
    (∃ f m₁, o = .failed f m₁ ∧ m₁.tracer = m.tracer) ∨ ∃ f, o = .fault f := by
  cases hleads with
  | called hcall => exact absurd hcall (hno _ _)
  | noIndexing => exact .inl ⟨_, m, rfl, rfl⟩
  | noConversion _ _ _ hf =>
    have hunheard := (toIndex_untold hH key m).failed hf
    exact .inl ⟨_, _, rfl, hunheard.tracer⟩
  | notAnIndex => exact .inl ⟨_, m, rfl, rfl⟩
  | unserved => exact .inl ⟨_, m, rfl, rfl⟩
  | broken => exact .inr ⟨_, rfl⟩

theorem Pending.exists_reported (p : Pending) : ∃ f, p.Reported f := by
  obtain ⟨_ | e⟩ := p
  · exact ⟨_, .nothing⟩
  · exact ⟨_, .left e⟩

namespace Request

variable {a : SlotAction υ (List Value)}

/-- What goes on inside a slot is not for the tracer. -/
theorem Calls.untold (hH : H.Untold) (hcall : q.Calls H m id target key t kt a m₀) :
    Machine.Untold a := by
  intro m
  have hL := Likeness.unheardSince_lawful m
  have hR := hH.respects m
  have hkeeps : (Likeness.unheardSince m).Keeps (Likeness.unheardSince m).raised a := by
    cases hcall with
    | read hq ha =>
      apply Likeness.Keeps.map
      cases ha with
      | byKey ha =>
        obtain ⟨s, -, rfl⟩ := Option.map_eq_some_iff.1 ha
        exact hL.callGet hR (fun _ _ => trivial) target key
      | byPosition hkey ha =>
        obtain ⟨s, -, rfl⟩ := Option.map_eq_some_iff.1 ha
        exact hL.callGetAt hR (fun _ _ => trivial) target _
    | store ha =>
      apply Likeness.Keeps.map
      cases ha with
      | byKey ha =>
        obtain ⟨s, -, rfl⟩ := Option.map_eq_some_iff.1 ha
        exact hL.callSet hR (fun _ _ => trivial) target key _
      | byPosition hkey ha =>
        obtain ⟨s, -, rfl⟩ := Option.map_eq_some_iff.1 ha
        exact hL.callSetAt hR (fun _ _ => trivial) target _ _
    | delete hs => exact .map _ (hL.callDel hR (fun _ _ => trivial) target key)
  exact Relates.ends hkeeps (.refl m)

theorem Calls.tracer (hH : H.Untold) (ht : m.registry.get? id = some t)
    (hcall : q.Calls H m id target key t kt a m₀) :
    m₀.tracer = m.tracer.note (.dispatch q.operation (q.route t) t.name) := by
  cases hcall with
  | read hq ha =>
    rw [ha.tracer hH ht]
    cases hq <;> simp [Service.route, TypeObject.reading, route, operation]
  | store ha =>
    rw [ha.tracer hH ht]
    simp [Service.route, TypeObject.storing, route, operation]
  | delete hs => rfl

/-- A dispatch is told of exactly when a slot is called, and of a deletion always. -/
theorem Tells.dispatch_mem_iff {o : Outcome (Machine υ) Failure (List Value)}
    (htells : q.Tells H m id target key t kt o es) :
    (∃ op route type, .dispatch op route type ∈ es) ↔
      q.operation = .del ∨ ∃ a m₀, q.Calls H m id target key t kt a m₀ := by
  cases htells with
  | found hno hfinds =>
    have hop : q.operation ≠ .del := by cases hfinds <;> simp [operation]
    simp [hno, hop]
  | served hcall => exact iff_of_true ⟨_, _, _, List.mem_cons_self⟩ (.inr ⟨_, _, hcall⟩)
  | slotFailed hcall => exact iff_of_true ⟨_, _, _, List.mem_cons_self⟩ (.inr ⟨_, _, hcall⟩)
  | noDeletion hno hop => simp [hop]
  | refused hno hop => simp [hno, hop]

/-- The events of an access are told, and no others. -/
def Traced (H : Host υ) (m : Machine υ) (id : TypeId) (target key : Value) (t kt : TypeObject υ)
    (q : Request υ) (o : Outcome (Machine υ) Failure (List Value)) : Prop :=
  ∃ es, q.Tells H m id target key t kt o es ∧ o.tracer? = some (m.tracer.noteAll es)

theorem Calls.traced (hH : H.Untold) (ht : m.registry.get? id = some t)
    (hcall : q.Calls H m id target key t kt a m₀)
    (hnofault : ∀ f, (settle a).run m₀ ≠ .fault f) :
    q.Traced H m id target key t kt (((settle a).run m₀).told q.operation) := by
  have hfirst := hcall.tracer hH ht
  have huntold := hcall.untold hH m₀
  cases hrun : a.run m₀ with
  | done vs m' =>
    rw [run_settle_done hrun]
    refine ⟨_, .served hcall hrun, ?_⟩
    simp [Outcome.told, Outcome.tracer?, Tracer.noteAll, (huntold.done hrun).tracer, hfirst]
  | failed e m₁ =>
    obtain ⟨f, hf⟩ := m₁.pending.exists_reported
    rw [run_settle_failed hrun hf]
    refine ⟨_, .slotFailed hcall hrun hf, ?_⟩
    simp [Outcome.told, Outcome.tracer?, Tracer.noteAll, (huntold.failed hrun).tracer, hfirst]
  | fault f => exact absurd (by simp [Machine.settle, hrun]) (hnofault f)

/-- An access that fails before a slot is called. -/
theorem traced_refused {op : Operation} {m₁ : Machine υ} (hop : q.operation = op) (hdel : op ≠ .del)
    (hno : ¬ ∃ a m₀, q.Calls H m id target key t kt a m₀) (htracer : m₁.tracer = m.tracer) :
    q.Traced H m id target key t kt ((.failed f m₁ : Outcome _ _ _).told op) := by
  subst hop
  refine ⟨_, .refused hno hdel, ?_⟩
  simp [Outcome.told, Outcome.tracer?, Tracer.noteAll, htracer]

/-- An access that follows the rules for what a type has, and calls no slot. -/
theorem traced_uncalled {S : Service υ α} {b : Action υ Failure α} (g : α → List Value)
    (hH : H.Untold) (hop : q.operation = S.op) (hdel : S.op ≠ .del)
    (ht : m.registry.get? id = some t)
    (hrun : b.run m = (S.answer H id target key kt).run m)
    (hnone : ∀ a m₀, ¬ S.Calls H m id target key kt a m₀)
    (hno : ¬ ∃ a m₀, q.Calls H m id target key t kt a m₀)
    (hnofault : ∀ f, ((g <$> b).run m).told S.op ≠ .fault f) :
    q.Traced H m id target key t kt (((g <$> b).run m).told S.op) := by
  obtain ⟨o, hleads⟩ := S.exists_leads H target key kt ht
  rw [run_map, hrun, hleads.run_answer] at hnofault ⊢
  rcases hleads.uncalled hH hnone with ⟨f, m₁, rfl, htracer⟩ | ⟨f, rfl⟩
  · exact traced_refused hop hdel hno htracer
  · exact absurd rfl (hnofault f)

theorem directItem_ends (items : List Value) (i : Int64) :
    (directItem items i : Action υ Failure Value).Ends m False
      (fun v m' => Position.InRange i.toInt items.length ∧
        items[Position.ofInteger i.toInt items.length]? = some v ∧
        m'.tracer = m.tracer.note (.direct .list (Position.ofInteger i.toInt items.length)))
      fun _ m' => m'.tracer = m.tracer := by
  by_cases hi : Position.InRange i.toInt items.length
  · simp only [directItem, Position.checked_of_inRange hi, ends_bind, ends_note, ends_pure]
    apply ends_liftM False.elim
    intro v hv
    apply retain_ends False.elim
    intro h' _
    exact ⟨hi, atPosition_eq_ok.1 hv, rfl⟩
  · simp only [directItem, Position.checked_of_not_inRange hi]
    exact rfl

theorem directByte_ends (hp : m.heap.Pinned) (data : List UInt8) (i : Int64) :
    (directByte data i : Action υ Failure Value).Ends m False
      (fun v m' => Position.InRange i.toInt data.length ∧
        (∃ b s, data[Position.ofInteger i.toInt data.length]? = some b ∧ v = .ref s ∧
          m'.heap.body s = .ok (.bytes [b])) ∧
        m'.tracer = m.tracer.note (.direct .bytes (Position.ofInteger i.toInt data.length)))
      fun _ m' => m'.tracer = m.tracer := by
  by_cases hi : Position.InRange i.toInt data.length
  · simp only [directByte, Machine.byteString, Position.checked_of_inRange hi, ends_bind, ends_handle,
      ends_throw, ends_get]
    apply ends_liftM False.elim
    intro b hb
    apply ends_liftM False.elim
    intro x hx
    cases x with
    | error e => exact rfl
    | ok p => exact ⟨hi, ⟨b, p.1, atPosition_eq_ok.1 hb, rfl, hp.byteString hx⟩, rfl⟩
  · simp only [directByte, Position.checked_of_not_inRange hi]
    exact rfl

theorem lookupConst_ends {i : Int64} (hp : m.heap.Pinned) (hd : m.Direct target) :
    (lookupConst H target key i).Ends m False
      (fun v m' => ∃ kind position, (getConst target key i).Finds m m' kind position v ∧
        m'.tracer = m.tracer.note (.direct kind position)) fun _ m' => m'.tracer = m.tracer := by
  rcases hd with ⟨r, items, rfl, hb⟩ | ⟨⟨r, data, rfl, hb⟩, hmodel⟩
  · have hrun : (lookupConst H (.ref r) key i).run m = (directItem items i).run m := by
      simp [lookupConst, run_readHeap (f := (·.body r)) hb]
    apply Ends.of_run _ hrun
    apply (directItem_ends items i).mono
    · intro v m' hfound
      obtain ⟨hi, hv, htracer⟩ := hfound
      exact ⟨_, _, .item hb hi hv, htracer⟩
    · exact fun _ _ htracer => htracer
  · have hrun : (lookupConst H (.ref r) key i).run m = (directByte data i).run m := by
      simp [lookupConst, run_readHeap (f := (·.body r)) hb, hmodel]
    apply Ends.of_run _ hrun
    apply (directByte_ends hp data i).mono
    · intro v m' hfound
      obtain ⟨hi, ⟨b, s, hbyte, rfl, hs⟩, htracer⟩ := hfound
      exact ⟨_, _, .byte hmodel hb hi hbyte hs, htracer⟩
    · exact fun _ _ htracer => htracer

theorem traced_direct {i : Int64} (hp : m.heap.Pinned) (hd : m.Direct target)
    (htarget : m.heap.Present target) (hkey : m.heap.Present key) (hquiet : m.pending = {})
    (hno : ¬ ∃ a m₀, (getConst target key i).Calls H m id target key t kt a m₀)
    (hnofault : ∀ f, ((getConst target key i).perform H).run m ≠ .fault f) :
    (getConst target key i).Traced H m id target key t kt
      (((getConst target key i).perform H).run m) := by
  have hends : (lookupConst H target key i).Ends m False
      (fun v m' => ∃ kind position, (getConst target key i).Finds m m' kind position v ∧
        m'.tracer = m.tracer.note (.direct kind position)) fun _ m' => m'.tracer = m.tracer :=
    lookupConst_ends hp hd
  rw [run_perform_getConst htarget hkey hquiet, run_map] at hnofault ⊢
  cases hrun : (lookupConst H target key i).run m with
  | done v m' =>
    obtain ⟨kind, position, hfinds, htracer⟩ := hends.done hrun
    refine ⟨_, .found hno hfinds, ?_⟩
    simp [Outcome.told, Outcome.tracer?, Tracer.noteAll, htracer]
  | failed f m' => exact traced_refused rfl (by simp) hno (hends.failed hrun)
  | fault f =>
    rw [hrun] at hnofault
    exact absurd rfl (hnofault f)

theorem entered_ends {operands : List Value} (a : Action υ Failure α) :
    (do enter operands; a : Action υ Failure α).Ends m False
      (fun _ _ => (∀ v ∈ operands, m.heap.Present v) ∧ m.pending = {})
      fun _ _ => (∀ v ∈ operands, m.heap.Present v) ∧ m.pending = {} := by
  rw [ends_bind]
  apply enter_ends False.elim
  intro hlive hquiet
  exact (ends_run a m).mono (fun _ _ _ => ⟨hlive, hquiet⟩) fun _ _ _ => ⟨hlive, hquiet⟩

/-- An access that comes to an end was given operands that are there, with nothing pending. -/
theorem Access.entered (hq : q.Access target key jobs)
    (hnofault : ∀ f, (q.perform H).run m ≠ .fault f) :
    (∀ v ∈ q.borrowed, m.heap.Present v) ∧ m.pending = {} := by
  have hends : (q.perform H).Ends m False
      (fun _ _ => (∀ v ∈ q.borrowed, m.heap.Present v) ∧ m.pending = {})
      fun _ _ => (∀ v ∈ q.borrowed, m.heap.Present v) ∧ m.pending = {} := by
    cases hq with
    | get =>
      simp only [perform, ends_bind, ends_pure]
      exact entered_ends (finish .get (lookup H .get target key))
    | getConst i =>
      simp only [perform, ends_bind, ends_pure]
      exact entered_ends (finish .getConst (lookupConst H target key i))
    | set v =>
      simp only [perform, ends_bind, ends_pure]
      exact entered_ends (finish .set (assign H v target key))
    | del =>
      simp only [perform, ends_bind, ends_pure]
      exact entered_ends (finish .del (delete H target key))
  cases hrun : (q.perform H).run m with
  | done vs m' => exact hends.done hrun
  | failed f m' => exact hends.failed hrun
  | fault f => exact absurd hrun (hnofault f)

/-- A deletion is told of before it is known whether there is a slot for it. -/
theorem traced_noDeletion (hid : m.heap.typeOf target = .ok id) (ht : m.registry.get? id = some t)
    (hlive : ∀ v ∈ [target, key], m.heap.Present v) (hquiet : m.pending = {})
    (hno : ¬ ∃ a m₀, (del target key).Calls H m id target key t kt a m₀) :
    (del target key).Traced H m id target key t kt (((del target key).perform H).run m) := by
  have hnone : t.slot? .del = none := by
    by_contra hsome
    obtain ⟨s, hs⟩ := Option.ne_none_iff_exists'.1 hsome
    exact hno ⟨_, _, .delete hs⟩
  rw [run_perform_del (hlive target (by simp)) (hlive key (by simp)) hquiet, run_map,
    run_delete hid ht, TypeObject.deleting, hnone]
  exact ⟨_, .noDeletion hno rfl, rfl⟩

/-- Without a slot to call, an access is a read that needs none, or it fails. -/
theorem Access.traced_of_not_calls (hH : H.Untold) (hp : m.heap.Pinned)
    (hq : q.Access target key jobs) (hid : m.heap.typeOf target = .ok id)
    (ht : m.registry.get? id = some t) (hkid : m.heap.typeOf key = .ok kid)
    (hkt : m.registry.get? kid = some kt) (hlive : ∀ v ∈ q.borrowed, m.heap.Present v)
    (hquiet : m.pending = {}) (hno : ¬ ∃ a m₀, q.Calls H m id target key t kt a m₀)
    (hnofault : ∀ f, (q.perform H).run m ≠ .fault f) :
    q.Traced H m id target key t kt ((q.perform H).run m) := by
  have htarget := Heap.present_of_typeOf hid
  have hkey := Heap.present_of_typeOf hkid
  have hread {op : Operation} (hr : q.Reads m target key op) :
      q.Traced H m id target key t kt ((q.perform H).run m) := by
    have hop : q.operation = op ∧ op ≠ .del := by cases hr <;> simp [operation]
    rw [hr.run_perform htarget hkey hquiet] at hnofault ⊢
    exact traced_uncalled _ hH hop.1 hop.2 ht (run_lookup hid ht hkid hkt op)
      (fun a m₀ ha => hno ⟨_, _, .read hr ha⟩) hno hnofault
  cases hq with
  | get => exact hread .get
  | getConst i =>
    by_cases hd : m.Direct target
    · exact traced_direct hp hd htarget hkey hquiet hno hnofault
    · exact hread (.getConst i hd)
  | set v =>
    rw [run_perform_set (hlive v (by simp [borrowed])) htarget hkey hquiet] at hnofault ⊢
    exact traced_uncalled _ hH rfl (by simp [TypeObject.storing]) ht (run_assign hid ht hkid hkt)
      (fun a m₀ ha => hno ⟨_, _, .store ha⟩) hno hnofault
  | del => exact traced_noDeletion hid ht hlive hquiet hno

/-- Whatever tracer there is, it is told the events of an access and no others, if the slots of the host
tell it nothing; a recording without a limit has just these events at its end. A dispatch is among them just
if a slot of the target is called, or if the access is a deletion. -/
theorem told_events_of_access (hH : H.Untold) (hp : m.heap.Pinned) (hq : q.Access target key jobs)
    (hid : m.heap.typeOf target = .ok id) (ht : m.registry.get? id = some t)
    (hkid : m.heap.typeOf key = .ok kid) (hkt : m.registry.get? kid = some kt)
    (hnofault : ∀ f, (q.perform H).run m ≠ .fault f) :
    ∃ es, q.Tells H m id target key t kt ((q.perform H).run m) es ∧
      ((q.perform H).run m).tracer? = some (m.tracer.noteAll es) ∧
      (∀ events, m.tracer = .recording { events } → ((q.perform H).run m).tracer? =
        some (.recording { events := events ++ es.map Event.recorded })) ∧
      ((∃ op route type, .dispatch op route type ∈ es) ↔
        q.operation = .del ∨ ∃ a m₀, q.Calls H m id target key t kt a m₀) := by
  obtain ⟨hlive, hquiet⟩ := hq.entered hnofault
  have htraced : q.Traced H m id target key t kt ((q.perform H).run m) := by
    by_cases hcalls : ∃ a m₀, q.Calls H m id target key t kt a m₀
    · obtain ⟨a, m₀, hcall⟩ := hcalls
      have hrun := hcall.run_told hid ht hkid hkt hlive hquiet
      rw [hrun] at hnofault ⊢
      apply hcall.traced hH ht
      intro f hf
      exact hnofault f (by rw [hf]; rfl)
    · exact hq.traced_of_not_calls hH hp hid ht hkid hkt hlive hquiet hcalls hnofault
  obtain ⟨es, htells, htracer⟩ := htraced
  refine ⟨es, htells, htracer, fun events hrecording => ?_, htells.dispatch_mem_iff⟩
  rw [htracer, hrecording, Tracer.noteAll_recording]

/-- Two recordings without a limit are the same only if their events are. -/
theorem recorded_inj {tracer? : Option Tracer} {events events' : List Event}
    (h : tracer? = some (.recording { events })) (h' : tracer? = some (.recording { events := events' })) :
    events = events' := by
  rw [h] at h'
  simpa using h'

/-- A list is read without a slot; the slot of a row fails; and a row has no slot for deletion. -/
theorem told_events_of_access_row :
    let H : Host HostSlot := .raising ⟨.valueError, none⟩
    let m : Machine HostSlot := { rowMachine with tracer := .recording {} }
    ∃ row list int es es' es'', m.registry.get? ⟨9⟩ = some row ∧ m.registry.get? ⟨4⟩ = some list ∧
      m.registry.get? BuiltinKind.int.typeId = some int ∧
      (getConst (.ref ⟨0⟩) (.int (-1)) (-1)).Tells H m ⟨4⟩ (.ref ⟨0⟩) (.int (-1)) list int
        (((getConst (.ref ⟨0⟩) (.int (-1)) (-1)).perform H).run m) es ∧
      es.map Event.recorded = [.direct .list 0] ∧
      (get (.ref ⟨2⟩) (.int 5)).Tells H m ⟨9⟩ (.ref ⟨2⟩) (.int 5) row int
        (((get (.ref ⟨2⟩) (.int 5)).perform H).run m) es' ∧
      es'.map Event.recorded =
        [.dispatch .get .sequence "Row", .failure .get ⟨.propagated, ⟨.valueError, none⟩⟩] ∧
      (del (.ref ⟨2⟩) (.int 5)).Tells H m ⟨9⟩ (.ref ⟨2⟩) (.int 5) row int
        (((del (.ref ⟨2⟩) (.int 5)).perform H).run m) es'' ∧
      es''.map Event.recorded =
        [.dispatch .del .generic "Row", .failure .del ⟨.typeMismatch, ⟨.typeError, none⟩⟩] := by
  intro H m
  have hH : H.Untold := Host.raising_untold _
  have hp : m.heap.Pinned := by
    intro b r hr
    cases hr
  have hlist : m.heap.typeOf (.ref ⟨0⟩) = .ok ⟨4⟩ := rfl
  have hrow : m.heap.typeOf (.ref ⟨2⟩) = .ok ⟨9⟩ := rfl
  have hread : (((getConst (.ref ⟨0⟩) (.int (-1)) (-1)).perform H).run m).tracer? =
      some (.recording { events := [.direct .list 0] }) := by decide +kernel
  have hget : (((get (.ref ⟨2⟩) (.int 5)).perform H).run m).tracer? =
      some (.recording { events := [.dispatch .get .sequence "Row",
        .failure .get ⟨.propagated, ⟨.valueError, none⟩⟩] }) := by decide +kernel
  have hdel : (((del (.ref ⟨2⟩) (.int 5)).perform H).run m).tracer? =
      some (.recording { events := [.dispatch .del .generic "Row",
        .failure .del ⟨.typeMismatch, ⟨.typeError, none⟩⟩] }) := by decide +kernel
  obtain ⟨es, htells, -, hes, -⟩ := told_events_of_access (H := H) hH hp
    (.getConst (-1) : Access (.ref ⟨0⟩) (.int (-1)) _ _) hlist rfl rfl rfl
    (Outcome.ne_fault_of_tracer? hread)
  obtain ⟨es', htells', -, hes', -⟩ := told_events_of_access (H := H) hH hp
    (.get : Access (.ref ⟨2⟩) (.int 5) _ _) hrow rfl rfl rfl (Outcome.ne_fault_of_tracer? hget)
  obtain ⟨es'', htells'', -, hes'', -⟩ := told_events_of_access (H := H) hH hp
    (.del : Access (.ref ⟨2⟩) (.int 5) _ _) hrow rfl rfl rfl (Outcome.ne_fault_of_tracer? hdel)
  exact ⟨_, _, _, es, es', es'', rfl, rfl, rfl, htells, recorded_inj (hes [] rfl) hread, htells',
    recorded_inj (hes' [] rfl) hget, htells'', recorded_inj (hes'' [] rfl) hdel⟩

end Request

end ItemAccess
