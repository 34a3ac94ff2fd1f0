import ItemAccess.Proofs.Machine.Access
import ItemAccess.Proofs.Machine.Build

/-!
# Clients

A client is a machine together with the references that its host owns. Builders use up the references
they are given, also when they fail; values that are handed over are owned from then on; all other
operands are only borrowed. Runs are sequences of requests, and what a discipline says of the start is
true after every run that keeps to it.
-/

namespace ItemAccess

open Attempt Machine

variable {υ : SlotKind → Type}

/-- What a host can ask of its machine. Questions about the state that have an answer in every state
are left out. -/
inductive Request (υ : SlotKind → Type) where
  | newList (items : List Value)
  | newTuple (items : List Value)
  | newDict (pairs : List (Value × Value))
  | newInstance (type : TypeId) (fields : List Value)
  | newBytes (data : List UInt8)
  | newInt (n : Int)
  | clone (v : Value)
  | drop (v : Value)
  | get (source key : Value)
  | getConst (source key : Value) (i : Int64)
  | set (v target key : Value)
  | del (target key : Value)
  | field (obj : Value) (i : Nat)
  | setField (obj : Value) (i : Nat) (v : Value)
  | register (spec : TypeSpec υ)
  | typeObject (id : TypeId)
  | typeOf (v : Value)
  | nameOfType (v : Value)
  | text (v : Value)
  | bytesOf (v : Value)
  | raise (e : Exception)
  | fetch
  | trace (t : Tracer)

namespace Request

/-- Does what is asked and gives the values that are handed over. -/
def perform (H : Host υ) : Request υ → Action υ Failure (List Value)
  | newList items => do return [← Machine.newList items]
  | newTuple items => do return [← Machine.newTuple items]
  | newDict pairs => do return [← Machine.newDict pairs]
  | newInstance type fields => do return [← Machine.newInstance type fields]
  | newBytes data => do return [← Machine.newBytes data]
  | newInt n => do return [← Machine.newInt n]
  | clone v => do return [← retain v]
  | drop v => do
    release v
    return []
  | get source key => do return [← getItem H source key]
  | getConst source key i => do return [← getItemConst H source key i]
  | set v target key => do
    setItem H v target key
    return []
  | del target key => do
    delItem H target key
    return []
  | field obj i => do return (← Machine.field obj i).toList
  | setField obj i v => do
    let _ ← Machine.setField obj i v
    return []
  | register spec => do
    let _ ← Machine.register spec
    return []
  | typeObject id => do
    let _ ← Machine.typeObject id
    return []
  | typeOf v => do
    let _ ← Machine.typeOf v
    return []
  | nameOfType v => do
    let _ ← Machine.nameOfType v
    return []
  | text v => do
    let _ ← textOf v
    return []
  | bytesOf v => do
    let _ ← Machine.bytesOf v
    return []
  | raise e => do
    recordPending e
    return []
  | fetch => do
    let _ ← fetchPending
    return []
  | trace t => do
    setTracer t
    return []

def consumed : Request υ → List Value
  | newList items | newTuple items | newInstance _ items => items
  | newDict pairs => flattenPairs pairs
  | drop v => [v]
  | _ => []

def borrowed : Request υ → List Value
  | clone v | typeOf v | nameOfType v | text v | bytesOf v | field v _ => [v]
  | get source key | getConst source key _ | del source key => [source, key]
  | set v target key => [v, target, key]
  | setField obj _ v => [obj, v]
  | _ => []

def changed : Request υ → List Value
  | set _ target _ | del target _ | setField target _ _ => [target]
  | _ => []

def buildsContainer : Request υ → Bool
  | newList _ | newTuple _ | newDict _ | newInstance _ _ => true
  | _ => false

def Refused (q : Request υ) (f : Failure) : Prop :=
  q.buildsContainer = true ∧ f.kind = .resourceExhausted

instance (q : Request υ) (f : Failure) : Decidable (q.Refused f) :=
  inferInstanceAs (Decidable (_ ∧ _))

/-- What a request relies on beside its operands: nothing is pending when items are accessed, types
are asked for by their numbers, and the types of the host bring the host's slots. -/
def Timely (m : Machine υ) : Request υ → Prop
  | get _ _ | getConst _ _ _ | set _ _ _ | del _ _ => m.pending.isSet = false
  | typeObject id => ∃ t, m.registry.get? id = some t
  | register spec => (TypeObject.ofSpec none spec).HostServed
  | _ => True

instance (m : Machine υ) : (q : Request υ) → Decidable (q.Timely m)
  | get _ _ | getConst _ _ _ | set _ _ _ | del _ _ =>
    inferInstanceAs (Decidable (m.pending.isSet = false))
  | typeObject _ => decidable_of_iff _ Option.isSome_iff_exists
  | register _ => inferInstanceAs (Decidable (TypeObject.HostServed _))
  | newList _ | newTuple _ | newDict _ | newInstance _ _ | newBytes _ | newInt _ | clone _ | drop _
  | field _ _ | setField _ _ _ | typeOf _ | nameOfType _ | text _ | bytesOf _ | raise _ | fetch
  | trace _ => .isTrue trivial

variable {D : Discipline υ} {H : Host υ} {m : Machine υ} {q : Request υ} {rest : Multiset Handle}

/-- The values handed over are owned, and only a container that a limit stands in the way of leaves
references behind. -/
def Answers (D : Discipline υ) (q : Request υ) (a : Action υ Failure (List Value)) (m : Machine υ)
    (rest : Multiset Handle) : Prop :=
  a.Ends m D.safe (fun vs m' => D.After rest m m' (handles vs))
    fun f m' => ∃ lost, D.After rest m m' lost ∧ (q.Refused f ∨ lost = 0)

theorem Answers.of_leaves {a : Action υ Failure Value} (hq : q.buildsContainer = true)
    (ha : a.Ends m D.safe (fun v m' => D.After rest m m' v.handles) (D.Leaves rest m)) :
    q.Answers D (do return [← a]) m rest := by
  simp only [Answers, ends_bind, ends_pure]
  refine ha.mono (fun v m' h => by simpa using h) ?_
  rintro f m' ⟨lost, h, hf⟩
  exact ⟨lost, h, hf.imp (⟨hq, ·⟩) id⟩

theorem Answers.of_gives {α : Type} {a : Action υ Failure α} {given : α → Multiset Handle}
    {vs : α → List Value} (hvs : ∀ x, handles (vs x) = given x) (ha : D.Gives a m rest given) :
    q.Answers D (do return vs (← a)) m rest := by
  simp only [Answers, ends_bind, ends_pure]
  exact ha.mono (fun x m' h => by rwa [hvs]) fun f m' h => ⟨0, h, .inr rfl⟩

theorem Answers.of_value {a : Action υ Failure Value} (ha : D.Gives a m rest Value.handles) :
    q.Answers D (do return [← a]) m rest :=
  .of_gives (fun v => by simp) ha

theorem Answers.of_nothing {α : Type} {a : Action υ Failure α} (ha : D.Gives a m rest fun _ => 0) :
    q.Answers D (do let _ ← a; return []) m rest :=
  .of_gives (fun _ => rfl) ha

/-- Every request keeps to every discipline. -/
theorem perform_keeps (hH : H.Keeps D) (hg : D.good m.heap m.registry (rest + handles q.consumed))
    (hborrowed : ∀ v ∈ q.borrowed, v.Within rest) (hw : ∀ v ∈ q.changed, D.Writable v)
    (htimely : D.safe → q.Timely m) : q.Answers D (q.perform H) m rest := by
  have hfree (h : D.good m.heap m.registry (rest + handles [])) : D.good m.heap m.registry rest := by
    simpa using h
  have hafter (h : D.good m.heap m.registry (rest + handles [])) : D.After rest m m 0 :=
    .refl (hfree h)
  cases q with
  | newList items => exact .of_leaves rfl (Discipline.newList_keeps hg)
  | newTuple items => exact .of_leaves rfl (Discipline.newTuple_keeps hg)
  | newDict pairs => exact .of_leaves rfl (Discipline.newDict_keeps hg)
  | newInstance type fields => exact .of_leaves rfl (Discipline.newInstance_keeps hg)
  | newBytes data => exact .of_value (Discipline.newBytes_keeps (hfree hg))
  | newInt n => exact .of_value (Discipline.newInt_keeps (hfree hg))
  | clone v =>
    have ha := hafter hg
    have hv := hborrowed v (by simp [borrowed])
    refine .of_value (retain_ends (ha.present (hv.mono 0)) fun h' hh => ?_)
    simpa using ha.gain (Heap.retain_moves _ hh)
  | drop v =>
    have ha : D.After rest m m (0 + handles [v]) :=
      .now (by simpa [consumed] using hg)
    exact .of_nothing (Discipline.release_keeps ha)
  | get source key =>
    exact .of_value (Discipline.getItem_keeps hH (hfree hg) (hborrowed source (by simp [borrowed]))
      (hborrowed key (by simp [borrowed])) htimely)
  | getConst source key i =>
    exact .of_value (Discipline.getItemConst_keeps hH (hfree hg)
      (hborrowed source (by simp [borrowed])) (hborrowed key (by simp [borrowed])) htimely i)
  | set v target key =>
    exact .of_nothing (Discipline.setItem_keeps hH (hfree hg) (hborrowed v (by simp [borrowed]))
      (hborrowed target (by simp [borrowed])) (hborrowed key (by simp [borrowed]))
      (hw target (by simp [changed])) htimely)
  | del target key =>
    exact .of_nothing (Discipline.delItem_keeps hH (hfree hg)
      (hborrowed target (by simp [borrowed])) (hborrowed key (by simp [borrowed]))
      (hw target (by simp [changed])) htimely)
  | field obj i =>
    have hobj := hborrowed obj (by simp [borrowed])
    exact .of_gives (fun _ => rfl)
      ((Discipline.field_keeps (hfree hg) hobj i).mono (fun _ _ h => h.1) fun _ _ h => h)
  | setField obj i v =>
    exact .of_nothing (Discipline.setField_keeps (hfree hg) (hborrowed obj (by simp [borrowed]))
      (hborrowed v (by simp [borrowed])) (hw obj (by simp [changed])) i)
  | register spec =>
    have hgood := D.registered htimely (hafter hg).good
    have hprefix := m.registry.prefix_register spec
    have hsteady : Steady D rest m { m with registry := (m.registry.register spec).2 } :=
      { Steady.refl rest m with types := hprefix }
    exact .of_nothing (show D.After rest m _ 0 from
      ⟨hgood, fun _ => hsteady, fun _ _ _ _ h => h⟩)
  | typeObject id => exact .of_nothing (typeObject_ends htimely fun _ _ => hafter hg)
  | typeOf v =>
    have hv := hborrowed v (by simp [borrowed])
    exact .of_nothing (typeOf_ends ((hafter hg).present (hv.mono 0)) fun _ _ => hafter hg)
  | nameOfType v =>
    have hv := hborrowed v (by simp [borrowed])
    exact .of_nothing (nameOfType_ends ((hafter hg).typed (hv.mono 0)) fun _ => hafter hg)
  | text v =>
    have hv := hborrowed v (by simp [borrowed])
    exact .of_nothing (textOf_ends (hafter hg).sound ((hafter hg).present (hv.mono 0))
      fun _ => hafter hg)
  | bytesOf v =>
    have hv := hborrowed v (by simp [borrowed])
    refine .of_nothing ?_
    cases v with
    | ref r =>
      simp only [Discipline.Gives, Machine.bytesOf, ends_bind, ends_pure]
      exact readHeap_ends (fun hs => ((hafter hg).present (hv.mono 0) hs).body) fun _ _ => hafter hg
    | _ => exact hafter hg
  | raise e => exact .of_nothing (show D.After rest m _ 0 from (hafter hg).of_eq rfl rfl)
  | fetch => exact .of_nothing (show D.After rest m _ 0 from (hafter hg).of_eq rfl rfl)
  | trace t => exact .of_nothing (show D.After rest m _ 0 from (hafter hg).of_eq rfl rfl)

end Request

/-- A machine and the references that its host owns. -/
structure Client (υ : SlotKind → Type) where
  machine : Machine υ
  owned : Multiset Handle

namespace Client

variable {D : Discipline υ} {H : Host υ} {c c' : Client υ} {q : Request υ} {s : Settings}
  {admits : Client υ → Request υ → Prop}

def start (s : Settings) : Client υ := ⟨.start s, 0⟩

/-- Serves one request. Operands that are used up are gone also when it fails. -/
def serve (H : Host υ) (q : Request υ) (c : Client υ) : Except Fault (Client υ) :=
  match (q.perform H).run c.machine with
  | .done vs m => .ok ⟨m, c.owned - handles q.consumed + handles vs⟩
  | .failed _ m => .ok ⟨m, c.owned - handles q.consumed⟩
  | .fault f => .error f

/-- The operands of a request are owned, each as often as it is used up. -/
structure Owns (c : Client υ) (q : Request υ) : Prop where
  consumed : handles q.consumed ≤ c.owned
  borrowed : ∀ v ∈ q.borrowed, v.Within (c.owned - handles q.consumed)

instance (c : Client υ) (q : Request υ) : Decidable (c.Owns q) :=
  decidable_of_iff (handles q.consumed ≤ c.owned ∧
      ∀ v ∈ q.borrowed, v.Within (c.owned - handles q.consumed))
    ⟨fun h => ⟨h.1, h.2⟩, fun h => ⟨h.consumed, h.borrowed⟩⟩

inductive Reached (H : Host υ) (admits : Client υ → Request υ → Prop) (s : Settings) :
    Client υ → Prop
  | start : Reached H admits s (start s)
  | step {c c' : Client υ} {q : Request υ} (hc : Reached H admits s c) (hq : admits c q)
    (hserve : c.serve H q = .ok c') : Reached H admits s c'

def follow (H : Host υ) (admits : Client υ → Request υ → Prop) [∀ c q, Decidable (admits c q)] :
    Client υ → List (Request υ) → Option (Client υ)
  | c, [] => some c
  | c, q :: qs =>
    if admits c q then
      match c.serve H q with
      | .ok c => follow H admits c qs
      | .error _ => none
    else none

/-- What every admitted request keeps holds at the end if it holds at the start. -/
theorem follow_induction [∀ c q, Decidable (admits c q)] {qs : List (Request υ)}
    {P : Client υ → Prop}
    (hstep : ∀ {c c' q}, P c → admits c q → c.serve H q = .ok c' → P c') (hc : P c)
    (hf : follow H admits c qs = some c') : P c' := by
  induction qs generalizing c with
  | nil =>
    cases hf
    exact hc
  | cons q qs ih =>
    unfold Client.follow at hf
    split at hf
    case isTrue hq =>
      cases hserve : c.serve H q with
      | ok c₁ =>
        rw [hserve] at hf
        exact ih (hstep hc hq hserve) hf
      | error f =>
        rw [hserve] at hf
        cases hf
    case isFalse => cases hf

theorem Reached.follow [∀ c q, Decidable (admits c q)] {qs : List (Request υ)}
    (hc : Reached H admits s c) (hf : follow H admits c qs = some c') : Reached H admits s c' :=
  follow_induction (fun hc hq hserve => hc.step hq hserve) hc hf

/-- What is computed of a run holds of a client that the run leads to. -/
theorem exists_reached [∀ c q, Decidable (admits c q)] {qs : List (Request υ)}
    {P : Client υ → Prop} [DecidablePred P]
    (hrun : ((follow H admits (start s) qs).any (P ·)) = true) :
    ∃ c, Reached H admits s c ∧ P c := by
  obtain ⟨c, hc, hP⟩ := (Option.any_eq_true _ _).1 hrun
  exact ⟨c, Reached.start.follow hc, of_decide_eq_true hP⟩

def Good (D : Discipline υ) (c : Client υ) : Prop :=
  D.good c.machine.heap c.machine.registry c.owned

/-- A request that is served has ended in the machine of the client that it leads to. -/
theorem run_of_serve (hserve : c.serve H q = .ok c') :
    (∃ vs, (q.perform H).run c.machine = .done vs c'.machine) ∨
      ∃ f, (q.perform H).run c.machine = .failed f c'.machine := by
  unfold serve at hserve
  cases hrun : (q.perform H).run c.machine with
  | done vs m =>
    rw [hrun] at hserve
    cases hserve
    exact .inl ⟨vs, rfl⟩
  | failed f m =>
    rw [hrun] at hserve
    cases hserve
    exact .inr ⟨f, rfl⟩
  | fault f =>
    rw [hrun] at hserve
    cases hserve

/-- One request: where faults are excluded there is none, and what was good is good, provided that
references lost to a limit do not matter. -/
theorem serve_keeps (hH : H.Keeps D) (hg : c.Good D) (ho : c.Owns q)
    (hw : ∀ v ∈ q.changed, D.Writable v) (ht : D.safe → q.Timely c.machine)
    (hlost : ∀ f ∈ ((q.perform H).run c.machine).failure?, q.Refused f → ∀ h g lost,
      D.good h g (c.owned - handles q.consumed + lost) →
        D.good h g (c.owned - handles q.consumed)) :
    (∀ c', c.serve H q = .ok c' → c'.Good D) ∧ (D.safe → ∃ c', c.serve H q = .ok c') := by
  have hsplit : c.owned - handles q.consumed + handles q.consumed = c.owned :=
    Multiset.sub_add_cancel ho.consumed
  have hends := Request.perform_keeps hH (by rw [hsplit]; exact hg) ho.borrowed hw ht
  unfold serve
  cases hr : (q.perform H).run c.machine with
  | done vs m =>
    have h := hends.done hr
    exact ⟨fun c' hc' => by cases hc'; exact h.good, fun _ => ⟨_, rfl⟩⟩
  | failed f m =>
    obtain ⟨lost, h, hf⟩ := hends.failed hr
    refine ⟨fun c' hc' => ?_, fun _ => ⟨_, rfl⟩⟩
    cases hc'
    obtain hf | rfl := hf
    · exact hlost f (by simp [hr, Outcome.failure?]) hf _ _ lost h.good
    · simpa [Good] using h.good
  | fault f => exact ⟨fun _ hc' => (by cases hc'), fun hs => absurd hs (hends.no_fault hr)⟩

/-- What the client does not give up stays as the discipline wants it. -/
theorem serve_after (hH : H.Keeps D) (hg : c.Good D) (ho : c.Owns q)
    (hw : ∀ v ∈ q.changed, D.Writable v) (ht : D.safe → q.Timely c.machine)
    (hserve : c.serve H q = .ok c') :
    ∃ more, D.After (c.owned - handles q.consumed) c.machine c'.machine more := by
  have hsplit : c.owned - handles q.consumed + handles q.consumed = c.owned :=
    Multiset.sub_add_cancel ho.consumed
  have hends := Request.perform_keeps hH (by rw [hsplit]; exact hg) ho.borrowed hw ht
  rcases run_of_serve hserve with ⟨vs, hrun⟩ | ⟨f, hrun⟩
  · exact ⟨handles vs, hends.done hrun⟩
  · obtain ⟨lost, h, -⟩ := hends.failed hrun
    exact ⟨lost, h⟩

end Client

end ItemAccess
