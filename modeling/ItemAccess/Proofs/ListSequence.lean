import ItemAccess.Proofs.Machine.Lists
import ItemAccess.Proofs.OrderedDict

/-!
# A list is a sequence

A list is followed from any point of a run in which the host uses what it owns. Each access with an
integer for an index does to the list what it does to a sequence that all integers can be asked of, and
answers as the sequence does. Integers are the values that the machine makes of them, immediate or not,
and stay what they are as long as they are owned.
-/

namespace ItemAccess

open Attempt Machine

variable {υ : SlotKind → Type} {H : Host υ} {s : Settings} {c c' : Client υ} {q : Request υ}
  {m m' : Machine υ} {calm : Pending → Prop} {hquiet : calm {}} {r : Handle} {items : List Value}
  {key : Value} {n : Int}

/-- The contents of a large integer never change. -/
theorem Body.Evolves.eq_bigInt {b : Body} (hb : (Body.bigInt n).Evolves b) : b = .bigInt n := by
  induction hb with
  | refl => rfl
  | tail _ hstep ih =>
    subst ih
    obtain ⟨h, hbb⟩ := hstep
    cases hbb
    rfl

/-- An integer is made a value that is this integer. -/
theorem Machine.newInt_integral (n : Int) :
    (newInt n : Action υ Failure Value).Ends m False (fun v m' => m'.heap.Integral v n)
      fun _ _ => True := by
  by_cases hn : Position.Fits n
  · obtain ⟨i, hi, rfl⟩ := Position.exists_ofInt? hn
    simp only [newInt, hi]
    exact .int i
  · simp only [newInt, Position.ofInt?_eq_none.2 hn, Machine.allocate, ends_bind, ends_get]
    apply ends_liftM False.elim
    intro p hp
    cases p with
    | error e => trivial
    | ok p =>
      obtain ⟨r, h'⟩ := p
      obtain ⟨charge, hlookup⟩ := Heap.lookup?_allocate hp
      exact .big (Heap.body_of_lookup? ((hlookup r).trans (if_pos rfl)))

namespace Client

theorem integral_of_newInt {vs : List Value}
    (hrun : ((Request.newInt n).perform H).run c.machine = .done vs m') :
    ∃ v, vs = [v] ∧ m'.heap.Integral v n := by
  have hends : ((Request.newInt n).perform H).Ends c.machine False
      (fun vs m' => ∃ v, vs = [v] ∧ m'.heap.Integral v n) fun _ _ => True := by
    simp only [Request.perform, ends_bind, ends_pure]
    exact (newInt_integral n).mono (fun v _ hv => ⟨v, rfl, hv⟩) fun _ _ h => h
  exact hends.done hrun

/-- An integer that the client does not give up stays what it is. -/
theorem integral_of_serve (hH : H.Keeps (.sparing calm hquiet fun _ => False))
    (hc : c.Good (.sparing calm hquiet fun _ => False)) (hq : c.Careful q)
    (hserve : c.serve H q = .ok c') (hkey : c.machine.heap.Integral key n)
    (hwithin : key.Within (c.owned - handles q.consumed)) : c'.machine.heap.Integral key n := by
  cases hkey with
  | int i => exact .int i
  | bool b => exact .bool b
  | @big r n hb =>
    obtain ⟨more, ha⟩ := serve_sparing hH hc hq (fun _ => False.elim) hserve
    obtain ⟨b, hb', hevolves⟩ :=
      (ha.steady trivial).evolves trivial r _ (.owned (hwithin r rfl)) hb
    rw [hevolves.eq_bigInt] at hb'
    exact .big hb'

/-- A run of a careful host that leads to the client, and the sequence that the accesses to the list
`r` have made of what it held when it was first looked at. -/
inductive TracksList (H : Host υ) (calm : Pending → Prop) (hquiet : calm {}) (s : Settings)
    (r : Handle) : List Value → Client υ → Prop
  | found {items : List Value} {c : Client υ} (hc : Reached H Careful s c)
    (hb : c.machine.heap.body r = .ok (.list items)) : TracksList H calm hquiet s r items c
  | access {items : List Value} {c c' : Client υ} {q : Request υ} {n : Int}
    (ht : TracksList H calm hquiet s r items c) (hq : c.Careful q)
    (hon : q.Indexed c.machine.heap (.ref r) n) (hserve : c.serve H q = .ok c') :
    TracksList H calm hquiet s r (q.onSequence items n) c'
  | other {items : List Value} {c c' : Client υ} {q : Request υ}
    (ht : TracksList H calm hquiet s r items c) (hq : c.Careful q) (hserve : c.serve H q = .ok c')
    (hspares : Spares H calm hquiet r c q c') : TracksList H calm hquiet s r items c'

theorem TracksList.reached (ht : TracksList H calm hquiet s r items c) : Reached H Careful s c := by
  induction ht with
  | found hc _ => exact hc
  | access _ hq _ hserve ih => exact ih.step hq hserve
  | other _ hq hserve _ ih => exact ih.step hq hserve

/-- An access of a careful host. -/
theorem Careful.listAnswer (hq : c.Careful q) (hc : c.Good (.sparing calm hquiet fun _ => False))
    (hon : q.Indexed c.machine.heap (.ref r) n) (hb : c.machine.heap.body r = .ok (.list items)) :
    q.ListAnswer c.machine r items n ((q.perform H).run c.machine) := by
  obtain ⟨key, jobs, haccess⟩ := hon.access
  obtain ⟨hborrowed, hquiet⟩ := hq.access haccess
  exact hon.listAnswer hc.1 hborrowed hquiet hb

/-- A request that is answered as by a sequence leads to a client whose list holds the sequence. -/
theorem exists_served_list (hb : c.machine.heap.body r = .ok (.list items))
    (ha : q.ListAnswer c.machine r items n ((q.perform H).run c.machine)) :
    ∃ c', c.serve H q = .ok c' ∧ c'.machine.heap.body r = .ok (.list (q.onSequence items n)) ∧
      ∀ x, x ≠ r → c'.machine.heap.contents? x = c.machine.heap.contents? x ∨
        c'.machine.heap.lookup? x = none := by
  obtain ⟨h', tracer, hend, hbody, hothers⟩ := ha.heap hb
  unfold serve
  rcases hend with ⟨vs, hrun⟩ | ⟨f, hrun⟩
  · rw [hrun]
    exact ⟨_, rfl, hbody, hothers⟩
  · rw [hrun]
    exact ⟨_, rfl, hbody, hothers⟩

theorem TracksList.body (hH : H.Keeps (.sparing calm hquiet fun _ => False))
    (ht : TracksList H calm hquiet s r items c) : c.machine.heap.body r = .ok (.list items) := by
  induction ht with
  | found _ hb => exact hb
  | access ht hq hon hserve ih =>
    have hanswer := hq.listAnswer (H := H) (ht.reached.sparing hH) hon ih
    obtain ⟨c₁, hserve₁, hbody, -⟩ := exists_served_list ih hanswer
    cases hserve₁.symm.trans hserve
    exact hbody
  | other ht hq hserve hspares ih => exact hspares.body (ht.reached.sparing hH) hq hserve ih

/-- A list that is followed through a run holds the sequence that the accesses have made. Every access
with an integer for an index answers as the sequence does; it ends, and all other objects stay as they
are, unless they are freed by the release of an item. What the machine makes of an integer is this
integer, and stays it as long as the client does not give it up. -/
theorem list_is_sequence (hH : H.Keeps (.sparing calm hquiet fun _ => False))
    (ht : TracksList H calm hquiet s r items c) :
    c.machine.heap.body r = .ok (.list items) ∧
    (∀ q n, c.Careful q → q.Indexed c.machine.heap (.ref r) n →
      q.ListAnswer c.machine r items n ((q.perform H).run c.machine) ∧
      ∃ c', c.serve H q = .ok c' ∧ TracksList H calm hquiet s r (q.onSequence items n) c' ∧
        ∀ x, x ≠ r → c'.machine.heap.contents? x = c.machine.heap.contents? x ∨
          c'.machine.heap.lookup? x = none) ∧
    (∀ n vs m', ((Request.newInt n).perform H).run c.machine = .done vs m' →
      ∃ v, vs = [v] ∧ m'.heap.Integral v n) ∧
    ∀ q c' key n, c.Careful q → c.serve H q = .ok c' → c.machine.heap.Integral key n →
      key.Within (c.owned - handles q.consumed) → c'.machine.heap.Integral key n := by
  have hc := ht.reached.sparing hH
  have hb := ht.body hH
  refine ⟨hb, ?_, fun n vs m' hrun => integral_of_newInt hrun, ?_⟩
  · intro q n hq hon
    have hanswer := hq.listAnswer (H := H) hc hon hb
    obtain ⟨c', hserve, -, hothers⟩ := exists_served_list hb hanswer
    exact ⟨hanswer, c', hserve, ht.access hq hon hserve, hothers⟩
  · intro q c' key n hq hserve hkey hwithin
    exact integral_of_serve hH hc hq hserve hkey hwithin

/-- A list is stored in itself at its end. What would be stored at a large integer is turned down, the
first item is deleted, and the list is asked for its last item and for one at the large integer. -/
theorem list_is_sequence_selfStore :
    ∃ c, TracksList (DelegateSlot.host 2) (·.isSet = false) rfl {} ⟨1⟩ [.ref ⟨0⟩, .ref ⟨1⟩] c ∧
      (Request.get (.ref ⟨1⟩) (.int (-1))).ListAnswer c.machine ⟨1⟩ [.ref ⟨0⟩, .ref ⟨1⟩] (-1)
        (((Request.get (.ref ⟨1⟩) (.int (-1))).perform (DelegateSlot.host 2)).run c.machine) ∧
      (Request.get (.ref ⟨1⟩) (.ref ⟨2⟩)).ListAnswer c.machine ⟨1⟩ [.ref ⟨0⟩, .ref ⟨1⟩] (2 ^ 70)
        (((Request.get (.ref ⟨1⟩) (.ref ⟨2⟩)).perform (DelegateSlot.host 2)).run c.machine) := by
  let H := DelegateSlot.host 2
  let store : Request DelegateSlot := .set (.ref ⟨1⟩) (.ref ⟨1⟩) (.int (-1))
  let miss : Request DelegateSlot := .set (.int 7) (.ref ⟨1⟩) (.ref ⟨2⟩)
  let delete : Request DelegateSlot := .del (.ref ⟨1⟩) (.int 0)
  have hrun : ((follow H Careful (start {})
      [.newBytes [0x61], .newList [.int 10, .ref ⟨0⟩, .int 30], .newInt (2 ^ 70)]).any fun c =>
      c.machine.heap.body ⟨1⟩ = .ok (.list [.int 10, .ref ⟨0⟩, .int 30]) ∧ c.Careful store ∧
      (c.serve H store).toOption.any fun c =>
        c.Careful miss ∧ c.machine.heap.body ⟨2⟩ = .ok (.bigInt (2 ^ 70)) ∧
        (c.serve H miss).toOption.any fun c =>
          c.Careful delete ∧ (c.serve H delete).toOption.any fun c =>
            c.Careful (.get (.ref ⟨1⟩) (.int (-1))) ∧ c.Careful (.get (.ref ⟨1⟩) (.ref ⟨2⟩)) ∧
            c.machine.heap.body ⟨2⟩ = .ok (.bigInt (2 ^ 70))) = true := by
    decide +kernel
  obtain ⟨c₀, hc₀, hlist, hstore, hnext⟩ := exists_reached hrun
  obtain ⟨c₁, hserve₁, hmiss, hlarge₁, hnext⟩ := exists_serve hnext
  obtain ⟨c₂, hserve₂, hdelete, hnext⟩ := exists_serve hnext
  obtain ⟨c₃, hserve₃, hlast, hget, hlarge₃⟩ := exists_serve hnext
  have hkeeps : H.Keeps (.sparing (·.isSet = false) rfl fun _ => False) :=
    DelegateSlot.host_keeps (fun _ h => h) 2
  have ht₀ : TracksList H (·.isSet = false) rfl {} ⟨1⟩ [.int 10, .ref ⟨0⟩, .int 30] c₀ :=
    .found hc₀ hlist
  have ht₁ : TracksList H (·.isSet = false) rfl {} ⟨1⟩ [.int 10, .ref ⟨0⟩, .ref ⟨1⟩] c₁ :=
    ht₀.access hstore (.set _ (.int (-1))) hserve₁
  have ht₂ : TracksList H (·.isSet = false) rfl {} ⟨1⟩ [.int 10, .ref ⟨0⟩, .ref ⟨1⟩] c₂ :=
    ht₁.access hmiss (.set _ (.big hlarge₁)) hserve₂
  have ht₃ : TracksList H (·.isSet = false) rfl {} ⟨1⟩ [.ref ⟨0⟩, .ref ⟨1⟩] c₃ :=
    ht₂.access hdelete (.del (.int 0)) hserve₃
  obtain ⟨-, hanswers, -, -⟩ := list_is_sequence hkeeps ht₃
  exact ⟨c₃, ht₃, (hanswers _ _ hlast (.get (.int (-1)))).1,
    (hanswers _ _ hget (.get (.big hlarge₃))).1⟩

end Client

end ItemAccess
