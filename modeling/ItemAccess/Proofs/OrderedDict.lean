import ItemAccess.Proofs.Machine.Dicts

/-!
# A dict is an insertion-ordered map

A dict is followed from the request that makes it through a run in which the host uses what it owns.
Each access with a key that has a hash does to the dict what it does to an insertion-ordered map, and
answers as the map does. Other requests leave the dict alone: as long as the client holds it, directly
or within containers that are not changed; as long as no object is made; and when an object is made of
values that are given up, the dict itself perhaps among them. Where a slot of the host uses the dict in
the course of another request, what it has done to the dict is what some accesses do to the map.

A run is followed no further than this. Where a request changes the only object that holds the dict, and a
slot of the host makes an object or uses the dict meanwhile, the slot of the store could have been emptied
and filled again; nothing is said about the dict after such a request.
-/

namespace ItemAccess

open Attempt Machine

variable {υ : SlotKind → Type} {H : Host υ} {s : Settings} {c c' : Client υ} {q : Request υ}
  {m m' : Machine υ} {calm : Pending → Prop} {hquiet : calm {}} {r : Handle}
  {a : List DictEntry} {key : Value} {k : Key} {owned : Multiset Handle}

/-- The discipline of those who keep the store in order and leave the contents of some objects
alone. -/
def Discipline.sparing (calm : Pending → Prop) (hquiet : calm {}) (S : Handle → Prop) :
    Discipline υ where
  good := fun h g owned => h.Sound g owned ∧ h.Keyed
  safe := True
  calm := calm
  writes := fun x => ¬ S x
  keyed := False
  evolving := True
  moved := by
    rintro h h' g owned taken given hm ⟨hs, hk⟩
    obtain ⟨lost, ha⟩ := hs.accounted
    rw [add_right_comm] at ha
    exact ⟨hs.move hm, hm.keyed ha hk⟩
  registered := fun hspec h => ⟨h.1.register (hspec trivial), h.2⟩
  accounted := fun h => h.1.accounted
  sound := fun _ h => h.1
  quiet := hquiet

namespace Dict

end Dict

namespace Dict

def ofPairs (a : List DictEntry) (pairs : List ((Value × Value) × Key)) : List DictEntry :=
  pairs.foldl (fun a p => store a p.2 p.1.1 p.1.2) a

end Dict

namespace Machine

/-- Filling a dict stores pair after pair. -/
theorem run_fillDict {pairs : List (Value × Value)} {ks : List Key}
    (hs : m.heap.Sound m.registry
      (owned + (handles (Dict.children a) + handles (flattenPairs pairs))))
    (hkeyed : Dict.Keyed m.heap a)
    (hks : List.Forall₂ (fun p k => (m.heap.hash p.1).run = .ok (.ok k)) pairs ks) :
    ∃ h', (fillDict a pairs : Action υ Failure (List DictEntry)).run m =
      .done (Dict.ofPairs a (pairs.zip ks)) { m with heap := h' } := by
  induction pairs generalizing m a ks with
  | nil =>
    cases hks
    exact ⟨m.heap, rfl⟩
  | cons pair rest ih =>
    obtain ⟨key, value⟩ := pair
    cases hks with
    | @cons _ k _ ks hk hks =>
      have hinsert := Dict.insert_eq hkeyed.distinct k key value
      have hledger := Dict.handles_insert a k key value
      have hkeyed' := hkeyed.insert hk value
      rw [hinsert] at hledger hkeyed'
      have hs' : m.heap.Sound m.registry (owned + (handles (Dict.children (Dict.store a k key value)) +
          handles (flattenPairs rest)) + handles (Dict.leftOver a k key)) := by
        rw [add_assoc owned, add_right_comm (handles (Dict.children _)), hledger, add_assoc (handles _),
          ← Discipline.handles_flattenPairs_cons]
        exact hs
      obtain ⟨h', hh⟩ := hs'.releaseAll
      have hm : Heap.Moves m.registry (fun _ => False)
          (m.heap, handles (Dict.leftOver a k key)) (h', 0) := Heap.releaseAll_moves _ hh
      have hnext := hs'.moves hm
      rw [add_zero] at hnext
      -- the entries made so far and the pairs to come are owned while the left-over pair is released
      have hstays {v : Value} {k' : Key}
          (hv : v ∈ Dict.children (Dict.store a k key value) ++ flattenPairs rest)
          (hk' : (m.heap.hash v).run = .ok (.ok k')) : (h'.hash v).run = .ok (.ok k') := by
        refine hs'.hash_moves hm (fun r hr => ?_) hk'
        subst hr
        have hmem := mem_handles.2 hv
        rw [handles_append] at hmem
        exact Multiset.mem_add.2 (.inr hmem)
      have hkeyed'' : Dict.Keyed h' (Dict.store a k key value) := hkeyed'.mono fun e he hk' =>
        hstays (List.mem_append.2 (.inl (List.mem_flatMap.2 ⟨e, he, by simp⟩))) hk'
      have hks' : List.Forall₂ (fun p k => (h'.hash p.1).run = .ok (.ok k)) rest ks := by
        have hmem (p : Value × Value) (hp : p ∈ rest) : p.1 ∈ flattenPairs rest :=
          List.mem_flatMap.2 ⟨p, hp, by simp⟩
        refine ((List.forall₂_and_left _ _).2 ⟨hmem, hks⟩).imp fun p k hp => ?_
        exact hstays (List.mem_append.2 (.inr hp.1)) hp.2
      obtain ⟨h'', hrun⟩ := ih (m := { m with heap := h' }) hnext hkeyed'' hks'
      refine ⟨h'', ?_⟩
      rw [fillDict, run_bind, run_readHeap (f := fun h => (h.hash key).run) hk]
      dsimp only
      rw [hinsert, run_bind, Machine.releaseAll, run_changeHeap hh]
      exact hrun

end Machine

def Heap.Remains (h h' : Heap) : Prop :=
  ∀ x b, h'.body x = .ok b → h.body x = .ok b

theorem Heap.Remains.trans {h₁ h₂ h₃ : Heap} (h₁₂ : h₁.Remains h₂) (h₂₃ : h₂.Remains h₃) :
    h₁.Remains h₃ :=
  fun x b hb => h₁₂ x b (h₂₃ x b hb)

theorem Heap.remains_releaseAll {h h' : Heap} {vs : List Value} (hr : h.releaseAll vs = .ok h') :
    h.Remains h' := by
  intro x b hb
  obtain ⟨e, he, rfl⟩ := body_eq_ok.1 hb
  rcases contents?_releaseAll hr x with hsame | hgone
  · have hbefore : h.contents? x = some (e.body, e.charge) := by
      rw [← hsame, contents?, he, Option.map_some]
    obtain ⟨d, hd, hpair⟩ := Option.map_eq_some_iff.1 hbefore
    exact body_eq_ok.2 ⟨d, hd, congrArg Prod.fst hpair⟩
  · rw [hgone] at he
    cases he

namespace Machine

variable {m₁ : Machine υ}

/-- The only new object is the one that is given, and the others have the contents that they had. -/
def Adds (a : Action υ Failure Value) (m m₁ : Machine υ) : Prop :=
  a.Ends m₁ False (fun v m' => ∀ x b, v ≠ .ref x → m'.heap.body x = .ok b → m.heap.body x = .ok b)
    fun _ m' => m.heap.Remains m'.heap

theorem allocate_adds (hm : m.heap.Remains m₁.heap) (b : Body) : Adds (allocate b) m m₁ := by
  simp only [Adds, Machine.allocate, ends_bind, ends_get]
  apply ends_liftM False.elim
  intro p hp
  cases p with
  | error e => exact hm
  | ok p =>
    obtain ⟨r, h'⟩ := p
    intro x b' hx hb
    obtain ⟨charge, hlookup⟩ := Heap.lookup?_allocate hp
    obtain ⟨e, he, rfl⟩ := Heap.body_eq_ok.1 hb
    have hne : x ≠ r := by
      rintro rfl
      exact hx rfl
    rw [hlookup, if_neg hne] at he
    exact hm x e.body (Heap.body_of_lookup? he)

theorem newInt_adds (n : Int) : Adds (newInt n) m m := by
  unfold newInt
  cases Position.ofInt? n with
  | some i => exact fun x b _ hb => hb
  | none => exact allocate_adds (fun _ _ hb => hb) _

theorem newInstance_adds (type : TypeId) (fields : List Value) : Adds (newInstance type fields) m m := by
  have hreturn (c : Complaint) :
      Adds (do Machine.releaseAll fields; refuse c : Action υ Failure Value) m m := by
    simp only [Adds, ends_bind, ends_refuse]
    exact releaseAll_ends False.elim fun h' hh => Heap.remains_releaseAll hh
  simp only [Adds, newInstance, ends_bind, ends_get]
  cases m.registry.get? type with
  | none => exact hreturn _
  | some t => exact ends_ite (fun _ => hreturn _) fun _ => allocate_adds (fun _ _ hb => hb) _

theorem fillDict_remains {pairs : List (Value × Value)} (hm : m.heap.Remains m₁.heap) :
    (fillDict a pairs).Ends m₁ False (fun _ m' => m.heap.Remains m'.heap)
      fun _ m' => m.heap.Remains m'.heap := by
  induction pairs generalizing a m₁ with
  | nil => exact hm
  | cons pair rest ih =>
    obtain ⟨key, value⟩ := pair
    simp only [fillDict, ends_bind]
    apply readHeap_ends False.elim
    intro x _
    cases x with
    | ok k =>
      simp only [ends_bind]
      apply releaseAll_ends False.elim
      exact fun h' hh => ih (hm.trans (Heap.remains_releaseAll hh))
    | error type =>
      simp only [ends_bind, ends_refuse]
      apply typeName_ends False.elim
      intro name
      apply releaseAll_ends False.elim
      exact fun h' hh => hm.trans (Heap.remains_releaseAll hh)

theorem newDict_adds (pairs : List (Value × Value)) : Adds (newDict pairs) m m := by
  rw [Adds, newDict, ends_bind]
  apply (fillDict_remains fun _ _ hb => hb).mono
  · exact fun entries m₁ hm => allocate_adds hm _
  · exact fun _ _ h => h

/-- What is to be stored in an object without fields is given back. -/
theorem setField_fieldless {ε : Type} {Q : ε → Machine υ → Prop} {b : Body} {i : Nat} {v : Value}
    (ha : m.heap.Accounted owned) (hb : m.heap.body r = .ok b)
    (hinst : ∀ type fields, b ≠ .inst type fields) :
    (setField (.ref r) i v : Action υ ε Bool).Ends m False (fun _ m' => m'.heap = m.heap) Q := by
  simp only [setField, ends_bind]
  apply retain_ends False.elim
  intro h₁ hretain
  have hback : (do release v; return false : Action υ ε Bool).Ends { m with heap := h₁ } False
      (fun _ m' => m'.heap = m.heap) Q := by
    simp only [ends_bind, ends_pure]
    apply changeHeap_ends False.elim
    intro h₂ hrelease
    exact Except.ok.inj (hrelease.symm.trans (Heap.release_retain ha hretain))
  apply readHeap_ends False.elim
  intro e he
  have hbody := Heap.body_of_lookup? (Heap.entry_eq_ok.1 he)
  rw [Heap.body_retain hretain, hb] at hbody
  cases hbody
  cases hb' : e.body with
  | inst type fields => exact absurd hb' (hinst type fields)
  | _ => exact hback

end Machine

namespace Request

def builds : Request υ → Bool
  | newList _ | newTuple _ | newDict _ | newInstance _ _ | newBytes _ | newInt _ => true
  | _ => false

theorem builds_adds (hq : q.builds = true) : (q.perform H).Ends m False
    (fun vs m' => ∀ x b, vs ≠ [.ref x] → m'.heap.body x = .ok b → m.heap.body x = .ok b)
    fun _ m' => m.heap.Remains m'.heap := by
  have hvalue {a : Action υ Failure Value} (ha : Adds a m m) :
      (do return [← a] : Action υ Failure (List Value)).Ends m False
        (fun vs m' => ∀ x b, vs ≠ [.ref x] → m'.heap.body x = .ok b → m.heap.body x = .ok b)
        fun _ m' => m.heap.Remains m'.heap := by
    simp only [ends_bind, ends_pure]
    apply ha.mono
    · exact fun v m' h x b hx => h x b fun hv => hx (by rw [hv])
    · exact fun _ _ h => h
  cases q with
  | newList items => exact hvalue (allocate_adds (fun _ _ hb => hb) _)
  | newTuple items => exact hvalue (allocate_adds (fun _ _ hb => hb) _)
  | newDict pairs => exact hvalue (newDict_adds pairs)
  | newInstance type fields => exact hvalue (newInstance_adds type fields)
  | newBytes data => exact hvalue (allocate_adds (fun _ _ hb => hb) _)
  | newInt n => exact hvalue (newInt_adds n)
  | _ => cases hq

/-- What a dict holds after an access. -/
theorem DictAnswer.heap {o : Outcome (Machine υ) Failure (List Value)}
    (ha : q.DictAnswer m r a key k o) (hb : m.heap.body r = .ok (.dict a)) :
    ∃ h' tracer, ((∃ vs, o = .done vs { m with heap := h', tracer := tracer }) ∨
        ∃ f, o = .failed f { m with heap := h', tracer := tracer }) ∧
      h'.body r = .ok (.dict (q.onMap a k)) ∧
      ∀ x, x ≠ r → h'.contents? x = m.heap.contents? x ∨ h'.lookup? x = none := by
  cases ha with
  | @found _ _ e h' tracer hq _ _ hr =>
    refine ⟨h', tracer, .inl ⟨_, rfl⟩, ?_, fun x _ => .inl (Heap.contents?_retain hr x)⟩
    rw [Heap.body_retain hr, hb]
    cases hq <;> rfl
  | @stored v h' tracer hu =>
    exact ⟨h', tracer, .inl ⟨_, rfl⟩, hu.contents, fun x hx => hu.others hx⟩
  | @deleted e h' tracer _ _ hu =>
    exact ⟨h', tracer, .inl ⟨_, rfl⟩, hu.contents, fun x hx => hu.others hx⟩
  | @missing _ shown tracer hq hk _ =>
    refine ⟨m.heap, tracer, .inr ⟨_, rfl⟩, ?_, fun _ _ => .inl rfl⟩
    rcases hq with ⟨op, hq⟩ | rfl
    · cases hq <;> exact hb
    · rw [onMap, Dict.discard_of_forall hk, hb]

end Request

namespace Client

/-- A careful request is served in any case. -/
theorem exists_serve_sparing (hH : H.Keeps (.sparing calm hquiet fun _ => False))
    (hc : c.Good (.sparing calm hquiet fun _ => False)) (hq : c.Careful q) :
    ∃ c', c.serve H q = .ok c' ∧ c'.Good (.sparing calm hquiet fun _ => False) := by
  have hkeeps := serve_keeps hH hc hq.owns (fun _ _ _ _ _ => not_false) (fun _ => hq.timely)
    fun f _ _ h g lost hs => ⟨hs.1.lose, hs.2⟩
  obtain ⟨c', hserve⟩ := hkeeps.2 trivial
  exact ⟨c', hserve, hkeeps.1 c' hserve⟩

/-- A request spares what it does not change itself. -/
theorem serve_sparing {S : Handle → Prop} (hH : H.Keeps (.sparing calm hquiet S))
    (hc : c.Good (.sparing calm hquiet S)) (hq : c.Careful q)
    (hchanged : ∀ x, S x → .ref x ∉ q.changed) (hserve : c.serve H q = .ok c') :
    ∃ more, (Discipline.sparing calm hquiet S).After (c.owned - handles q.consumed) c.machine
      c'.machine more :=
  serve_after hH hc hq.owns (fun _ hv x hx _ hSx => hchanged x hSx (hx ▸ hv)) (fun _ => hq.timely)
    hserve

theorem Reached.sparing (hH : H.Keeps (.sparing calm hquiet fun _ => False))
    (hc : Reached H Careful s c) : c.Good (.sparing calm hquiet fun _ => False) := by
  induction hc with
  | start => exact ⟨Heap.empty_sound s.limits s.textModel, Heap.empty_keyed s.limits⟩
  | step _ hq hserve ih =>
    obtain ⟨c₁, hserve₁, hgood⟩ := exists_serve_sparing hH ih hq
    cases hserve₁.symm.trans hserve
    exact hgood

/-- How a request, which leads from `c` to `c'`, is known to leave the object `r` alone. -/
inductive Spares (H : Host υ) (calm : Pending → Prop) (hquiet : calm {}) (r : Handle)
    (c : Client υ) (q : Request υ) (c' : Client υ) : Prop
  /-- The object is held, directly or within others, and the request and the slots of the host do not
  change what is in between. -/
  | held (S : Handle → Prop) (hH : H.Keeps (.sparing calm hquiet S)) (hS : S r)
    (hchanged : ∀ x, S x → .ref x ∉ q.changed)
    (hheld : c.machine.heap.Held (fun x => ¬ S x) (c.owned - handles q.consumed) r)
  /-- The object is still there, no object has been made, and the request and the slots of the host do
  not change this one. -/
  | still (hH : H.Keeps (.sparing calm hquiet (· = r))) (hchanged : .ref r ∉ q.changed)
    (hlive : ∃ b, c'.machine.heap.body r = .ok b)
    (hmade : c'.machine.heap.meter.allocations = c.machine.heap.meter.allocations)
  /-- The object has no fields, and one is to be stored. -/
  | fieldless {i : Nat} {v : Value} (hq : q = .setField (.ref r) i v)
    (hinst : ∀ type fields, c.machine.heap.body r ≠ .ok (.inst type fields))
  /-- The object is still there, and the request has made another one. -/
  | built (hq : q.builds = true) (hlive : ∃ b, c'.machine.heap.body r = .ok b)
    (hnew : (q.perform H).run c.machine ≠ .done [.ref r] c'.machine)

theorem Spares.body {b : Body} (hs : Spares H calm hquiet r c q c')
    (hc : c.Good (.sparing calm hquiet fun _ => False)) (hq : c.Careful q)
    (hserve : c.serve H q = .ok c') (hb : c.machine.heap.body r = .ok b) :
    c'.machine.heap.body r = .ok b := by
  cases hs with
  | held S hH hS hchanged hheld =>
    obtain ⟨more, ha⟩ := serve_sparing hH hc hq hchanged hserve
    exact (ha.steady trivial).spared r b hheld (not_not.2 hS) hb
  | still hH hchanged hlive hmade =>
    obtain ⟨more, ha⟩ := serve_sparing hH hc hq (fun x hx => hx ▸ hchanged) hserve
    obtain ⟨b', hb'⟩ := hlive
    have hbefore := ((ha.steady trivial).still r (not_not.2 rfl)).before hmade b' hb'
    cases hbefore.symm.trans hb
    exact hb'
  | @fieldless i v hset hinst =>
    subst hset
    have hends : ((Request.setField (.ref r) i v).perform H).Ends c.machine False
        (fun _ m' => m'.heap = c.machine.heap) fun _ m' => m'.heap = c.machine.heap := by
      obtain ⟨lost, ha⟩ := hc.1.accounted
      rw [Request.perform, ends_bind]
      exact setField_fieldless ha hb fun type fields heq => hinst type fields (heq ▸ hb)
    have hheap : c'.machine.heap = c.machine.heap := by
      rcases run_of_serve hserve with ⟨vs, hrun⟩ | ⟨f, hrun⟩
      · exact hends.done hrun
      · exact hends.failed hrun
    rw [hheap, hb]
  | built hbuilds hlive hnew =>
    obtain ⟨b', hb'⟩ := hlive
    have hends := Request.builds_adds (H := H) (m := c.machine) hbuilds
    have hbefore : c.machine.heap.body r = .ok b' := by
      rcases run_of_serve hserve with ⟨vs, hrun⟩ | ⟨f, hrun⟩
      · exact hends.done hrun r b' (fun hvs => hnew (hvs ▸ hrun)) hb'
      · exact hends.failed hrun r b' hb'
    cases hbefore.symm.trans hb
    exact hb'

/-- A run of a careful host that makes the dict `r` and goes on to the client, and the map that the
accesses to the dict have made on the way. Keys have hashes, and there is room for new entries. -/
inductive Tracks (H : Host υ) (calm : Pending → Prop) (hquiet : calm {}) (s : Settings) (r : Handle) :
    List DictEntry → Client υ → Prop
  | made {c c' : Client υ} {pairs : List (Value × Value)} {ks : List Key}
    (hc : Reached H Careful s c) (hq : c.Careful (.newDict pairs))
    (hks : List.Forall₂ (fun p k => (c.machine.heap.hash p.1).run = .ok (.ok k)) pairs ks)
    (hserve : c.serve H (.newDict pairs) = .ok c')
    (hrun : ((Request.newDict pairs).perform H).run c.machine = .done [.ref r] c'.machine) :
    Tracks H calm hquiet s r (Dict.ofPairs [] (pairs.zip ks)) c'
  | access {a : List DictEntry} {c c' : Client υ} {q : Request υ} {key : Value}
    {jobs : List SlotKind} {k : Key} (ht : Tracks H calm hquiet s r a c) (hq : c.Careful q)
    (hon : q.Access (.ref r) key jobs) (hk : (c.machine.heap.hash key).run = .ok (.ok k))
    (hroom : a.length < (q.onMap a k).length →
      ∃ x, c.machine.heap.meter.grow Body.entrySize = .ok x)
    (hserve : c.serve H q = .ok c') : Tracks H calm hquiet s r (q.onMap a k) c'
  | other {a : List DictEntry} {c c' : Client υ} {q : Request υ} (ht : Tracks H calm hquiet s r a c)
    (hq : c.Careful q) (hserve : c.serve H q = .ok c') (hspares : Spares H calm hquiet r c q c') :
    Tracks H calm hquiet s r a c'
  /-- A slot of the host may have used the dict, which the client holds, directly or within objects
  that are not changed. -/
  | nested {a a' : List DictEntry} {c c' : Client υ} {q : Request υ} (S : Handle → Prop)
    (hH : H.Keeps (.sparing calm hquiet S)) (ht : Tracks H calm hquiet s r a c) (hq : c.Careful q)
    (hchanged : ∀ x, S x → .ref x ∉ q.changed)
    (hheld : c.machine.heap.Held (fun x => ¬ S x) (c.owned - handles q.consumed) r)
    (hserve : c.serve H q = .ok c') (hb : c'.machine.heap.body r = .ok (.dict a')) :
    Tracks H calm hquiet s r a' c'

theorem Tracks.reached (ht : Tracks H calm hquiet s r a c) : Reached H Careful s c := by
  induction ht with
  | made hc hq _ hserve _ => exact hc.step hq hserve
  | access _ hq _ _ _ hserve ih => exact ih.step hq hserve
  | other _ hq hserve _ ih => exact ih.step hq hserve
  | nested _ _ _ hq _ _ hserve _ ih => exact ih.step hq hserve

/-- An access of a careful host. -/
theorem Careful.dictAnswer {jobs : List SlotKind} (hq : c.Careful q)
    (hc : c.Good (.sparing calm hquiet fun _ => False)) (hon : q.Access (.ref r) key jobs)
    (hb : c.machine.heap.body r = .ok (.dict a)) (hk : (c.machine.heap.hash key).run = .ok (.ok k))
    (hroom : a.length < (q.onMap a k).length →
      ∃ x, c.machine.heap.meter.grow Body.entrySize = .ok x) :
    q.DictAnswer c.machine r a key k ((q.perform H).run c.machine) := by
  obtain ⟨hborrowed, hquiet⟩ := hq.access hon
  exact hon.dictAnswer hc.1 hb (hc.2 r a hb).distinct hborrowed hquiet hk hroom

/-- A request that is answered as by a map leads to a client whose dict holds what the map holds. -/
theorem exists_served (hb : c.machine.heap.body r = .ok (.dict a))
    (ha : q.DictAnswer c.machine r a key k ((q.perform H).run c.machine)) :
    ∃ c', c.serve H q = .ok c' ∧ c'.machine.heap.body r = .ok (.dict (q.onMap a k)) ∧
      ∀ x, x ≠ r → c'.machine.heap.contents? x = c.machine.heap.contents? x ∨
        c'.machine.heap.lookup? x = none := by
  obtain ⟨h', tracer, hend, hbody, hothers⟩ := ha.heap hb
  unfold serve
  rcases hend with ⟨vs, hrun⟩ | ⟨f, hrun⟩
  · rw [hrun]
    exact ⟨_, rfl, hbody, hothers⟩
  · rw [hrun]
    exact ⟨_, rfl, hbody, hothers⟩

/-- A dict that has just been made holds the pairs that it was made of. -/
theorem body_of_newDict {pairs : List (Value × Value)} {ks : List Key}
    (hc : c.Good (.sparing calm hquiet fun _ => False)) (hq : c.Careful (.newDict pairs))
    (hks : List.Forall₂ (fun p k => (c.machine.heap.hash p.1).run = .ok (.ok k)) pairs ks)
    (hrun : ((Request.newDict pairs).perform H).run c.machine = .done [.ref r] m') :
    m'.heap.body r = .ok (.dict (Dict.ofPairs [] (pairs.zip ks))) := by
  have hs : c.machine.heap.Sound c.machine.registry (c.owned - handles (flattenPairs pairs) +
      (handles (Dict.children []) + handles (flattenPairs pairs))) := by
    have hsplit : c.owned - handles (flattenPairs pairs) + handles (flattenPairs pairs) = c.owned :=
      Multiset.sub_add_cancel hq.owns.consumed
    simpa [Dict.children, hsplit] using hc.1
  obtain ⟨h₁, hfill⟩ := run_fillDict hs .nil hks
  cases halloc : h₁.allocate (.dict (Dict.ofPairs [] (pairs.zip ks))) with
  | error f => simp [Request.perform, newDict, hfill, Machine.allocate, halloc] at hrun
  | ok x =>
    cases x with
    | error e => simp [Request.perform, newDict, hfill, Machine.allocate, halloc] at hrun
    | ok p =>
      obtain ⟨r', h'⟩ := p
      have hdone : ((Request.newDict pairs).perform H).run c.machine =
          .done [.ref r'] { c.machine with heap := h' } := by
        simp [Request.perform, newDict, hfill, Machine.allocate, halloc]
      cases hdone.symm.trans hrun
      obtain ⟨charge, hlookup⟩ := Heap.lookup?_allocate halloc
      exact Heap.body_of_lookup? ((hlookup r).trans (if_pos rfl))

theorem Tracks.body (hH : H.Keeps (.sparing calm hquiet fun _ => False))
    (ht : Tracks H calm hquiet s r a c) : c.machine.heap.body r = .ok (.dict a) := by
  induction ht with
  | made hc hq hks _ hrun => exact body_of_newDict (hc.sparing hH) hq hks hrun
  | access ht hq hon hk hroom hserve ih =>
    have hanswer := hq.dictAnswer (H := H) (ht.reached.sparing hH) hon ih hk hroom
    obtain ⟨c₁, hserve₁, hbody, -⟩ := exists_served ih hanswer
    cases hserve₁.symm.trans hserve
    exact hbody
  | other ht hq hserve hspares ih => exact hspares.body (ht.reached.sparing hH) hq hserve ih
  | nested _ _ _ _ _ _ _ hb _ => exact hb

/-- What is computed of a request holds of the client that the request leads to. -/
theorem exists_serve {P : Client υ → Prop} [DecidablePred P]
    (hP : ((c.serve H q).toOption.any (P ·)) = true) : ∃ c', c.serve H q = .ok c' ∧ P c' := by
  cases hserve : c.serve H q with
  | error f =>
    rw [hserve] at hP
    cases hP
  | ok c' =>
    rw [hserve] at hP
    exact ⟨c', rfl, of_decide_eq_true hP⟩

end Client

end ItemAccess
