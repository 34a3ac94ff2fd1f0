import ItemAccess.Proofs.OrderedDict
import ItemAccess.Proofs.RefusedContainer

/-!
# What a construction gives back that is turned down

A dict with a key that has no hash, and an instance of a type that has no instances, are turned down
before anything is made. By then the references that were handed over to a dict are in four places: some
were given back with pairs whose key was there already, some are in the entries made so far, some are
those of the pair at hand, and some are those of the pairs to come. Each of them is released once, in an
order of its own, so the store is the one that releasing all of them leaves.
-/

namespace ItemAccess

open Attempt Machine

variable {υ : SlotKind → Type} {H : Host υ} {m m' : Machine υ} {q : Request υ} {key value : Value}
  {type : TypeId} {t : TypeObject υ} {entries : List DictEntry}
  {pairs before after : List (Value × Value)} {fields vs : List Value} {owned : Multiset Handle}

namespace Heap

variable {h h' : Heap} {v : Value}

theorem mapM_congr_of_mem {M : Type → Type} {α β : Type} [Monad M] [LawfulMonad M] {f g : α → M β}
    {l : List α} (hfg : ∀ a ∈ l, f a = g a) : l.mapM f = l.mapM g := by
  induction l with
  | nil => rfl
  | cons a l ih =>
    rw [List.mapM_cons, List.mapM_cons, hfg a List.mem_cons_self,
      ih fun b hb => hfg b (List.mem_cons_of_mem a hb)]

/-- The walk for a hash goes the same way in a store where less is left, if all that it comes to is
left. -/
theorem hashWithin_of_remains (hr : h.Remains h') (hc : h'.Closed) (hv : h'.Present v) (depth : Nat) :
    h'.hashWithin depth v = h.hashWithin depth v := by
  induction depth generalizing v with
  | zero => rfl
  | succ depth ih =>
    cases v with
    | ref r =>
      obtain ⟨b, hb⟩ := hv.body
      rw [hashWithin_ref depth hb, hashWithin_ref depth (hr r b hb)]
      cases b with
      | tuple items =>
        obtain ⟨e, he, hbody⟩ := body_eq_ok.1 hb
        have hitems : items.mapM (h'.hashWithin depth) = items.mapM (h.hashWithin depth) := by
          apply mapM_congr_of_mem
          intro w hw
          apply ih
          apply hc r e he w
          rw [hbody]
          exact hw
        dsimp only
        rw [hitems]
      | _ => rfl
    | _ => rfl

theorem hash_of_releaseAll (hr : h.releaseAll vs = .ok h') (hc : h'.Closed) (hv : h'.Present v) :
    h'.hash v = h.hash v := by
  rw [Heap.hash, Heap.hash, size_releaseAll hr]
  exact hashWithin_of_remains (remains_releaseAll hr) hc hv _

theorem allocations_releaseAll (hr : h.releaseAll vs = .ok h') :
    h'.meter.allocations = h.meter.allocations := by
  induction hr using releaseAll_induction with
  | nil h => rfl
  | step hd _ ih =>
    rw [ih]
    cases hd <;> rfl

end Heap

/-- A construction that is to be turned down for what it is. -/
def Request.Flawed (m : Machine υ) : Request υ → Prop
  | newDict pairs => ∃ p ∈ pairs, ∃ type, (m.heap.hash p.1).run = .ok (.error type)
  | newInstance type _ => (∃ kind : BuiltinKind, type = kind.typeId) ∨ m.registry.types.length ≤ type.index
  | _ => False

inductive Request.Rejected (m : Machine υ) : Request υ → Failure → Prop
  /-- The failure names the type that keeps the first key without a hash from having one. -/
  | unhashable {before after : List (Value × Value)} {key value : Value} {type : TypeId}
    {t : TypeObject υ} (hbefore : ∀ p ∈ before, ∃ k, (m.heap.hash p.1).run = .ok (.ok k))
    (hkey : (m.heap.hash key).run = .ok (.error type)) (ht : m.registry.get? type = some t) :
    Rejected m (.newDict (before ++ (key, value) :: after))
      ⟨.typeMismatch, .withMessage .typeError s!"unhashable type: '{t.name}'"⟩
  | builtin {kind : BuiltinKind} {fields : List Value} {t : TypeObject υ}
    (ht : m.registry.get? kind.typeId = some t) :
    Rejected m (.newInstance kind.typeId fields)
      ⟨.typeMismatch, .withMessage .typeError s!"cannot create '{t.name}' instances"⟩
  | unissued {type : TypeId} {fields : List Value} (hid : m.registry.types.length ≤ type.index) :
    Rejected m (.newInstance type fields) ⟨.typeMismatch,
      .withMessage .typeError s!"TypeId({type.index}) was not registered with this runtime"⟩

namespace Machine

/-- The values have been released, each once, and nothing else has happened: the store is the one that
releasing them one after the other leaves, nothing was counted as made, and every slot holds what it
held or is empty. -/
structure Returns (m : Machine υ) (vs : List Value) (m' : Machine υ) : Prop where
  frame : m' = { m with heap := m'.heap }
  released : ∃ h₁, m.heap.releaseAll vs = .ok h₁ ∧ h₁.Reordered m'.heap
  allocations : m'.heap.meter.allocations = m.heap.meter.allocations
  unmade : ∀ r, m'.heap.contents? r = m.heap.contents? r ∨ m'.heap.lookup? r = none

/-- Where nothing is held any more, everything has been released. -/
theorem GivesBack.returns (hg : m.GivesBack (handles vs) 0 m') : m.Returns vs m' := by
  obtain ⟨ws, hr, hws⟩ := hg.released
  rw [add_zero] at hws
  obtain ⟨h₁, hr₁, hsame⟩ := Heap.releaseAll_of_handles hws hr
  exact ⟨hg.frame, ⟨h₁, hr₁, hsame.symm⟩, Heap.allocations_releaseAll hr, Heap.contents?_releaseAll hr⟩

theorem GivesBack.of_releaseAll {h' : Heap} {taken : Multiset Handle}
    (hr : m.heap.releaseAll vs = .ok h') (ht : handles vs = taken) :
    m.GivesBack taken 0 { m with heap := h' } :=
  .of_release hr (by rw [add_zero, ht]) (.refl _ 0)

/-- A pair whose key has a hash is put in, and what is left over of it is released. -/
theorem run_fillDict_cons {k : Key} {h' : Heap} (hk : (m.heap.hash key).run = .ok (.ok k))
    (hr : m.heap.releaseAll (Dict.insert entries k key value).2 = .ok h')
    (rest : List (Value × Value)) :
    (fillDict entries ((key, value) :: rest)).run m =
      (fillDict (Dict.insert entries k key value).1 rest).run { m with heap := h' } := by
  rw [fillDict, run_bind, run_readHeap (f := fun h => (h.hash key).run) hk]
  dsimp only
  rw [run_bind, Machine.releaseAll, run_changeHeap hr]

/-- A pair whose key has no hash is released with all others that are at hand. -/
theorem run_fillDict_unhashable {h' : Heap} (hkey : (m.heap.hash key).run = .ok (.error type))
    (ht : m.registry.get? type = some t)
    (hr : m.heap.releaseAll (key :: value :: flattenPairs after ++ Dict.children entries) = .ok h') :
    (fillDict entries ((key, value) :: after)).run m =
      .failed (.ofComplaint (.unhashable t.name)) { m with heap := h' } := by
  rw [fillDict, run_bind, run_readHeap (f := fun h => (h.hash key).run) hkey]
  dsimp only
  rw [run_bind, run_typeName ht]
  dsimp only
  rw [run_bind, Machine.releaseAll, run_changeHeap hr]
  rfl

/-- The induction is on the pairs whose keys have a hash. The invariant: the entries made so far and the
pairs that are left are owned together, so no release on the way touches what the keys to come are made
of. -/
theorem run_fillDict_rejected (hs : m.heap.Sound m.registry (owned +
      (handles (Dict.children entries) + handles (flattenPairs (before ++ (key, value) :: after)))))
    (hbefore : ∀ p ∈ before, ∃ k, (m.heap.hash p.1).run = .ok (.ok k))
    (hkey : (m.heap.hash key).run = .ok (.error type)) (ht : m.registry.get? type = some t) :
    ∃ m', (fillDict entries (before ++ (key, value) :: after)).run m =
        .failed (.ofComplaint (.unhashable t.name)) m' ∧
      m.GivesBack (handles (Dict.children entries) +
        handles (flattenPairs (before ++ (key, value) :: after))) 0 m' := by
  induction before generalizing entries m with
  | nil =>
    let ws := key :: value :: flattenPairs after ++ Dict.children entries
    have hws : handles ws = handles (Dict.children entries) +
        handles (flattenPairs ((key, value) :: after)) := by
      rw [Discipline.handles_flattenPairs_cons]
      simp [ws, add_assoc, add_comm, add_left_comm]
    rw [List.nil_append, ← hws] at hs
    obtain ⟨h', hr⟩ := hs.releaseAll
    exact ⟨_, run_fillDict_unhashable hkey ht hr, .of_releaseAll hr hws⟩
  | cons pair before ih =>
    obtain ⟨key₀, value₀⟩ := pair
    obtain ⟨k, hk⟩ := hbefore (key₀, value₀) List.mem_cons_self
    let rest := before ++ (key, value) :: after
    let made := (Dict.insert entries k key₀ value₀).1
    let leftOver := (Dict.insert entries k key₀ value₀).2
    have hledger : handles leftOver + (handles (Dict.children made) + handles (flattenPairs rest)) =
        handles (Dict.children entries) + handles (flattenPairs ((key₀, value₀) :: rest)) := by
      have hinsert := Dict.handles_insert entries k key₀ value₀
      rw [Discipline.handles_flattenPairs_cons, ← add_assoc, add_comm (handles leftOver), hinsert]
      simp only [add_assoc]
    rw [List.cons_append, ← hledger, add_comm (handles leftOver), ← add_assoc owned] at hs
    obtain ⟨h₁, hr₁⟩ := hs.releaseAll
    have hfree : Heap.Moves m.registry (fun _ => False) (m.heap, handles leftOver) (h₁, 0) :=
      Heap.releaseAll_moves _ hr₁
    have hnext := hs.moves hfree
    rw [add_zero] at hnext
    have hsame (p : Value × Value) (hp : p ∈ rest) : (h₁.hash p.1).run = (m.heap.hash p.1).run := by
      rw [Heap.hash_of_releaseAll hr₁ hnext.closed]
      apply hnext.present
      intro r hr
      have hmem : r ∈ handles (flattenPairs rest) :=
        mem_handles.2 (List.mem_flatMap.2 ⟨p, hp, by simp [hr]⟩)
      simp [hmem]
    have hbefore' (p : Value × Value) (hp : p ∈ before) : ∃ k, (h₁.hash p.1).run = .ok (.ok k) := by
      rw [hsame p (List.mem_append_left _ hp)]
      exact hbefore p (List.mem_cons_of_mem _ hp)
    have hkey' : (h₁.hash key).run = .ok (.error type) := by
      rw [hsame (key, value) (List.mem_append_right _ List.mem_cons_self)]
      exact hkey
    obtain ⟨m', hrun, hg⟩ := ih (m := { m with heap := h₁ }) hnext hbefore' hkey' ht
    exact ⟨m', (run_fillDict_cons hk hr₁ rest).trans hrun, .of_release hr₁ hledger hg⟩

/-- There is a first key without a hash. -/
theorem exists_first_unhashable (hs : m.heap.Sound m.registry (owned + handles (flattenPairs pairs)))
    (hp : ∃ p ∈ pairs, ∃ type, (m.heap.hash p.1).run = .ok (.error type)) :
    ∃ before key value after type, pairs = before ++ (key, value) :: after ∧
      (∀ p ∈ before, ∃ k, (m.heap.hash p.1).run = .ok (.ok k)) ∧
      (m.heap.hash key).run = .ok (.error type) := by
  induction pairs generalizing owned with
  | nil => simp at hp
  | cons pair rest ih =>
    obtain ⟨key, value⟩ := pair
    rw [Discipline.handles_flattenPairs_cons, ← add_assoc] at hs
    have hkey : m.heap.Present key := hs.present fun r hr => by simp [hr]
    obtain ⟨x, hx⟩ := hs.hash hkey
    cases x with
    | error type => exact ⟨[], key, value, rest, type, rfl, by simp, hx⟩
    | ok k =>
      have hrest : ∃ p ∈ rest, ∃ type, (m.heap.hash p.1).run = .ok (.error type) := by
        obtain ⟨p, hp, type, htype⟩ := hp
        obtain rfl | hp := List.mem_cons.1 hp
        · rw [hx] at htype
          cases htype
        · exact ⟨p, hp, type, htype⟩
      obtain ⟨before, key', value', after, type, rfl, hbefore, hkey⟩ := ih hs hrest
      exact ⟨(key, value) :: before, key', value', after, type, rfl,
        List.forall_mem_cons.2 ⟨⟨k, hx⟩, hbefore⟩, hkey⟩

/-- What keeps a key from having a hash is a list or a dict, and these types are there. -/
theorem exists_type_of_unhashable (hg : m.registry.Built)
    (hkey : (m.heap.hash key).run = .ok (.error type)) : ∃ t, m.registry.get? type = some t := by
  obtain rfl | rfl := Heap.hashWithin_error hkey
  · exact (hg.get? .list).imp' _ fun _ ht => ht
  · exact (hg.get? .dict).imp' _ fun _ ht => ht

theorem newDict_rejected (hs : m.heap.Sound m.registry (owned + handles (flattenPairs pairs)))
    (hp : ∃ p ∈ pairs, ∃ type, (m.heap.hash p.1).run = .ok (.error type)) :
    ∃ f m', Request.Rejected m (.newDict pairs) f ∧ (newDict pairs).run m = .failed f m' ∧
      m.GivesBack (handles (flattenPairs pairs)) 0 m' := by
  obtain ⟨before, key, value, after, type, rfl, hbefore, hkey⟩ := exists_first_unhashable hs hp
  obtain ⟨t, ht⟩ := exists_type_of_unhashable hs.built hkey
  have hnothing : handles (Dict.children []) + handles (flattenPairs (before ++ (key, value) :: after)) =
      handles (flattenPairs (before ++ (key, value) :: after)) := zero_add _
  rw [← hnothing] at hs ⊢
  obtain ⟨m', hrun, hg⟩ := run_fillDict_rejected hs hbefore hkey ht
  refine ⟨_, m', .unhashable hbefore hkey ht, ?_, hg⟩
  rw [newDict, run_bind, hrun]
  rfl

theorem newInstance_rejected (hs : m.heap.Sound m.registry (owned + handles fields))
    (hid : (∃ kind : BuiltinKind, type = kind.typeId) ∨ m.registry.types.length ≤ type.index) :
    ∃ f m', Request.Rejected m (.newInstance type fields) f ∧
      (newInstance type fields).run m = .failed f m' ∧ m.GivesBack (handles fields) 0 m' := by
  obtain ⟨h', hr⟩ := hs.releaseAll
  have hrelease : (Machine.releaseAll fields : Action υ Failure Unit).run m =
      .done () { m with heap := h' } := by
    rw [Machine.releaseAll, run_changeHeap hr]
  obtain ⟨kind, rfl⟩ | hid := hid
  · obtain ⟨model, ht⟩ := hs.built.get? kind
    refine ⟨_, _, .builtin ht, ?_, .of_releaseAll hr rfl⟩
    rw [newInstance, run_bind, run_get]
    simp only [ht, TypeObject.ofSpec, Option.isSome_some, if_true, run_bind, hrelease]
    rfl
  · have ht : m.registry.get? type = none := List.getElem?_eq_none hid
    refine ⟨_, _, .unissued hid, ?_, .of_releaseAll hr rfl⟩
    rw [newInstance, run_bind, run_get]
    simp only [ht, run_bind, hrelease]
    rfl

end Machine

theorem run_single_failed {a : Action υ Failure Value} {f : Failure} (ha : a.run m = .failed f m') :
    (do return [← a] : Action υ Failure (List Value)).run m = .failed f m' := by
  rw [run_bind, ha]

/-- A dict with a key that has no hash, and an instance of a built-in type or of one that there is not,
fail, and every reference that was handed over is released once. -/
theorem rejected_construction_releases_everything
    (hs : m.heap.Sound m.registry (owned + handles q.consumed)) (hq : q.Flawed m) :
    ∃ f m', q.Rejected m f ∧ (q.perform H).run m = .failed f m' ∧ m.Returns q.consumed m' := by
  cases q with
  | newDict pairs =>
    obtain ⟨f, m', hf, hrun, hg⟩ := newDict_rejected hs hq
    exact ⟨f, m', hf, run_single_failed hrun, hg.returns⟩
  | newInstance type fields =>
    obtain ⟨f, m', hf, hrun, hg⟩ := newInstance_rejected hs hq
    exact ⟨f, m', hf, run_single_failed hrun, hg.returns⟩
  | _ => cases hq

/-- Two equal keys, the first with a string that the host has as well, then a tuple of a list, and the
string again. -/
def listInKey : Request DelegateSlot :=
  .newDict [(.ref ⟨3⟩, .ref ⟨0⟩), (.ref ⟨4⟩, .int 7), (.ref ⟨2⟩, .none), (.ref ⟨0⟩, .bool true)]

/-- Of what there was, the host's own string stays. -/
theorem rejected_construction_releases_everything_listInKey :
    ∃ (m m' : Machine DelegateSlot),
      m.heap.Sound m.registry ({⟨0⟩} + handles listInKey.consumed) ∧ listInKey.Flawed m ∧
      (listInKey.perform (DelegateSlot.host 0)).run m =
        .failed ⟨.typeMismatch, .withMessage .typeError "unhashable type: 'list'"⟩ m' ∧
      m.Returns listInKey.consumed m' ∧ m.heap.live = 5 ∧ m'.heap.live = 1 ∧
      m'.heap.isLive ⟨0⟩ = true := by
  have hrun : ((Client.follow (DelegateSlot.host 0) Client.Careful
      (.start { limits := { memory := some 1000 } })
      [.newBytes [0x61, 0x62], .clone (.ref ⟨0⟩), .clone (.ref ⟨0⟩), .newList [.int 5],
        .newTuple [.ref ⟨1⟩], .newBytes [0x63], .newBytes [0x63]]).any fun c =>
        c.owned = {⟨0⟩} + handles listInKey.consumed ∧ c.machine.heap.live = 5 ∧
        (c.machine.heap.hash (.ref ⟨2⟩)).run = .ok (.error BuiltinKind.list.typeId) ∧
        (((listInKey.perform (DelegateSlot.host 0)).run c.machine).failed?.any fun p =>
          p.1 = ⟨.typeMismatch, .withMessage .typeError "unhashable type: 'list'"⟩ ∧
          p.2.heap.live = 1 ∧ p.2.heap.isLive ⟨0⟩ = true)) = true := by decide +kernel
  obtain ⟨c, hc, howned, hlive, hkey, hfailed⟩ := Client.exists_reached hrun
  have hs : c.machine.heap.Sound c.machine.registry c.owned := hc.sound (DelegateSlot.host_careful 0)
  rw [howned] at hs
  have hflawed : listInKey.Flawed c.machine :=
    ⟨(.ref ⟨2⟩, .none), by decide, BuiltinKind.list.typeId, hkey⟩
  obtain ⟨f, m', -, hr, hreturns⟩ :=
    rejected_construction_releases_everything (H := DelegateSlot.host 0) hs hflawed
  rw [hr] at hfailed
  obtain ⟨rfl, hlive', hkept⟩ := of_decide_eq_true hfailed
  exact ⟨c.machine, m', hs, hflawed, hr, hreturns, hlive, hlive', hkept⟩

end ItemAccess
