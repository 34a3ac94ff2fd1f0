import ItemAccess.Proofs.RejectedConstruction
import ItemAccess.Proofs.Store.Gain
import ItemAccess.Proofs.Store.Walk
import ItemAccess.Proofs.TraceEvents

/-!
# A dict made at once and pair by pair

A dict can be made of all its pairs, which are handed over, or made empty and filled by storing pair
after pair. The first way releases what is left over of equal keys before there is a dict, the second
way when the dict is there and has been grown. Both leave the store that there was, with the dict made in
one go, and with one more reference to each of its keys and values. A limit that refuses the dict one way
refuses it the other way.
-/

namespace ItemAccess

open Attempt Machine

variable {υ : SlotKind → Type} {H : Host υ} {m : Machine υ} {r s : Handle} {a : List DictEntry}
  {k : Key} {key v : Value} {ks : List Key} {pairs rest : List (Value × Value)}
  {owned : Multiset Handle} {h h' h₁ h₂ : Heap}

namespace Machine

def clonePair {ε : Type} (p : Value × Value) : Action υ ε (Value × Value) := do
  return (← retain p.1, ← retain p.2)

def dictAtOnce (pairs : List (Value × Value)) : Action υ Failure Value := do
  newDict (← pairs.mapM clonePair)

def storeAll (H : Host υ) (d : Value) (pairs : List (Value × Value)) : Action υ Failure Unit :=
  pairs.forM fun p => setItem H p.2 d p.1

def dictPairByPair (H : Host υ) (pairs : List (Value × Value)) : Action υ Failure Value := do
  let d ← newDict []
  storeAll H d pairs
  return d

end Machine

namespace Dict

theorem length_le_store (a : List DictEntry) (k : Key) (key v : Value) :
    a.length ≤ (store a k key v).length := by
  unfold store
  split <;> simp

theorem size_store_new (hd : (a.map (·.hash)).Nodup) (hk : (get? a k).isNone) (key v : Value) :
    (Body.dict (store a k key v)).size = (Body.dict a).size + Body.entrySize := by
  have hinsert := insert_of_isNone hk key v
  rw [insert_eq hd] at hinsert
  rw [(Prod.mk.inj hinsert).1]
  simp [Body.size, Nat.add_mul, Nat.add_assoc]

theorem size_store_known (hd : (a.map (·.hash)).Nodup) (hk : ¬ (get? a k).isNone) (key v : Value) :
    (Body.dict (store a k key v)).size = (Body.dict a).size := by
  have hlength := length_insert hk key v
  rw [insert_eq hd] at hlength
  simp only [Body.size, hlength]

theorem length_le_ofPairs (a : List DictEntry) (pairs : List ((Value × Value) × Key)) :
    a.length ≤ (ofPairs a pairs).length := by
  induction pairs generalizing a with
  | nil => exact Nat.le_refl _
  | cons p rest ih => exact (length_le_store a p.2 p.1.1 p.1.2).trans (ih _)

theorem size_le_ofPairs (a : List DictEntry) (pairs : List ((Value × Value) × Key)) :
    (Body.dict a).size ≤ (Body.dict (ofPairs a pairs)).size := by
  have hlength := Nat.mul_le_mul_right Body.entrySize (length_le_ofPairs a pairs)
  simp only [Body.size]
  omega

end Dict

namespace Heap

/-- The store `h'` is `h` with a dict at `r`, which has a reference to each of its keys and values. -/
def DictAdded (h : Heap) (r : Handle) (a : List DictEntry) (h' : Heap) : Prop :=
  ∃ h₀, h.allocate (.dict a) = .ok (.ok (r, h₀)) ∧ h' = h₀.gain (handles (Dict.children a))

/-- The entries made so far, and the pairs to come, are of objects that have references of their own. -/
structure Filling (h : Heap) (a : List DictEntry) (pairs : List (Value × Value)) : Prop where
  distinct : (a.map (·.hash)).Nodup
  counted : h.Counted (handles (Dict.children a) + handles (flattenPairs pairs))

namespace Filling

theorem ledger (hf : h.Filling a ((key, v) :: rest)) (k : Key) :
    handles (Dict.children (Dict.store a k key v)) + handles (flattenPairs rest) +
        handles (Dict.leftOver a k key) =
      handles (Dict.children a) + handles (flattenPairs ((key, v) :: rest)) := by
  have hledger := Dict.handles_insert a k key v
  rw [Dict.insert_eq hf.distinct] at hledger
  rw [add_right_comm, hledger, Discipline.handles_flattenPairs_cons, add_assoc]

theorem next (hf : h.Filling a ((key, v) :: rest)) (k : Key) :
    h.Filling (Dict.store a k key v) rest := by
  constructor
  · have hnodup := Dict.nodup_insert hf.distinct k key v
    rwa [Dict.insert_eq hf.distinct] at hnodup
  · apply hf.counted.mono
    rw [← hf.ledger k]
    exact Multiset.le_add_right _ _

theorem leftOver (hf : h.Filling a ((key, v) :: rest)) (k : Key) :
    h.Counted (handles (Dict.leftOver a k key)) := by
  apply hf.counted.mono
  rw [← hf.ledger k]
  exact Multiset.le_add_left _ _

/-- What is true of the entries at the start is true of them in the end. -/
theorem ofPairs {R : Value × Value → Key → Prop} (hf : h.Filling a pairs)
    (hks : List.Forall₂ R pairs ks) : h.Filling (Dict.ofPairs a (pairs.zip ks)) [] := by
  induction hks generalizing a with
  | nil => exact hf
  | @cons p k rest ks _ _ ih => exact ih (hf.next k)

theorem held (hf : h.Filling a pairs) : h.Counted (handles (Dict.children a)) :=
  hf.counted.mono (Multiset.le_add_right _ _)

theorem tail (hf : h.Filling a ((key, v) :: rest)) : h.Filling a rest := by
  refine ⟨hf.distinct, hf.counted.mono ?_⟩
  rw [Discipline.handles_flattenPairs_cons]
  exact Multiset.add_le_add_left (Multiset.le_add_left _ _)

theorem pair (hf : h.Filling a ((key, v) :: rest)) : h.Counted (key.handles + v.handles) := by
  apply hf.counted.mono
  rw [Discipline.handles_flattenPairs_cons]
  exact (Multiset.le_add_right _ _).trans (Multiset.le_add_left _ _)

theorem key_present (hf : h.Filling a ((key, v) :: rest)) : h.Present key :=
  (hf.pair.mono (Multiset.le_add_right _ _)).present

theorem value_present (hf : h.Filling a ((key, v) :: rest)) : h.Present v :=
  (hf.pair.mono (Multiset.le_add_left _ _)).present

end Filling

/-- What the host owns has references of its own. -/
theorem Sound.filling {g : Registry υ} (hs : h.Sound g owned)
    (howned : ∀ p ∈ pairs, p.1.Within owned ∧ p.2.Within owned) : h.Filling [] pairs := by
  refine ⟨List.nodup_nil, fun r hr => ?_⟩
  obtain ⟨p, hp, hmem⟩ : ∃ p ∈ pairs, .ref r = p.1 ∨ .ref r = p.2 := by
    simpa [flattenPairs, mem_handles] using hr
  have hin : r ∈ owned := by
    rcases hmem with heq | heq
    · exact (howned p hp).1 r heq.symm
    · exact (howned p hp).2 r heq.symm
  obtain ⟨lost, haccounted⟩ := hs.accounted
  obtain ⟨e, he⟩ := haccounted.exists_of_owned (Multiset.mem_add.2 (.inl hin))
  exact ⟨e, he, haccounted.positive r e he⟩

theorem Present.of_remains (hv : h.Present v) (hr : h'.Remains h) : h'.Present v := by
  rintro s rfl
  obtain ⟨b, hb⟩ := hv.body
  obtain ⟨e, he, -⟩ := body_eq_ok.1 (hr s b hb)
  exact ⟨e, he⟩

/-- What has a key has the same key in a store with more slots, if its own objects are as they were. -/
theorem hash_of_more {x : Except TypeId Key} (hr : h'.Remains h) (hc : h.Closed) (hv : h.Present v)
    (hsize : h.slots.size ≤ h'.slots.size) (hx : (h.hash v).run = .ok x) :
    (h'.hash v).run = .ok x := by
  have hwalk : (h'.hashWithin (h.slots.size + 1) v).run = .ok x := by
    rw [← hashWithin_of_remains hr hc hv]
    exact hx
  have hends : (h'.hashWithin (h.slots.size + 1) v).run ≠ .error .endless := by simp [hwalk]
  rw [Heap.hash, hashWithin_of_le (Nat.succ_le_succ hsize) hends, hwalk]

namespace DictAdded

theorem body (ha : h.DictAdded r a h') : h'.body r = .ok (.dict a) := by
  obtain ⟨h₀, hmade, rfl⟩ := ha
  obtain ⟨charge, -, hr⟩ := lookup?_allocate_self hmade
  exact body_gain (body_of_lookup? hr) _

theorem remains (hfree : h.FreeListed) (ha : h.DictAdded r a h') : h'.Remains h := by
  obtain ⟨h₀, hmade, rfl⟩ := ha
  intro x b hb
  obtain ⟨e, he, rfl⟩ := body_eq_ok.1 hb
  exact body_gain (body_of_lookup? (lookup?_allocate_of_some hfree hmade he)) _

theorem size_le (ha : h.DictAdded r a h') : h.slots.size ≤ h'.slots.size := by
  obtain ⟨h₀, hmade, rfl⟩ := ha
  rw [size_gain]
  exact size_le_allocate hmade

end DictAdded

end Heap

namespace Machine

theorem run_clonePair {ε : Type} {more : Multiset Handle} (hheap : m.heap = h.gain more)
    (hkey : h.Present key) (hv : h.Present v) :
    (clonePair (key, v) : Action υ ε (Value × Value)).run m =
      .done (key, v) { m with heap := h.gain (more + key.handles + v.handles) } := by
  have hfirst : m.heap.retain key = .ok (h.gain (more + key.handles)) := by
    rw [hheap, Heap.retain_gain hkey]
  have hsecond := Heap.retain_gain hv (more + key.handles)
  simp [clonePair, retain, changeHeap, hfirst, hsecond]

/-- The clones are references that come on top. -/
theorem run_clonePairs {ε : Type} {more : Multiset Handle} (hf : h.Filling a pairs)
    (hheap : m.heap = h.gain more) :
    (pairs.mapM clonePair : Action υ ε (List (Value × Value))).run m =
      .done pairs { m with heap := h.gain (more + handles (flattenPairs pairs)) } := by
  induction pairs generalizing m more with
  | nil =>
    have hsame : h.gain (more + handles (flattenPairs [])) = m.heap := by rw [hheap]; simp [flattenPairs]
    rw [hsame]
    rfl
  | cons pair rest ih =>
    obtain ⟨key, v⟩ := pair
    have htail := ih (m := { m with heap := h.gain (more + key.handles + v.handles) }) hf.tail rfl
    rw [List.mapM_cons, run_bind, run_clonePair hheap hf.key_present hf.value_present]
    dsimp only
    rw [run_bind, htail, Discipline.handles_flattenPairs_cons, ← add_assoc, ← add_assoc]
    rfl

/-- The induction is on the pairs. What is left over of a pair came on top, so that its release frees
nothing. -/
theorem run_fillDict_gain (hf : h.Filling a pairs) (hc : h.Closed)
    (hheap : m.heap = h.gain (handles (Dict.children a) + handles (flattenPairs pairs)))
    (hks : List.Forall₂ (fun p k => (h.hash p.1).run = .ok (.ok k)) pairs ks) :
    (fillDict a pairs : Action υ Failure (List DictEntry)).run m =
      .done (Dict.ofPairs a (pairs.zip ks))
        { m with heap := h.gain (handles (Dict.children (Dict.ofPairs a (pairs.zip ks)))) } := by
  induction hks generalizing m a with
  | nil =>
    have hsame : h.gain (handles (Dict.children a)) = m.heap := by rw [hheap]; simp [flattenPairs]
    rw [List.zip_nil_left, Dict.ofPairs, List.foldl_nil, hsame]
    rfl
  | @cons p k rest ks hk _ ih =>
    obtain ⟨key, v⟩ := p
    have hk' : (m.heap.hash key).run = .ok (.ok k) := by
      rw [hheap]
      exact Heap.hash_of_more (fun _ _ hb => Heap.body_gain hb _) hc hf.key_present (by simp) hk
    have hrelease : m.heap.releaseAll (Dict.insert a k key v).2 =
        .ok (h.gain (handles (Dict.children (Dict.store a k key v)) + handles (flattenPairs rest))) := by
      rw [hheap, ← hf.ledger k, Dict.insert_eq hf.distinct]
      exact Heap.releaseAll_gain (hf.leftOver k) _
    rw [run_fillDict_cons hk' hrelease, Dict.insert_eq hf.distinct]
    exact ih (hf.next k) rfl

/-- A dict of clones is allocated in the store that has a reference more to all that the dict holds. -/
theorem run_dictAtOnce (hf : m.heap.Filling [] pairs) (hc : m.heap.Closed)
    (hks : List.Forall₂ (fun p k => (m.heap.hash p.1).run = .ok (.ok k)) pairs ks) :
    (dictAtOnce pairs).run m = (allocate (.dict (Dict.ofPairs [] (pairs.zip ks)))).run
      { m with heap := m.heap.gain (handles (Dict.children (Dict.ofPairs [] (pairs.zip ks)))) } := by
  have hclones := run_clonePairs (m := m) (ε := Failure) hf (Heap.gain_zero m.heap).symm
  let m₁ := { m with heap := m.heap.gain (0 + handles (flattenPairs pairs)) }
  have hfill := run_fillDict_gain (m := m₁) hf hc rfl hks
  rw [dictAtOnce, run_bind, hclones]
  dsimp only
  rw [newDict, run_bind, hfill]

/-- The room for an entry is granted or refused, whatever references there are. -/
theorem run_growDict_gain {e : Entry} {more : Multiset Handle} (he : h.lookup? r = some e)
    (hheap : m.heap = h.gain more) :
    (∃ h', h.grow r Body.entrySize = .ok (.ok h') ∧
      (growDict (.ref r) : SlotAction υ Unit).run m = .done () { m with heap := h'.gain more }) ∨
    (∃ e, h.meter.grow Body.entrySize = .error e ∧
      (growDict (.ref r) : SlotAction υ Unit).run m =
        .failed {} { m with pending := ⟨some (Complaint.limit e).exception⟩ }) := by
  rw [growDict, run_bind, run_get]
  cases hg : h.meter.grow Body.entrySize with
  | error e =>
    have hrefused := Heap.grow_of_refused (h := h.gain more) hg r
    rw [← hheap] at hrefused
    refine .inr ⟨e, rfl, ?_⟩
    simp only [hrefused]
    rfl
  | ok x =>
    obtain ⟨h', hgrow⟩ := Heap.grow_of_granted he hg
    have hgranted := Heap.grow_gain hgrow more
    rw [← hheap] at hgranted
    refine .inl ⟨h', hgrow, ?_⟩
    simp [hgranted]

/-- Storing, after the entry has been paid for. -/
theorem run_dictStore_gain {a' : List DictEntry} {left : List Value}
    (hinsert : Dict.insert a k key v = (a', left)) (hheap : m.heap = h₁.gain (handles (Dict.children a)))
    (hkey : h₁.Present key) (hv : h₁.Present v) (hb : h₁.body r = .ok (.dict a))
    (hset : h₁.setBody r (.dict a') = .ok h₂) (hleft : h₂.Counted (handles left)) :
    (do
        let key ← retain key
        let v ← retain v
        let (r, entries) ← dictToChange (.ref r)
        let (entries, leftOver) := Dict.insert entries k key v
        changeHeap (·.setBody r (.dict entries))
        releaseAll leftOver : SlotAction υ Unit).run m =
      .done () { m with heap := h₂.gain (handles (Dict.children a')) } := by
  let more := handles (Dict.children a') + handles left
  have hledger : handles (Dict.children a) + key.handles + v.handles = more := by
    have hhandles := Dict.handles_insert a k key v
    rw [hinsert] at hhandles
    rw [add_assoc, ← hhandles]
  have hretain := Heap.retain_gain hkey (handles (Dict.children a))
  have hretain' := Heap.retain_gain hv (handles (Dict.children a) + key.handles)
  rw [hledger] at hretain'
  have htarget := run_dictToChange (ε := Raised) (m := { m with heap := h₁.gain more })
    (Heap.body_gain hb more)
  have hchange := Heap.setBody_gain hset more
  have hrelease : (h₂.gain more).releaseAll left = .ok (h₂.gain (handles (Dict.children a'))) :=
    Heap.releaseAll_gain hleft _
  simp [retain, changeHeap, hheap, hretain, hretain', htarget, hinsert, hchange, Machine.releaseAll,
    hrelease]

/-- A pair is stored in the dict, or the room for its key is refused, which a dict with this key as well
would have been. -/
theorem run_dictSet_added (hfree : h.FreeListed) (hf : h.Filling a ((key, v) :: rest))
    (ha : h.DictAdded r a m.heap) (hk : (m.heap.hash key).run = .ok (.ok k)) :
    (∃ h', (dictSet (.ref r) key v : SlotAction υ Unit).run m = .done () { m with heap := h' } ∧
      h.DictAdded r (Dict.store a k key v) h') ∨
    (∃ e, (dictSet (.ref r) key v : SlotAction υ Unit).run m =
        .failed {} { m with pending := ⟨some (Complaint.limit e).exception⟩ } ∧
      h.meter.allocate (Body.dict (Dict.store a k key v)).size = .error e) := by
  have hb := ha.body
  obtain ⟨h₀, hmade, hheap⟩ := ha
  obtain ⟨charge, hm, hr⟩ := Heap.lookup?_allocate_self hmade
  have hb₀ : h₀.body r = .ok (.dict a) := Heap.body_of_lookup? hr
  have hpair := hf.pair.allocate hfree hmade
  have hkey := (hpair.mono (Multiset.le_add_right _ _)).present
  have hv := (hpair.mono (Multiset.le_add_left _ _)).present
  have hinsert := Dict.insert_eq hf.distinct k key v
  rw [dictSet, run_bind, run_hashKey_of_hash hk]
  dsimp only
  rw [run_bind, run_dictEntries hb]
  dsimp only
  by_cases hnew : (Dict.get? a k).isNone = true
  · have hsize := Dict.size_store_new hf.distinct hnew key v
    rw [if_pos hnew, run_bind]
    obtain ⟨h₁, hgrow, hrun⟩ | ⟨e, hrefused, hrun⟩ := run_growDict_gain hr hheap
    · obtain ⟨h₂, hset, hmade₂⟩ := Heap.allocate_grow_setBody hmade hgrow hsize
      have hsame := Heap.body_grow hgrow
      have hremains : h₁.Remains h₀ := fun x b hb => (hsame x).trans hb
      have hleft := (hf.leftOver k).allocate hfree hmade₂
      rw [hrun]
      exact .inl ⟨_, run_dictStore_gain (m := { m with heap := _ }) hinsert rfl (hkey.of_remains hremains)
        (hv.of_remains hremains) ((hsame r).trans hb₀) hset hleft, h₂, hmade₂, rfl⟩
    · rw [hrun, hsize, Meter.allocate_add hm, hrefused]
      exact .inr ⟨e, rfl, rfl⟩
  · rw [if_neg hnew]
    have hsize := Dict.size_store_known hf.distinct hnew key v
    obtain ⟨h₂, hset, hmade₂⟩ := Heap.allocate_setBody hmade hsize
    have hleft := (hf.leftOver k).allocate hfree hmade₂
    exact .inl ⟨_, run_dictStore_gain hinsert hheap hkey hv hb₀ hset hleft, h₂, hmade₂, rfl⟩

/-- The tracer is told that the dict's own slot is called, and the slot's end is the end of the access. -/
theorem run_setItem_dict (hg : m.registry.Built) (hquiet : m.pending = {})
    (hb : m.heap.body r = .ok (.dict a)) (hkey : m.heap.Present key) (hv : m.heap.Present v) :
    (setItem H v (.ref r) key).run m = ((settle (dictSet (.ref r) key v)).run
      { m with tracer := m.tracer.note (.dispatch .set .mapping "dict") }).told .set := by
  have hid : m.heap.typeOf (.ref r) = .ok BuiltinKind.dict.typeId := Heap.typeOf_ref hb
  obtain ⟨model, ht⟩ := hg.get? .dict
  have hslot : (TypeObject.ofSpec (some .dict) (BuiltinKind.dict.spec (υ := υ) model)).capabilities.set? =
      some (.builtin .dictSet) := rfl
  have hassign : (assign H v (.ref r) key).run m = (settle (dictSet (.ref r) key v)).run
      { m with tracer := m.tracer.note (.dispatch .set .mapping "dict") } := by
    simp only [assign, run_bind, run_typeOf hid, run_typeObject ht, hslot,
      run_noteDispatch .set .mapping ht]
    rfl
  rw [run_setItem hv (Heap.present_of_typeOf hid) hkey hquiet, hassign]

/-- A pair is stored in the dict that is there by now. -/
theorem run_setItem_added (hs : h.Sound m.registry owned) (hquiet : m.pending = {})
    (hf : h.Filling a ((key, v) :: rest)) (ha : h.DictAdded r a m.heap)
    (hk : (h.hash key).run = .ok (.ok k)) :
    (∃ h', (setItem H v (.ref r) key).run m = .done ()
        { m with heap := h', tracer := m.tracer.note (.dispatch .set .mapping "dict") } ∧
      h.DictAdded r (Dict.store a k key v) h') ∨
    (∃ e f m', (setItem H v (.ref r) key).run m = .failed f m' ∧ f.exception.cls = .memoryError ∧
      h.meter.allocate (Body.dict (Dict.store a k key v)).size = .error e) := by
  have hremains := ha.remains hs.free
  have hk' := Heap.hash_of_more hremains hs.closed hf.key_present ha.size_le hk
  rw [run_setItem_dict hs.built hquiet ha.body (hf.key_present.of_remains hremains)
    (hf.value_present.of_remains hremains)]
  let m₀ := { m with tracer := m.tracer.note (.dispatch .set .mapping "dict") }
  obtain ⟨h', hrun, hadded⟩ | ⟨e, hrun, hrefused⟩ := run_dictSet_added (m := m₀) hs.free hf ha hk'
  · rw [run_settle_done hrun]
    exact .inl ⟨h', rfl, hadded⟩
  · rw [run_settle_failed hrun (.left _)]
    exact .inr ⟨e, _, _, rfl, rfl, hrefused⟩

/-- The induction is on the pairs to come. What carries it is that the store is always the one with the
dict made in one go of the entries that it has by now. -/
theorem run_storeAll (hs : h.Sound m.registry owned) (hquiet : m.pending = {}) (hf : h.Filling a pairs)
    (ha : h.DictAdded r a m.heap)
    (hks : List.Forall₂ (fun p k => (h.hash p.1).run = .ok (.ok k)) pairs ks) :
    (∃ h', (storeAll H (.ref r) pairs).run m = .done ()
        { m with
          heap := h'
          tracer := m.tracer.noteAll (List.replicate pairs.length (.dispatch .set .mapping "dict")) } ∧
      h.DictAdded r (Dict.ofPairs a (pairs.zip ks)) h') ∨
    (∃ e f m', (storeAll H (.ref r) pairs).run m = .failed f m' ∧
      f.exception.cls = .memoryError ∧
      h.meter.allocate (Body.dict (Dict.ofPairs a (pairs.zip ks))).size = .error e) := by
  induction hks generalizing m a with
  | nil => exact .inl ⟨m.heap, rfl, ha⟩
  | @cons p k rest ks hk _ ih =>
    obtain ⟨key, v⟩ := p
    rw [storeAll, List.forM, run_bind]
    obtain ⟨h₁, hrun, hadded⟩ | ⟨e, f, m', hrun, hcls, hrefused⟩ :=
      run_setItem_added (H := H) hs hquiet hf ha hk
    · rw [hrun]
      let m₁ := { m with heap := h₁, tracer := m.tracer.note (.dispatch .set .mapping "dict") }
      exact ih (m := m₁) hs hquiet (hf.next k) hadded
    · rw [hrun]
      obtain ⟨e', hmore⟩ := Meter.allocate_refused_of_le (Dict.size_le_ofPairs _ (rest.zip ks)) hrefused
      exact .inr ⟨e', f, m', rfl, hcls, hmore⟩

theorem run_allocate {b : Body} (ha : m.heap.allocate b = .ok (.ok (r, h'))) :
    (allocate b).run m = .done (.ref r) { m with heap := h' } := by
  simp [Machine.allocate, ha]

theorem run_allocate_refused {b : Body} {e : LimitError} (ha : m.heap.meter.allocate b.size = .error e) :
    (allocate b).run m = .failed (.ofLimit e) m := by
  simp [Machine.allocate, Heap.allocate_of_refused ha]

/-- The dict is made empty, if the limits allow that, and then filled. -/
theorem run_dictPairByPair (hs : m.heap.Sound m.registry owned) (hquiet : m.pending = {})
    (hf : m.heap.Filling [] pairs)
    (hks : List.Forall₂ (fun p k => (m.heap.hash p.1).run = .ok (.ok k)) pairs ks) :
    (∃ r h', (dictPairByPair H pairs).run m = .done (.ref r)
        { m with
          heap := h'
          tracer := m.tracer.noteAll (List.replicate pairs.length (.dispatch .set .mapping "dict")) } ∧
      m.heap.DictAdded r (Dict.ofPairs [] (pairs.zip ks)) h') ∨
    (∃ e f m', (dictPairByPair H pairs).run m = .failed f m' ∧ f.exception.cls = .memoryError ∧
      m.heap.meter.allocate (Body.dict (Dict.ofPairs [] (pairs.zip ks))).size = .error e) := by
  have hnew : (newDict [] : Action υ Failure Value).run m = (allocate (.dict [])).run m := rfl
  rw [dictPairByPair, run_bind, hnew]
  cases hroom : m.heap.meter.allocate (Body.dict []).size with
  | error e =>
    obtain ⟨e', hmore⟩ := Meter.allocate_refused_of_le (Dict.size_le_ofPairs [] (pairs.zip ks)) hroom
    rw [run_allocate_refused hroom]
    exact .inr ⟨e', _, _, rfl, rfl, hmore⟩
  | ok x =>
    obtain ⟨r, h₀, hmade⟩ := Heap.allocate_of_granted hs.free hroom
    have hadded : m.heap.DictAdded r [] h₀ := ⟨h₀, hmade, (Heap.gain_zero h₀).symm⟩
    rw [run_allocate hmade]
    dsimp only
    rw [run_bind]
    obtain ⟨h', hrun, hall⟩ | ⟨e, f, m', hrun, hcls, hrefused⟩ :=
      run_storeAll (H := H) (m := { m with heap := h₀ }) hs hquiet hf hadded hks
    · rw [hrun]
      exact .inl ⟨r, h', rfl, hall⟩
    · rw [hrun]
      exact .inr ⟨e, f, m', rfl, hcls, hrefused⟩

end Machine

/-- A dict of clones of pairs, and an empty dict in which the pairs are stored one after the other, leave
the same store with the same dict. If a limit refuses a dict of this size, both ways fail for it. -/
theorem dict_at_once_eq_pair_by_pair (hs : m.heap.Sound m.registry owned) (hquiet : m.pending = {})
    (howned : ∀ p ∈ pairs, p.1.Within owned ∧ p.2.Within owned)
    (hks : List.Forall₂ (fun p k => (m.heap.hash p.1).run = .ok (.ok k)) pairs ks) :
    (∃ r h', (dictAtOnce pairs).run m = .done (.ref r) { m with heap := h' } ∧
      (dictPairByPair H pairs).run m = .done (.ref r)
        { m with
          heap := h'
          tracer := m.tracer.noteAll (List.replicate pairs.length (.dispatch .set .mapping "dict")) } ∧
      m.heap.DictAdded r (Dict.ofPairs [] (pairs.zip ks)) h') ∨
    (∃ e f m₁ m₂, m.heap.meter.allocate (Body.dict (Dict.ofPairs [] (pairs.zip ks))).size = .error e ∧
      (dictAtOnce pairs).run m = .failed (.ofLimit e) m₁ ∧
      (dictPairByPair H pairs).run m = .failed f m₂ ∧ f.exception.cls = .memoryError) := by
  have hf := hs.filling howned
  have hatOnce := run_dictAtOnce hf hs.closed hks
  obtain ⟨r, h', hrun, hadded⟩ | ⟨e, f, m', hrun, hcls, hrefused⟩ :=
    run_dictPairByPair (H := H) hs hquiet hf hks
  · left
    refine ⟨r, h', ?_, hrun, hadded⟩
    obtain ⟨h₀, hmade, rfl⟩ := hadded
    have hnew : r ∉ handles (Dict.children (Dict.ofPairs [] (pairs.zip ks))) :=
      (hf.ofPairs hks).held.not_mem (Heap.lookup?_of_allocate hs.free hmade)
    rw [hatOnce]
    exact run_allocate (Heap.allocate_gain hmade hnew)
  · exact .inr ⟨e, f, _, m', hrefused, hatOnce.trans (run_allocate_refused hrefused), hrun, hcls⟩

def equalKeys : List (Value × Value) :=
  [(.int 1, .ref ⟨0⟩), (.ref ⟨0⟩, .ref ⟨3⟩), (.bool true, .ref ⟨1⟩), (.ref ⟨1⟩, .none),
    (.float ⟨0x3ff0000000000000⟩, .ref ⟨3⟩)]

/-- The dict has the first of the equal keys and the last of their values, in the slot freed last. -/
theorem dict_at_once_eq_pair_by_pair_equalKeys :
    ∃ (m : Machine DelegateSlot) (h' : Heap) (tracer : Tracer),
      m.heap.Sound m.registry {⟨0⟩, ⟨1⟩, ⟨3⟩} ∧ m.pending = {} ∧
      (dictAtOnce equalKeys).run m = .done (.ref ⟨2⟩) { m with heap := h' } ∧
      (dictPairByPair (DelegateSlot.host 0) equalKeys).run m =
        .done (.ref ⟨2⟩) { m with heap := h', tracer := tracer } ∧
      h'.body ⟨2⟩ = .ok (.dict [⟨.integer 1, .int 1, .ref ⟨3⟩⟩, ⟨.bytes [0x61], .ref ⟨0⟩, .none⟩]) ∧
      m.heap.count? ⟨0⟩ = some 1 ∧ h'.count? ⟨0⟩ = some 2 ∧ h'.count? ⟨1⟩ = some 1 := by
  have hrun : ((Client.follow (DelegateSlot.host 0) Client.Careful
      (.start { limits := { memory := some 1000 } })
      [.newBytes [0x61], .newBytes [0x61], .newTuple [], .newList [], .drop (.ref ⟨2⟩)]).any fun c =>
        c.owned = {⟨0⟩, ⟨1⟩, ⟨3⟩} ∧ c.machine.pending = {} ∧ c.machine.heap.count? ⟨0⟩ = some 1 ∧
        (c.machine.heap.hash (.ref ⟨0⟩)).run = .ok (.ok (.bytes [0x61])) ∧
        (c.machine.heap.hash (.ref ⟨1⟩)).run = .ok (.ok (.bytes [0x61])) ∧
        (c.machine.heap.hash (.float ⟨0x3ff0000000000000⟩)).run = .ok (.ok (.integer 1)) ∧
        (((dictAtOnce equalKeys).run c.machine).done?.any fun p => p.1 = .ref ⟨2⟩ ∧
          p.2.heap.body ⟨2⟩ =
            .ok (.dict [⟨.integer 1, .int 1, .ref ⟨3⟩⟩, ⟨.bytes [0x61], .ref ⟨0⟩, .none⟩]) ∧
          p.2.heap.count? ⟨0⟩ = some 2 ∧ p.2.heap.count? ⟨1⟩ = some 1)) = true := by decide +kernel
  obtain ⟨c, hc, howned, hquiet, hcount, hbytes, hbytes', hfloat, hdone⟩ := Client.exists_reached hrun
  have hs : c.machine.heap.Sound c.machine.registry c.owned := hc.sound (DelegateSlot.host_careful 0)
  rw [howned] at hs
  have hks : List.Forall₂ (fun p k => (c.machine.heap.hash p.1).run = .ok (.ok k)) equalKeys
      [.integer 1, .bytes [0x61], .integer 1, .bytes [0x61], .integer 1] :=
    .cons rfl (.cons hbytes (.cons rfl (.cons hbytes' (.cons hfloat .nil))))
  obtain ⟨r, h', hatOnce, hpairs, -⟩ | ⟨e, f, m₁, m₂, -, hfailed, -⟩ :=
    dict_at_once_eq_pair_by_pair (H := DelegateSlot.host 0) hs hquiet (by decide) hks
  · rw [hatOnce] at hdone
    obtain ⟨hr, hbody, hcount', hcount''⟩ := of_decide_eq_true hdone
    cases hr
    exact ⟨c.machine, h', _, hs, hquiet, hatOnce, hpairs, hbody, hcount, hcount', hcount''⟩
  · rw [hfailed] at hdone
    cases hdone

end ItemAccess
