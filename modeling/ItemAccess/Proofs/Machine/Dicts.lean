import ItemAccess.Proofs.FailedAccess
import ItemAccess.Proofs.Machine.Serving
import ItemAccess.Proofs.Store.ReleaseOrder

/-!
# What accesses to a dict do

A dict is an association list in which no key stands twice. To store under a key that is there replaces
the value and nothing else; a new key comes last; to delete a key takes its entry out. The slots of a
dict do just this, and whatever else they change are references.
-/

namespace ItemAccess

namespace Dict

variable {entries : List DictEntry} {k : Key} {key value : Value} {e : DictEntry}

/-- Stores a value. The entry of a key that is there keeps its place and its key object. -/
def store (entries : List DictEntry) (k : Key) (key value : Value) : List DictEntry :=
  if k ∈ entries.map (·.hash) then
    entries.map fun e => if e.hash = k then { e with value := value } else e
  else entries ++ [⟨k, key, value⟩]

def discard (entries : List DictEntry) (k : Key) : List DictEntry :=
  entries.filter fun e => e.hash ≠ k

/-- What is left over where the key is there already: the given key object and the old value. -/
def leftOver (entries : List DictEntry) (k : Key) (key : Value) : List Value :=
  (entries.filter fun e => e.hash = k).flatMap fun e => [key, e.value]

theorem find?_of_mem (hd : (entries.map (·.hash)).Nodup) (he : e ∈ entries) (hk : e.hash = k) :
    entries.find? (·.hash = k) = some e := by
  induction entries with
  | nil => cases he
  | cons d rest ih =>
    obtain ⟨hnot, hrest⟩ := List.nodup_cons.1 hd
    rcases List.mem_cons.1 he with rfl | he
    · simp [hk]
    · have hne : d.hash ≠ k := by
        rintro rfl
        exact hnot (List.mem_map.2 ⟨e, he, hk⟩)
      simpa [hne] using ih hrest he

theorem find?_of_forall (hk : ∀ e ∈ entries, e.hash ≠ k) : entries.find? (·.hash = k) = none :=
  List.find?_eq_none.2 fun e he => by simpa using hk e he

theorem discard_of_forall (hk : ∀ e ∈ entries, e.hash ≠ k) : discard entries k = entries :=
  List.filter_eq_self.2 fun e he => by simpa using hk e he

theorem eraseP_eq_discard (hd : (entries.map (·.hash)).Nodup) :
    entries.eraseP (·.hash = k) = discard entries k := by
  induction entries with
  | nil => rfl
  | cons d rest ih =>
    obtain ⟨hnot, hrest⟩ := List.nodup_cons.1 hd
    by_cases hk : d.hash = k
    · have hothers : ∀ e ∈ rest, e.hash ≠ k := by
        rintro e he rfl
        exact hnot (List.mem_map.2 ⟨e, he, hk.symm⟩)
      simpa [discard, hk] using (discard_of_forall hothers).symm
    · simpa [discard, hk] using ih hrest

theorem remove?_of_mem (hd : (entries.map (·.hash)).Nodup) (he : e ∈ entries) (hk : e.hash = k) :
    remove? entries k = some (e, discard entries k) := by
  rw [remove?, find?_of_mem hd he hk, Option.map_some, eraseP_eq_discard hd]

/-- Of distinct keys, at most one is replaced. -/
theorem insert_eq (hd : (entries.map (·.hash)).Nodup) (k : Key) (key value : Value) :
    insert entries k key value = (store entries k key value, leftOver entries k key) := by
  induction entries with
  | nil => rfl
  | cons d rest ih =>
    obtain ⟨hnot, hrest⟩ := List.nodup_cons.1 hd
    by_cases hk : d.hash = k
    · have hothers : ∀ e ∈ rest, e.hash ≠ k := by
        rintro e he rfl
        exact hnot (List.mem_map.2 ⟨e, he, hk.symm⟩)
      have hmap : (rest.map fun e => if e.hash = k then { e with value := value } else e) = rest :=
        (List.map_congr_left fun e he => if_neg (hothers e he)).trans (List.map_id rest)
      have hfilter : (rest.filter fun e => e.hash = k) = [] :=
        List.filter_eq_nil_iff.2 fun e he => by simpa using hothers e he
      simp [insert, store, leftOver, hk, hmap, hfilter]
    · simp only [insert, if_neg hk, ih hrest, store, leftOver, List.map_cons, List.mem_cons,
        Ne.symm hk, false_or, List.filter_cons, decide_eq_true_eq]
      split <;> simp

end Dict

namespace Heap

variable {h h' : Heap} {r x : Handle} {e e' : Entry} {b : Body} {v : Value} {vs : List Value}

def contents? (h : Heap) (x : Handle) : Option (Body × Nat) :=
  (h.lookup? x).map fun e => (e.body, e.charge)

theorem contents?_put (he : h.lookup? r = some e) (hx : x ≠ r) (e' : Entry) :
    (h.put r e').contents? x = h.contents? x := by
  rw [contents?, lookup?_put he, if_neg hx, contents?]

theorem contents?_retain (hr : h.retain v = .ok h') (x : Handle) : h'.contents? x = h.contents? x := by
  cases v with
  | ref r =>
    obtain ⟨e, he, rfl⟩ := retainHandle_cases hr
    rw [contents?, lookup?_put he]
    by_cases hx : x = r
    · subst hx
      simp [contents?, he]
    · rw [if_neg hx, contents?]
  | _ =>
    cases hr
    rfl

theorem contents?_grow {bytes : Nat} (hg : h.grow r bytes = .ok (.ok h')) (hx : x ≠ r) :
    h'.contents? x = h.contents? x := by
  obtain ⟨_, meter, _, -, he, rfl⟩ := grow_cases hg
  exact contents?_put (h := { h with meter := meter }) he hx _

theorem contents?_shrink {bytes : Nat} (hs : h.shrink r bytes = .ok h') (hx : x ≠ r) :
    h'.contents? x = h.contents? x := by
  obtain ⟨_, he, rfl⟩ := shrink_cases hs
  exact contents?_put (h := { h with meter := h.meter.free _ }) he hx _

theorem contents?_setBody (hs : h.setBody r b = .ok h') (hx : x ≠ r) : h'.contents? x = h.contents? x := by
  obtain ⟨e, he, rfl⟩ := setBody_cases hs
  exact contents?_put he hx _

/-- Releasing frees objects or leaves them alone. -/
theorem contents?_releaseAll (hr : h.releaseAll vs = .ok h') (x : Handle) :
    h'.contents? x = h.contents? x ∨ h'.lookup? x = none := by
  induction hr using releaseAll_induction with
  | nil h => exact .inl rfl
  | @step h v h₁ cs ws h' hd hr ih =>
    have hstep : h₁.contents? x = h.contents? x ∨ h₁.lookup? x = none := by
      cases hd with
      | immediate _ => exact .inl rfl
      | @fewer r e he _ =>
        rw [contents?, lookup?_put he]
        by_cases hx : x = r
        · subst hx
          exact .inl (by simp [contents?, he])
        · exact .inl (by rw [if_neg hx, contents?])
      | @last r e he _ =>
        rw [contents?, lookup?_vacate he]
        by_cases hx : x = r
        · exact .inr (if_pos hx)
        · exact .inl (by rw [if_neg hx, contents?])
    rcases hstep with hsame | hgone
    · rcases ih with hnext | hgone
      · exact .inl (hnext.trans hsame)
      · exact .inr hgone
    · rcases ih with hnext | hgone'
      · refine .inr ?_
        simpa [contents?, hgone] using hnext
      · exact .inr hgone'

/-- The object `r` has got the contents `b`, and the values `released` have been released. All other
objects hold what they held, unless they were freed by that release. -/
structure Updated (h : Heap) (r : Handle) (b : Body) (released : List Value) (h' : Heap) : Prop where
  contents : h'.body r = .ok b
  steps : ∃ h₁ h₂ : Heap, h₁.body r = .ok b ∧ (∀ x, x ≠ r → h₁.contents? x = h.contents? x) ∧
    h₁.releaseAll released = .ok h₂ ∧ ∀ x, x ≠ r → h'.contents? x = h₂.contents? x

/-- Other objects are untouched or freed. -/
theorem Updated.others (hu : h.Updated r b vs h') (hx : x ≠ r) :
    h'.contents? x = h.contents? x ∨ h'.lookup? x = none := by
  obtain ⟨h₁, h₂, -, hbefore, hrelease, hafter⟩ := hu.steps
  rcases contents?_releaseAll hrelease x with hsame | hgone
  · exact .inl ((hafter x hx).trans (hsame.trans (hbefore x hx)))
  · refine .inr ?_
    have hnone := hafter x hx
    simpa [contents?, hgone] using hnone

/-- The changes may begin where only the object itself is different. -/
theorem Updated.after {h₀ : Heap} (hu : h₀.Updated r b vs h')
    (hx : ∀ x, x ≠ r → h₀.contents? x = h.contents? x) : h.Updated r b vs h' := by
  obtain ⟨h₁, h₂, hb, hbefore, hrelease, hafter⟩ := hu.steps
  exact ⟨hu.contents, h₁, h₂, hb, fun x hne => (hbefore x hne).trans (hx x hne), hrelease, hafter⟩

/-- The contents of an object that is owned are replaced, and what is left over is released. -/
theorem Sound.update {υ : SlotKind → Type} {g : Registry υ} {owned taken : Multiset Handle}
    {b' : Body} (hs : h.Sound g (owned + taken)) (hr : r ∈ owned) (hb : h.body r = .ok b)
    (hbb : b.Becomes h b') (hc : handles b'.children + handles vs = handles b.children + taken) :
    ∃ h₁ h₂, h.setBody r b' = .ok h₁ ∧ h₁.body r = .ok b' ∧ h₁.releaseAll vs = .ok h₂ ∧
      h₂.Sound g owned ∧ h₂.body r = .ok b' := by
  obtain ⟨e, he, rfl⟩ := body_eq_ok.1 hb
  have hset : h.setBody r b' = .ok (h.put r { e with body := b' }) :=
    except_bind_eq_ok.2 ⟨e, entry_eq_ok.2 he, rfl⟩
  have hbody : (h.put r { e with body := b' }).body r = .ok b' :=
    body_eq_ok.2 ⟨{ e with body := b' }, by rw [lookup?_put he, if_pos rfl], rfl⟩
  have hwrite : Moves g (fun _ => True) (h, taken) (h.put r { e with body := b' }, handles vs) :=
    setBody_moves g hb trivial hbb hc hset
  have hs₁ := hs.moves hwrite
  obtain ⟨h₂, hrelease⟩ := hs₁.releaseAll
  have hfree : Moves g (fun _ => False) (_, handles vs) (h₂, 0) := releaseAll_moves g hrelease
  have hs₂ := hs₁.moves hfree
  rw [add_zero] at hs₂
  exact ⟨_, h₂, hset, hbody, hrelease, hs₂, hs₁.stays hfree hr hbody⟩

end Heap

namespace Machine

open Attempt

variable {υ : SlotKind → Type} {α ε : Type} {m : Machine υ} {r : Handle} {a : List DictEntry}
  {k : Key} {key v : Value} {owned : Multiset Handle} {h' : Heap} {shown : String} {e : DictEntry}

theorem run_hashKey_of_hash (hk : (m.heap.hash key).run = .ok (.ok k)) :
    (hashKey key : SlotAction υ Key).run m = .done k m := by
  simp [hashKey, run_readHeap (f := fun h => (h.hash key).run) hk]

theorem run_dictEntries (hb : m.heap.body r = .ok (.dict a)) :
    (dictEntries (.ref r) : Action υ ε (List DictEntry)).run m = .done a m :=
  run_part hb rfl

theorem run_dictToChange (hb : m.heap.body r = .ok (.dict a)) :
    (dictToChange (.ref r) : Action υ ε (Handle × List DictEntry)).run m = .done (r, a) m := by
  obtain ⟨e, he, hbody⟩ := Heap.body_eq_ok.1 hb
  have hentry : m.heap.entry .change r = .ok e := Heap.entry_eq_ok.2 he
  simp [dictToChange, partToChange, run_readHeap (f := (·.entry .change r)) hentry, hbody, Body.dict?]

theorem run_dictGet (hb : m.heap.body r = .ok (.dict a)) (hk : (m.heap.hash key).run = .ok (.ok k))
    (hv : Dict.get? a k = some v) (hr : m.heap.retain v = .ok h') :
    (dictGet (.ref r) key : SlotAction υ Value).run m = .done v { m with heap := h' } := by
  simp [dictGet, run_hashKey_of_hash hk, run_dictEntries hb, hv, retain, changeHeap, hr]

/-- A key that is not there is shown in the exception. -/
theorem run_missingKey (ht : (textOf key : SlotAction υ String).run m = .done shown m) :
    (textOf key >>= fun shown => complain (.missingKey shown) : SlotAction υ α).run m =
      .failed {} { m with pending := ⟨some (.withMessage .keyError shown)⟩ } := by
  rw [run_bind, ht]
  rfl

theorem run_dictGet_missing (hb : m.heap.body r = .ok (.dict a))
    (hk : (m.heap.hash key).run = .ok (.ok k)) (hv : Dict.get? a k = none)
    (ht : (textOf key : SlotAction υ String).run m = .done shown m) :
    (dictGet (.ref r) key : SlotAction υ Value).run m =
      .failed {} { m with pending := ⟨some (.withMessage .keyError shown)⟩ } := by
  rw [dictGet, run_bind, run_hashKey_of_hash hk]
  dsimp only
  rw [run_bind, run_dictEntries hb]
  dsimp only
  rw [hv]
  exact run_missingKey ht

theorem run_dictDel_missing (hb : m.heap.body r = .ok (.dict a))
    (hk : (m.heap.hash key).run = .ok (.ok k)) (hv : Dict.remove? a k = none)
    (ht : (textOf key : SlotAction υ String).run m = .done shown m) :
    (dictDel (.ref r) key : SlotAction υ Unit).run m =
      .failed {} { m with pending := ⟨some (.withMessage .keyError shown)⟩ } := by
  rw [dictDel, run_bind, run_hashKey_of_hash hk]
  dsimp only
  rw [run_bind, run_dictToChange hb]
  dsimp only
  rw [hv]
  exact run_missingKey ht

/-- Deleting a key that is there. -/
theorem run_dictDel (hs : m.heap.Sound m.registry owned) (hr : r ∈ owned)
    (hb : m.heap.body r = .ok (.dict a)) (hd : (a.map (·.hash)).Nodup)
    (hk : (m.heap.hash key).run = .ok (.ok k)) (he : e ∈ a) (hek : e.hash = k) :
    ∃ h', (dictDel (.ref r) key : SlotAction υ Unit).run m = .done () { m with heap := h' } ∧
      m.heap.Updated r (.dict (Dict.discard a k)) [e.key, e.value] h' := by
  have hremove := Dict.remove?_of_mem hd he hek
  have hledger : handles (Body.dict (Dict.discard a k)).children + handles [e.key, e.value] =
      handles (Body.dict a).children + 0 := by
    rw [add_zero]
    exact Dict.handles_remove? hremove
  have hs₀ : m.heap.Sound m.registry (owned + 0) := by rwa [add_zero]
  obtain ⟨h₁, h₂, hset, hb₁, hrelease, hs₂, hb₂⟩ := hs₀.update hr hb (.remove hremove) hledger
  have hpresent : h₂.Present (.ref r) := by
    rintro _ ⟨⟩
    obtain ⟨e₂, he₂, -⟩ := Heap.body_eq_ok.1 hb₂
    exact ⟨e₂, he₂⟩
  obtain ⟨h₃, hshrink⟩ := hpresent.shrink Body.entrySize
  refine ⟨h₃, ?_, ?_, h₁, h₂, hb₁, fun x hx => Heap.contents?_setBody hset hx, hrelease,
    fun x hx => Heap.contents?_shrink hshrink hx⟩
  · simp [dictDel, run_hashKey_of_hash hk, run_dictToChange hb, hremove, changeHeap,
      Machine.releaseAll, hset, hrelease, hshrink]
  · have hs₂' : h₂.Sound m.registry (owned + 0) := by rwa [add_zero]
    exact hs₂'.stays (Heap.shrink_moves m.registry hshrink) hr hb₂

/-- A new key is paid for, if the limit allows it. -/
theorem run_growDict (hs : m.heap.Sound m.registry owned) (hr : r ∈ owned)
    (hgrow : ∃ x, m.heap.meter.grow Body.entrySize = .ok x) :
    ∃ h', (growDict (.ref r) : SlotAction υ Unit).run m = .done () { m with heap := h' } ∧
      m.heap.grow r Body.entrySize = .ok (.ok h') := by
  obtain ⟨⟨charge, meter⟩, hx⟩ := hgrow
  have hpresent : m.heap.Present (.ref r) := hs.present fun r' hr' => by cases hr'; exact hr
  obtain ⟨e, he⟩ := hpresent.entry .grow
  have hdone : m.heap.grow r Body.entrySize =
      .ok (.ok ({ m.heap with meter := meter }.put r { e with charge := e.charge + charge })) := by
    simp only [Heap.grow, hx]
    exact except_bind_eq_ok.2 ⟨e, he, rfl⟩
  exact ⟨_, by simp [growDict, hdone], hdone⟩

/-- Storing, after the entry has been paid for. -/
theorem run_dictStore (hs : m.heap.Sound m.registry owned) (hr : r ∈ owned)
    (hkey : key.Within owned) (hv : v.Within owned) (hb : m.heap.body r = .ok (.dict a))
    (hd : (a.map (·.hash)).Nodup) (hk : (m.heap.hash key).run = .ok (.ok k)) :
    ∃ h', (do
        let key ← retain key
        let v ← retain v
        let (r, entries) ← dictToChange (.ref r)
        let (entries, leftOver) := Dict.insert entries k key v
        changeHeap (·.setBody r (.dict entries))
        releaseAll leftOver : SlotAction υ Unit).run m = .done () { m with heap := h' } ∧
      m.heap.Updated r (.dict (Dict.store a k key v)) (Dict.leftOver a k key) h' := by
  have hs₀ : m.heap.Sound m.registry (owned + 0) := by rwa [add_zero]
  obtain ⟨h₁, hh₁⟩ := (hs.present hkey).retain
  have hm₁ : Heap.Moves m.registry (fun _ => False) (m.heap, 0) (h₁, key.handles) :=
    Heap.retain_moves _ hh₁
  have hs₁ : h₁.Sound m.registry (owned + key.handles + 0) := by
    rw [add_zero]
    exact hs₀.moves hm₁
  obtain ⟨h₂, hh₂⟩ := (hs₁.present ((hv.mono key.handles).mono 0)).retain
  have hm₂ : Heap.Moves m.registry (fun _ => False) (h₁, 0) (h₂, v.handles) :=
    Heap.retain_moves _ hh₂
  have hs₂ := hs₁.moves hm₂
  rw [add_assoc] at hs₂
  have hb₂ : h₂.body r = .ok (.dict a) := by
    rw [Heap.body_retain hh₂, Heap.body_retain hh₁, hb]
  have hk₂ : (h₂.hash key).run = .ok (.ok k) :=
    hs₁.hash_moves hm₂ (hkey.mono key.handles) (hs₀.hash_moves hm₁ hkey hk)
  have hinsert := Dict.insert_eq hd k key v
  have hledger := Dict.handles_insert a k key v
  have hbecomes : (Body.dict a).Becomes h₂ (.dict (Dict.insert a k key v).1) := .insert a v hk₂
  rw [hinsert] at hledger hbecomes
  obtain ⟨h₃, h', hset, hb₃, hrelease, -, hb'⟩ := hs₂.update hr hb₂ hbecomes hledger
  refine ⟨h', ?_, hb', h₃, h', hb₃, fun x hx => ?_, hrelease, fun _ _ => rfl⟩
  · simp [retain, changeHeap, hh₁, hh₂, run_dictToChange (m := { m with heap := h₂ }) hb₂, hinsert,
      Machine.releaseAll, hset, hrelease]
  · rw [Heap.contents?_setBody hset hx, Heap.contents?_retain hh₂, Heap.contents?_retain hh₁]

/-- A key that is there needs no room; a new one must be granted it. -/
theorem run_dictSet (hs : m.heap.Sound m.registry owned) (hr : r ∈ owned) (hkey : key.Within owned)
    (hv : v.Within owned) (hb : m.heap.body r = .ok (.dict a)) (hd : (a.map (·.hash)).Nodup)
    (hk : (m.heap.hash key).run = .ok (.ok k))
    (hgrow : (∀ e ∈ a, e.hash ≠ k) → ∃ x, m.heap.meter.grow Body.entrySize = .ok x) :
    ∃ h', (dictSet (.ref r) key v : SlotAction υ Unit).run m = .done () { m with heap := h' } ∧
      m.heap.Updated r (.dict (Dict.store a k key v)) (Dict.leftOver a k key) h' := by
  by_cases hnew : ∀ e ∈ a, e.hash ≠ k
  · have hnone : (Dict.get? a k).isNone = true := by simp [Dict.get?, Dict.find?_of_forall hnew]
    obtain ⟨h₀, hrun, hgrown⟩ := run_growDict hs hr (hgrow hnew)
    have hm₀ : Heap.Moves m.registry (fun _ => False) (m.heap, 0) (h₀, 0) :=
      Heap.grow_moves _ hgrown
    have hs₀ : m.heap.Sound m.registry (owned + 0) := by rwa [add_zero]
    have hs₁ : h₀.Sound m.registry owned := by
      rw [← add_zero owned]
      exact hs₀.moves hm₀
    have hb₁ : h₀.body r = .ok (.dict a) := (Heap.body_grow hgrown r).trans hb
    have hk₁ : (h₀.hash key).run = .ok (.ok k) := hs₀.hash_moves hm₀ hkey hk
    obtain ⟨h', hstore, hupdated⟩ :=
      run_dictStore (m := { m with heap := h₀ }) hs₁ hr hkey hv hb₁ hd hk₁
    refine ⟨h', ?_, hupdated.after fun x hx => Heap.contents?_grow hgrown hx⟩
    rw [dictSet, run_bind, run_hashKey_of_hash hk]
    dsimp only
    rw [run_bind, run_dictEntries hb]
    dsimp only
    rw [if_pos hnone, run_bind, hrun]
    exact hstore
  · obtain ⟨e, he, hek⟩ : ∃ e ∈ a, e.hash = k := by simpa using hnew
    have hsome : ¬ (Dict.get? a k).isNone = true := by simp [Dict.get?, Dict.find?_of_mem hd he hek]
    obtain ⟨h', hstore, hupdated⟩ := run_dictStore hs hr hkey hv hb hd hk
    refine ⟨h', ?_, hupdated⟩
    rw [dictSet, run_bind, run_hashKey_of_hash hk]
    dsimp only
    rw [run_bind, run_dictEntries hb]
    dsimp only
    rw [if_neg hsome]
    exact hstore

end Machine

namespace Request

open Attempt

variable {υ : SlotKind → Type} {H : Host υ} {m : Machine υ} {r : Handle} {a : List DictEntry}
  {k : Key} {key v : Value} {owned : Multiset Handle} {q : Request υ} {op : Operation}
  {jobs : List SlotKind}

/-- What an access does to an insertion-ordered map. -/
def onMap (a : List DictEntry) (k : Key) : Request υ → List DictEntry
  | set v _ key => Dict.store a k key v
  | del _ _ => Dict.discard a k
  | _ => a

/-- How an access to a dict with the entries `a` ends. Apart from the tracer, which is told of it, it
changes what is stated and nothing else. -/
inductive DictAnswer (m : Machine υ) (r : Handle) (a : List DictEntry) (key : Value) (k : Key) :
    Request υ → Outcome (Machine υ) Failure (List Value) → Prop
  | found {q : Request υ} {op : Operation} {e : DictEntry} {h' : Heap} {tracer : Tracer}
    (hq : q.Reads m (.ref r) key op) (he : e ∈ a) (hk : e.hash = k)
    (hr : m.heap.retain e.value = .ok h') :
    DictAnswer m r a key k q (.done [e.value] { m with heap := h', tracer := tracer })
  | stored {v : Value} {h' : Heap} {tracer : Tracer}
    (hu : m.heap.Updated r (.dict (Dict.store a k key v)) (Dict.leftOver a k key) h') :
    DictAnswer m r a key k (.set v (.ref r) key) (.done [] { m with heap := h', tracer := tracer })
  | deleted {e : DictEntry} {h' : Heap} {tracer : Tracer} (he : e ∈ a) (hk : e.hash = k)
    (hu : m.heap.Updated r (.dict (Dict.discard a k)) [e.key, e.value] h') :
    DictAnswer m r a key k (.del (.ref r) key) (.done [] { m with heap := h', tracer := tracer })
  | missing {q : Request υ} {shown : String} {tracer : Tracer}
    (hq : (∃ op, q.Reads m (.ref r) key op) ∨ q = .del (.ref r) key) (hk : ∀ e ∈ a, e.hash ≠ k)
    (ht : (Machine.textOf key : Action υ Failure String).run m = .done shown m) :
    DictAnswer m r a key k q
      (.failed ⟨.propagated, .withMessage .keyError shown⟩ { m with tracer := tracer })

def dictSlot : Request υ → SlotAction υ (List Value)
  | get obj key | getConst obj key _ => (fun v => [v]) <$> Machine.dictGet obj key
  | set v obj key => (fun _ => []) <$> Machine.dictSet obj key v
  | del obj key => (fun _ => []) <$> Machine.dictDel obj key
  | _ => pure []

theorem Access.run_perform_dict (hq : q.Access (.ref r) key jobs)
    (hs : m.heap.Sound m.registry owned) (hb : m.heap.body r = .ok (.dict a))
    (hlive : ∀ v ∈ q.borrowed, m.heap.Present v) (hquiet : m.pending = {}) :
    ∃ op tracer, (q.perform H).run m =
      ((Machine.settle q.dictSlot).run { m with tracer := tracer }).told op := by
  have hid : m.heap.typeOf (.ref r) = .ok BuiltinKind.dict.typeId := Heap.typeOf_ref hb
  obtain ⟨model, ht⟩ := hs.built.get? .dict
  have hkey : m.heap.Present key := hlive key (by cases hq <;> simp [borrowed])
  obtain ⟨kid, kt, hkid, hkt⟩ := Machine.Typed.of_sound hs hkey
  have hdirect : ¬ m.Direct (.ref r) :=
    Machine.not_direct hb (by simp [Body.kind?]) (by simp [Body.kind?])
  have hperform {m₀ : Machine υ} (hcall : q.Calls H m _ (.ref r) key _ kt q.dictSlot m₀) :=
    hcall.run_told hid ht hkid hkt hlive hquiet
  cases hq with
  | get =>
    have hrun := hperform (.read .get (.byKey rfl (Machine.run_noteDispatch .get .mapping ht)))
    exact ⟨_, _, hrun⟩
  | getConst i =>
    have hrun := hperform
      (.read (.getConst i hdirect) (.byKey rfl (Machine.run_noteDispatch .getConst .mapping ht)))
    exact ⟨_, _, hrun⟩
  | set v =>
    have hrun := hperform (.store (.byKey rfl (Machine.run_noteDispatch .set .mapping ht)))
    exact ⟨_, _, hrun⟩
  | del =>
    have hrun := hperform (.delete (s := .builtin .dictDel) rfl)
    exact ⟨_, _, hrun⟩

theorem dictAnswer_missing {tracer : Tracer} (hs : m.heap.Sound m.registry owned)
    (hquiet : m.pending = {}) (hkey : m.heap.Present key)
    (hq : (∃ op, q.Reads m (.ref r) key op) ∨ q = .del (.ref r) key)
    (hnone : ∀ e ∈ a, e.hash ≠ k)
    (hslot : ∀ shown, (Machine.textOf key : SlotAction υ String).run { m with tracer := tracer } =
      .done shown { m with tracer := tracer } → q.dictSlot.run { m with tracer := tracer } =
        .failed {} { m with tracer := tracer, pending := ⟨some (.withMessage .keyError shown)⟩ })
    (told : Operation) : q.DictAnswer m r a key k
      (((Machine.settle q.dictSlot).run { m with tracer := tracer }).told told) := by
  obtain ⟨shown, ht, ht'⟩ : ∃ shown, (Machine.textOf key : Action υ Failure String).run m =
      .done shown m ∧ ∀ tracer, (Machine.textOf key : SlotAction υ String).run
        { m with tracer := tracer } = .done shown { m with tracer := tracer } :=
    Machine.exists_text hs hkey
  rw [Machine.run_settle_failed (hslot shown (ht' tracer)) (.left _), ← hquiet]
  exact .missing hq hnone ht

theorem dictAnswer_read {tracer : Tracer} (hs : m.heap.Sound m.registry owned)
    (hb : m.heap.body r = .ok (.dict a)) (hd : (a.map (·.hash)).Nodup) (hquiet : m.pending = {})
    (hkey : m.heap.Present key) (hk : (m.heap.hash key).run = .ok (.ok k))
    (hq : q.Reads m (.ref r) key op)
    (hslot : q.dictSlot = (fun v => [v]) <$> Machine.dictGet (.ref r) key) (told : Operation) :
    q.DictAnswer m r a key k
      (((Machine.settle q.dictSlot).run { m with tracer := tracer }).told told) := by
  by_cases hnone : ∀ e ∈ a, e.hash ≠ k
  · apply dictAnswer_missing hs hquiet hkey (.inl ⟨op, hq⟩) hnone
    intro shown ht
    have hget : Dict.get? a k = none := by simp [Dict.get?, Dict.find?_of_forall hnone]
    rw [hslot, run_map,
      Machine.run_dictGet_missing (m := { m with tracer := tracer }) hb hk hget ht]
  · obtain ⟨e, he, hek⟩ : ∃ e ∈ a, e.hash = k := by simpa using hnone
    have hvalue : e.value ∈ (Body.dict a).children := List.mem_flatMap.2 ⟨e, he, by simp⟩
    have hget : Dict.get? a k = some e.value := by simp [Dict.get?, Dict.find?_of_mem hd he hek]
    obtain ⟨h', hr⟩ := (hs.child hb hvalue).retain
    have hrun : q.dictSlot.run { m with tracer := tracer } =
        .done [e.value] { m with tracer := tracer, heap := h' } := by
      rw [hslot, run_map, Machine.run_dictGet (m := { m with tracer := tracer }) hb hk hget hr]
    rw [Machine.run_settle_done hrun]
    exact .found hq he hek hr

theorem dictAnswer_set {tracer : Tracer} (hs : m.heap.Sound m.registry owned) (hr : r ∈ owned)
    (hkey : key.Within owned) (hv : v.Within owned) (hb : m.heap.body r = .ok (.dict a))
    (hd : (a.map (·.hash)).Nodup) (hk : (m.heap.hash key).run = .ok (.ok k))
    (hroom : a.length < (Dict.store a k key v).length →
      ∃ x, m.heap.meter.grow Body.entrySize = .ok x) (told : Operation) :
    (Request.set v (.ref r) key).DictAnswer m r a key k
      (((Machine.settle (Request.set v (.ref r) key).dictSlot).run
        { m with tracer := tracer }).told told) := by
  have hgrow (hnone : ∀ e ∈ a, e.hash ≠ k) : ∃ x, m.heap.meter.grow Body.entrySize = .ok x := by
    apply hroom
    have hk : k ∉ a.map (·.hash) := by simpa using hnone
    simp [Dict.store, hk]
  obtain ⟨h', hrun, hu⟩ :=
    Machine.run_dictSet (m := { m with tracer := tracer }) hs hr hkey hv hb hd hk hgrow
  have hrun' : (Request.set v (.ref r) key).dictSlot.run { m with tracer := tracer } =
      .done [] { m with tracer := tracer, heap := h' } := by
    rw [dictSlot, run_map, hrun]
  rw [Machine.run_settle_done hrun']
  exact .stored hu

theorem dictAnswer_del {tracer : Tracer} (hs : m.heap.Sound m.registry owned) (hr : r ∈ owned)
    (hkey : m.heap.Present key) (hb : m.heap.body r = .ok (.dict a)) (hd : (a.map (·.hash)).Nodup)
    (hquiet : m.pending = {}) (hk : (m.heap.hash key).run = .ok (.ok k)) (told : Operation) :
    (Request.del (.ref r) key).DictAnswer m r a key k
      (((Machine.settle (Request.del (.ref r) key).dictSlot).run
        { m with tracer := tracer }).told told) := by
  by_cases hnone : ∀ e ∈ a, e.hash ≠ k
  · apply dictAnswer_missing hs hquiet hkey (.inr rfl) hnone
    intro shown ht
    have hremove : Dict.remove? a k = none := by simp [Dict.remove?, Dict.find?_of_forall hnone]
    rw [dictSlot, run_map,
      Machine.run_dictDel_missing (m := { m with tracer := tracer }) hb hk hremove ht]
  · obtain ⟨e, he, hek⟩ : ∃ e ∈ a, e.hash = k := by simpa using hnone
    obtain ⟨h', hrun, hu⟩ :=
      Machine.run_dictDel (m := { m with tracer := tracer }) hs hr hb hd hk he hek
    have hrun' : (Request.del (.ref r) key).dictSlot.run { m with tracer := tracer } =
        .done [] { m with tracer := tracer, heap := h' } := by
      rw [dictSlot, run_map, hrun]
    rw [Machine.run_settle_done hrun']
    exact .deleted he hek hu

/-- An access to a dict by one who owns the operands, with a key that has a hash, and with room for a
new entry if it needs one. -/
theorem Access.dictAnswer (hq : q.Access (.ref r) key jobs) (hs : m.heap.Sound m.registry owned)
    (hb : m.heap.body r = .ok (.dict a)) (hd : (a.map (·.hash)).Nodup)
    (hborrowed : ∀ v ∈ q.borrowed, v.Within owned) (hquiet : m.pending = {})
    (hk : (m.heap.hash key).run = .ok (.ok k))
    (hroom : a.length < (q.onMap a k).length → ∃ x, m.heap.meter.grow Body.entrySize = .ok x) :
    q.DictAnswer m r a key k ((q.perform H).run m) := by
  have hlive (v : Value) (hv : v ∈ q.borrowed) : m.heap.Present v := hs.present (hborrowed v hv)
  have hr : r ∈ owned := hborrowed (.ref r) (by cases hq <;> simp [borrowed]) r rfl
  have hkey : key.Within owned := hborrowed key (by cases hq <;> simp [borrowed])
  have hdirect : ¬ m.Direct (.ref r) :=
    Machine.not_direct hb (by simp [Body.kind?]) (by simp [Body.kind?])
  obtain ⟨op, tracer, hrun⟩ := hq.run_perform_dict (H := H) hs hb hlive hquiet
  rw [hrun]
  cases hq with
  | get => exact dictAnswer_read hs hb hd hquiet (hs.present hkey) hk .get rfl op
  | getConst i =>
    exact dictAnswer_read hs hb hd hquiet (hs.present hkey) hk (.getConst i hdirect) rfl op
  | set v =>
    exact dictAnswer_set hs hr hkey (hborrowed v (by simp [borrowed])) hb hd hk hroom op
  | del => exact dictAnswer_del hs hr (hs.present hkey) hb hd hquiet hk op

end Request

end ItemAccess
