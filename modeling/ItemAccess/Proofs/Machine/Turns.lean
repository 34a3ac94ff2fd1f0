import ItemAccess.Proofs.Client
import ItemAccess.Proofs.Machine.Likeness
import ItemAccess.Proofs.Store.Metering

/-!
# The machine changes the store by turns

The operations of the machine that change the store do so by turns and change nothing else, or they fail
and only leave an exception behind. So what holds of a machine is an invariant of its accesses if turns keep
it and if it comes back when the exception is taken away. In particular the store changes by turns whatever
is asked of the machine, and with whatever handles, provided that the slots of the host change it by turns.
-/

namespace ItemAccess

open Attempt

variable {υ : SlotKind → Type} {α β ε : Type} {H : Host υ}

/-- Every slot of the host is such a computation. Lengths are only read. -/
structure Host.All (P : ∀ {α : Type}, SlotAction υ α → Prop) (H : Host υ) : Prop where
  get : ∀ u obj key, P (H.get u obj key)
  set : ∀ u obj key v, P (H.set u obj key v)
  del : ∀ u obj key, P (H.del u obj key)
  getAt : ∀ u obj i, P (H.getAt u obj i)
  setAt : ∀ u obj i v, P (H.setAt u obj i v)
  asIndex : ∀ u obj, P (H.asIndex u obj)

namespace Machine

variable {m : Machine υ}

def Turned (m m' : Machine υ) : Prop :=
  ∃ h, m.heap.Turns h ∧ m' = { m with heap := h }

/-- The computation changes the store by turns if it is done; if it fails, it leaves an exception. -/
def Turns (a : SlotAction υ α) : Prop :=
  ∀ m, a.Ends m False (fun _ m' => m.Turned m') fun _ m' =>
    ∃ e, m' = { m with pending := m.pending.record e }

theorem retain_ends_turned {Q : ε → Machine υ → Prop} (v : Value) :
    (retain v : Action υ ε Value).Ends m False (fun _ m' => m.Turned m') Q :=
  retain_ends False.elim fun _ hr => ⟨_, .single (.retain hr), rfl⟩

theorem releaseAll_ends_turned {Q : ε → Machine υ → Prop} (vs : List Value) :
    (releaseAll vs : Action υ ε Unit).Ends m False (fun _ m' => m.Turned m') Q :=
  changeHeap_ends False.elim fun _ hr => ⟨_, .single (.release hr), rfl⟩

theorem byteString_ends_turned (b : UInt8) :
    (byteString b).Ends m False (fun _ m' => m.Turned m') fun _ m' => m' = m := by
  simp only [byteString, ends_bind, ends_get]
  apply ends_liftM False.elim
  intro x hx
  cases x with
  | error e => rfl
  | ok p => exact ⟨_, .single (.byteString hx), rfl⟩

theorem allocate_ends_turned (b : Body) :
    (allocate b).Ends m False (fun _ m' => m.Turned m') fun _ m' => m' = m := by
  simp only [allocate, ends_bind, ends_get]
  apply ends_liftM False.elim
  intro x hx
  cases x with
  | error e => rfl
  | ok p => exact ⟨_, .single (.allocate hx), rfl⟩

/-- An item is stored in the place of another: the size of the list stays. -/
theorem storeItem_turns (obj : Value) (p : Nat) (v : Value) :
    Turns (storeItem obj p v : SlotAction υ Unit) := by
  intro m
  simp only [storeItem, ends_bind]
  apply retain_ends False.elim
  intro h₁ hretain
  apply partToChange_ends list?_eq_some False.elim
  intro r items _ hb
  apply ends_liftM False.elim
  intro old _
  apply changeHeap_ends False.elim
  intro h₂ hset
  apply changeHeap_ends False.elim
  intro h₃ hrelease
  have hsize : (Body.list (items.set p v)).size = (Body.list items).size := by simp [Body.size]
  have hturns : m.heap.Turns h₂ :=
    (Relation.ReflTransGen.single (.retain hretain)).tail (.exchange hb hsize hset)
  exact ⟨h₃, hturns.tail (.release hrelease), rfl⟩

/-- A list without one of its items is smaller by the size of an item. -/
theorem removeItem_turns (obj : Value) (p : Nat) : Turns (removeItem obj p : SlotAction υ Unit) := by
  intro m
  simp only [removeItem, ends_bind]
  apply partToChange_ends list?_eq_some False.elim
  intro r items _ hb
  apply ends_liftM False.elim
  intro removed hremoved
  apply changeHeap_ends False.elim
  intro h₁ hset
  apply changeHeap_ends False.elim
  intro h₂ hrelease
  apply changeHeap_ends False.elim
  intro h₃ hshrink
  have hp := (List.getElem?_eq_some_iff.1 (removalAt_eq_ok.1 hremoved)).1
  exact ⟨h₃, .single (.curtail hb (Body.size_eraseIdx hp) hset hrelease hshrink), rfl⟩

/-- A dict is charged for a new key before it gets it; otherwise its size stays. -/
theorem dictSet_turns (obj key v : Value) : Turns (dictSet obj key v : SlotAction υ Unit) := by
  intro m
  rw [dictSet, ends_bind]
  apply hashKey_ends False.elim False.elim
  · intro k _
    rw [ends_bind]
    apply part_ends dict?_eq_some False.elim
    rintro r entries rfl hb
    by_cases hnew : (Dict.get? entries k).isNone = true
    · rw [if_pos hnew, ends_bind]
      apply growDict_ends False.elim
      · intro h₀ hgrow
        apply dictStore_ends (m := { m with heap := h₀ }) (by rw [Heap.body_grow hgrow, hb])
        intro h₁ h₂ h₃ h₄ hkey hv hset hrelease
        have hsize : (Body.dict (Dict.insert entries k key v).1).size =
            (Body.dict entries).size + Body.entrySize := by
          simp only [Dict.insert_of_isNone hnew, Body.size, List.length_append, List.length_singleton,
            Nat.succ_mul]
          omega
        have hturns : m.heap.Turns h₃ := .single (.enlarge hb hsize hgrow hkey hv hset)
        exact ⟨h₄, hturns.tail (.release hrelease), rfl⟩
      · exact fun _ => ⟨_, rfl⟩
    · rw [if_neg hnew]
      apply dictStore_ends hb
      intro h₁ h₂ h₃ h₄ hkey hv hset hrelease
      have hb₂ : h₂.body r = .ok (.dict entries) := by
        rw [Heap.body_retain hv, Heap.body_retain hkey, hb]
      have hsize : (Body.dict (Dict.insert entries k key v).1).size = (Body.dict entries).size := by
        simp only [Body.size, Dict.length_insert hnew]
      have hretained : m.heap.Turns h₂ :=
        (Relation.ReflTransGen.single (.retain hkey)).tail (.retain hv)
      exact ⟨h₄, (hretained.tail (.exchange hb₂ hsize hset)).tail (.release hrelease), rfl⟩
  · exact fun e => ⟨e, rfl⟩

theorem dictDel_turns (obj key : Value) : Turns (dictDel obj key : SlotAction υ Unit) := by
  intro m
  rw [dictDel, ends_bind]
  apply hashKey_ends False.elim False.elim
  · intro k _
    rw [ends_bind]
    apply partToChange_ends dict?_eq_some False.elim
    intro r entries _ hb
    cases hremove : Dict.remove? entries k with
    | none =>
      simp only [hremove, ends_bind, ends_complain]
      exact textOf_ends (fun h => (h.elim : m.heap.Sound m.registry 0)) False.elim fun _ => ⟨_, rfl⟩
    | some p =>
      obtain ⟨e, rest⟩ := p
      simp only [hremove, ends_bind]
      apply changeHeap_ends False.elim
      intro h₁ hset
      apply changeHeap_ends False.elim
      intro h₂ hrelease
      apply changeHeap_ends False.elim
      intro h₃ hshrink
      have hsize : (Body.dict entries).size = (Body.dict rest).size + Body.entrySize := by
        simp only [Body.size, Dict.length_remove? hremove, Nat.succ_mul]
        omega
      exact ⟨h₃, .single (.curtail hb hsize hset hrelease hshrink), rfl⟩
  · exact fun e => ⟨e, rfl⟩

theorem setField_ends_turned {Q : ε → Machine υ → Prop} (obj : Value) (i : Nat) (v : Value) :
    (setField obj i v : Action υ ε Bool).Ends m False (fun _ m' => m.Turned m') Q := by
  cases obj with
  | ref r =>
    simp only [setField, ends_bind]
    apply retain_ends False.elim
    intro h₁ hretain
    have hretained : m.heap.Turns h₁ := .single (.retain hretain)
    have hback (b : Bool) : (do release v; return b : Action υ ε Bool).Ends { m with heap := h₁ } False
        (fun _ m' => m.Turned m') Q := by
      simp only [ends_bind, ends_pure]
      exact changeHeap_ends False.elim fun h₂ hrelease => ⟨h₂, hretained.tail (.release hrelease), rfl⟩
    apply readHeap_ends False.elim
    intro e he
    have hb := Heap.body_of_lookup? (Heap.entry_eq_ok.1 he)
    cases hbody : e.body with
    | inst type fields =>
      dsimp only
      cases hold : fields[i]? with
      | none => exact hback false
      | some old =>
        simp only [ends_bind, ends_pure]
        apply changeHeap_ends False.elim
        intro h₂ hset
        apply changeHeap_ends False.elim
        intro h₃ hrelease
        have hsize : (Body.inst type (fields.set i v)).size = e.body.size := by
          simp [hbody, Body.size]
        exact ⟨h₃, (hretained.tail (.exchange hb hsize hset)).tail (.release hrelease), rfl⟩
    | _ => exact hback false
  | _ => exact ⟨m.heap, .refl, rfl⟩

/-- What turns of the store keep, and what comes back when the exception is taken that a failing slot has
left. After the failure `raised` holds instead. -/
structure Invariant (calm raised : Machine υ → Prop) : Prop where
  turned : ∀ {m m'}, calm m → m.Turned m' → calm m'
  record : ∀ {m} (e : Exception), calm m → raised { m with pending := m.pending.record e }
  settle : ∀ {m}, raised m → calm { m with pending := m.pending.settle.2 }

end Machine

open Machine

def Likeness.ofInvariant (calm raised : Machine υ → Prop) : Likeness υ where
  calm := Same calm
  raised := Same raised
  number := id
  faults := Eq
  plain := fun _ _ => True

section

variable {calm raised : Machine υ → Prop} {S : Machine υ → Machine υ → Prop} {a : Action υ ε α}

theorem Likeness.keeps_of_ends
    (ha : ∀ m, calm m → a.Ends m False (fun _ m' => calm m') fun _ m' => S m' m') :
    (Likeness.ofInvariant calm raised).Keeps S a :=
  Relates.of_ends (fun _ => rfl) ha

theorem Machine.Invariant.keeps_of_turns (hI : Invariant calm raised) {a : SlotAction υ α} (ha : Turns a) :
    (Likeness.ofInvariant calm raised).Keeps (Same raised) a := by
  apply Likeness.keeps_of_ends
  intro m hm
  apply (ha m).mono
  · exact fun _ _ h => hI.turned hm h
  · rintro _ _ ⟨e, rfl⟩
    exact ⟨rfl, hI.record e hm⟩

theorem Machine.Invariant.lawful (hI : Invariant calm raised) :
    (Likeness.ofInvariant calm raised).Lawful where
  refl _ := rfl
  builtin _ := rfl
  heap := by
    rintro _ m ⟨rfl, -⟩
    exact m.heap.retype_id.symm
  types := by
    rintro _ m ⟨rfl, -⟩ id
    rfl
  noType := by
    rintro _ m ⟨rfl, -⟩ id
    rfl
  plain := fun _ _ _ _ _ _ _ => trivial
  textModel := by
    rintro _ m ⟨rfl, -⟩
    rfl
  isSet := by
    rintro _ m ⟨rfl, -⟩
    rfl
  record := by
    rintro _ m e ⟨rfl, hm⟩
    exact ⟨rfl, hI.record e hm⟩
  settle := by
    rintro _ m ⟨rfl, hm⟩
    exact ⟨rfl, rfl, hI.settle hm⟩
  retain v := Likeness.keeps_of_ends fun _ hm =>
    (retain_ends_turned v).mono (fun _ _ h => hI.turned hm h) fun _ _ => False.elim
  releaseAll vs := Likeness.keeps_of_ends fun _ hm =>
    (releaseAll_ends_turned vs).mono (fun _ _ h => hI.turned hm h) fun _ _ => False.elim
  byteString b := Likeness.keeps_of_ends fun _ hm => by
    apply (byteString_ends_turned b).mono
    · exact fun _ _ h => hI.turned hm h
    · rintro _ _ rfl
      exact ⟨rfl, hm⟩
  storeItem obj p v := hI.keeps_of_turns (storeItem_turns obj p v)
  removeItem obj p := hI.keeps_of_turns (removeItem_turns obj p)
  dictSet obj key v := hI.keeps_of_turns (dictSet_turns obj key v)
  dictDel obj key := hI.keeps_of_turns (dictDel_turns obj key)

theorem Host.All.respects {P : ∀ {α : Type}, SlotAction υ α → Prop} (hH : H.All P)
    (hP : ∀ {α : Type} {a : SlotAction υ α}, P a → ∀ m, calm m →
      a.Ends m False (fun _ m' => calm m') fun _ m' => raised m') :
    H.Respects (Likeness.ofInvariant calm raised) := by
  have hkeeps {α : Type} {a : SlotAction υ α} (ha : P a) :
      (Likeness.ofInvariant calm raised).Keeps (Same raised) a :=
    Likeness.keeps_of_ends fun m hm => (hP ha m hm).mono (fun _ _ h => h) fun _ _ h => ⟨rfl, h⟩
  exact
    { get := fun u _ obj key => hkeeps (hH.get u obj key)
      set := fun u _ obj key v => hkeeps (hH.set u obj key v)
      del := fun u _ obj key => hkeeps (hH.del u obj key)
      getAt := fun u _ obj i => hkeeps (hH.getAt u obj i)
      setAt := fun u _ obj i v => hkeeps (hH.setAt u obj i v)
      length := by
        rintro u _ obj _ m ⟨rfl, -⟩
        rfl
      asIndex := fun u _ obj => hkeeps (hH.asIndex u obj) }

end

def Machine.Turning (a : Action υ ε α) : Prop :=
  ∀ m, a.Ends m False (fun _ m' => m.heap.Turns m'.heap) fun _ m' => m.heap.Turns m'.heap

abbrev Host.Turning (H : Host υ) : Prop :=
  H.All Machine.Turning

namespace Likeness

variable {h : Heap}

abbrev turnedFrom (h : Heap) : Likeness υ :=
  .ofInvariant (fun m => h.Turns m.heap) fun m => h.Turns m.heap

theorem turnedFrom_invariant (h : Heap) :
    Invariant (fun m : Machine υ => h.Turns m.heap) fun m => h.Turns m.heap := by
  constructor
  · rintro m _ hm ⟨h', hturns, rfl⟩
    exact hm.trans hturns
  · exact fun _ hm => hm
  · exact fun hm => hm

theorem turnedFrom_lawful (h : Heap) : (turnedFrom h : Likeness υ).Lawful :=
  (turnedFrom_invariant h).lawful

theorem turnedFrom_hears (h : Heap) : (turnedFrom h : Likeness υ).Hears := by
  rintro _ m e ⟨rfl, hm⟩
  exact ⟨rfl, hm⟩

theorem turnedFrom_allocate (b : Body) :
    (turnedFrom h : Likeness υ).Keeps (turnedFrom h).calm (allocate b) := by
  apply keeps_of_ends
  intro m hm
  apply (allocate_ends_turned b).mono
  · exact fun _ _ hturned => (turnedFrom_invariant h).turned hm hturned
  · rintro _ _ rfl
    exact ⟨rfl, hm⟩

theorem turnedFrom_setField {S : Machine υ → Machine υ → Prop} (obj : Value) (i : Nat)
    (v : Value) : (turnedFrom h).Keeps S (setField obj i v : Action υ ε Bool) :=
  keeps_of_ends fun _ hm => (setField_ends_turned obj i v).mono
    (fun _ _ hturned => (turnedFrom_invariant h).turned hm hturned) fun _ _ => False.elim

theorem turnedFrom_ample (h : Heap) : (turnedFrom h : Likeness υ).Ample where
  toLawful := turnedFrom_lawful h
  hears := turnedFrom_hears h
  raised_iff := .rfl
  pending := by
    rintro _ m f ⟨rfl, hm⟩
    exact ⟨rfl, hm⟩
  allocate b _ := turnedFrom_allocate b
  setField := turnedFrom_setField

theorem turnedFrom_fillDict (entries : List DictEntry) (pairs : List (Value × Value)) :
    (turnedFrom h : Likeness υ).Keeps (turnedFrom h).calm (fillDict entries pairs) := by
  have hL := turnedFrom_lawful (υ := υ) h
  induction pairs generalizing entries with
  | nil => exact Keeps.pure entries
  | cons pair rest ih =>
    apply Keeps.bind (keeps_of_ends fun _ hm => readHeap_ends False.elim fun _ _ => hm)
    intro x
    cases x with
    | ok k => exact Keeps.bind (hL.releaseAll _) fun _ => ih _
    | error type =>
      exact Keeps.bind (hL.typeName type) fun _ => .bind (hL.releaseAll _) fun _ => .throw _

theorem turnedFrom_newInstance (type : TypeId) (fields : List Value) :
    (turnedFrom h : Likeness υ).Keeps (turnedFrom h).calm (newInstance type fields) := by
  have hL := turnedFrom_lawful (υ := υ) h
  apply Relates.ask
  rintro _ m ⟨rfl, hm⟩
  have hback (c : Complaint) : (turnedFrom h : Likeness υ).Keeps (turnedFrom h).calm
      (do releaseAll fields; refuse c : Action υ Failure Value) :=
    Keeps.bind (hL.releaseAll fields) fun _ => .throw _
  cases m.registry.get? type with
  | none => exact hback _ m m ⟨rfl, hm⟩
  | some t => exact Keeps.ite (hback _) (turnedFrom_allocate _) m m ⟨rfl, hm⟩

end Likeness

theorem Host.Turning.respects (hH : H.Turning) (h : Heap) : H.Respects (.turnedFrom h) :=
  Host.All.respects hH fun ha m hm =>
    (ha m).mono (fun _ _ hturns => hm.trans hturns) fun _ _ hturns => hm.trans hturns

/-- Every request changes the store by turns, whatever handles it is given. -/
theorem Request.perform_turning (hH : H.Turning) (q : Request υ) : Turning (q.perform H) := by
  intro m
  have hA := Likeness.turnedFrom_ample (υ := υ) m.heap
  have hL := hA.toLawful
  have hR := hH.respects m.heap
  have hnote := hA.hears
  have hkeeps : (Likeness.turnedFrom m.heap).Keeps (Likeness.turnedFrom m.heap).calm (q.perform H) := by
    cases q with
    | newList items => exact .bind (Likeness.turnedFrom_allocate _) fun _ => .pure _
    | newTuple items => exact .bind (Likeness.turnedFrom_allocate _) fun _ => .pure _
    | newDict pairs =>
      exact .bind (.bind (Likeness.turnedFrom_fillDict [] pairs) fun _ =>
        Likeness.turnedFrom_allocate _) fun _ => .pure _
    | newInstance type fields =>
      exact .bind (Likeness.turnedFrom_newInstance type fields) fun _ => .pure _
    | newBytes data => exact .bind (hA.newBytes data) fun _ => .pure _
    | newInt n => exact .bind (hA.newInt n) fun _ => .pure _
    | clone v => exact .bind (hL.retain v) fun _ => .pure _
    | drop v => exact .bind (hL.release v) fun _ => .pure _
    | get source key => exact .bind (hL.getItem hR hnote source key) fun _ => .pure _
    | getConst source key i => exact .bind (hL.getItemConst hR hnote source key i) fun _ => .pure _
    | set v target key => exact .bind (hL.setItem hR hnote v target key) fun _ => .pure _
    | del target key => exact .bind (hL.delItem hR hnote target key) fun _ => .pure _
    | field obj i => exact .bind (hL.field obj i) fun _ => .pure _
    | setField obj i v => exact .bind (hA.setField obj i v) fun _ => .pure _
    | register spec => exact .bind (Likeness.keeps_of_ends fun _ hm => hm) fun _ => .pure _
    | typeObject id => exact Relates.bind (hL.typeObject id) fun _ _ _ => Likeness.Keeps.pure _
    | typeOf v => exact Relates.bind (hL.typeOf v) fun _ _ _ => Likeness.Keeps.pure _
    | nameOfType v => exact .bind (hL.nameOfType v) fun _ => .pure _
    | text v => exact .bind (hL.textOf v) fun _ => .pure _
    | bytesOf v => exact .bind (hL.bytesOf v) fun _ => .pure _
    | raise e => exact .bind (Likeness.keeps_of_ends fun _ hm => hm) fun _ => .pure _
    | fetch => exact .bind (Likeness.keeps_of_ends fun _ hm => hm) fun _ => .pure _
    | trace t => exact .bind (Likeness.keeps_of_ends fun _ hm => hm) fun _ => .pure _
  exact Relates.ends hkeeps .refl

end ItemAccess
