import ItemAccess.Proofs.Store.Moves
import ItemAccess.Store.Hash
import Mathlib.Order.WellFounded

/-!
# Tuples are nested finitely deep

A tuple is made of values that are there before it and never changes. No tuple therefore holds itself
through tuples, although slots are used again, and the walk that gives a tuple its key comes to an end
within as many steps as there are slots.
-/

namespace ItemAccess.Heap

variable {υ : SlotKind → Type} {g : Registry υ} {writes : Handle → Prop} {h h' : Heap}
  {r s t : Handle} {e e' : Entry} {v : Value} {owned taken given : Multiset Handle}

def Nests (h : Heap) (s r : Handle) : Prop :=
  ∃ e items, h.lookup? r = some e ∧ e.body = .tuple items ∧ .ref s ∈ items

/-- No way from tuple to item goes on for ever. -/
def Grounded (h : Heap) : Prop := WellFounded h.Nests

def Closed (h : Heap) : Prop :=
  ∀ r e, h.lookup? r = some e → ∀ v ∈ e.body.children, h.Present v

theorem Accounted.closed (ha : h.Accounted owned) : h.Closed := by
  rintro r e he v hv s rfl
  exact ha.exists_of_stored he hv

theorem Body.Becomes.eq_tuple {b : Body} {items : List Value} (hb : b.Becomes h (.tuple items)) :
    b = .tuple items := by
  cases hb
  rfl

/-- What a tuple of the new store holds was there before: the tuple is an old one, or it was made of
values that were owned. -/
theorem Move.grounded (hm : Move g writes h taken given h') (ha : h.Accounted (owned + taken))
    (hg : h.Grounded) : h'.Grounded := by
  have hold (r : Handle) (hr : ∃ e, h.lookup? r = some e) : Acc h'.Nests r := by
    induction r using hg.induction with
    | _ r ih =>
      refine ⟨r, fun s hs => ?_⟩
      obtain ⟨e, he⟩ := hr
      obtain ⟨e', items, he', hbody, hmem⟩ := hs
      have hc := hm.slotChange ha.free r
      rw [he, he'] at hc
      cases hc with
      | kept hb _ =>
        have htuple := Body.Becomes.eq_tuple (hbody ▸ hb)
        refine ih s ⟨e, items, he, htuple, hmem⟩ ?_
        exact ha.closed r e he (.ref s) (by rw [htuple]; exact hmem) s rfl
  refine ⟨fun r => ?_⟩
  cases he : h.lookup? r with
  | some e => exact hold r ⟨e, he⟩
  | none =>
    refine ⟨r, fun s hs => hold s ?_⟩
    obtain ⟨e', items, he', hbody, hmem⟩ := hs
    have hc := hm.slotChange ha.free r
    rw [he, he'] at hc
    cases hc with
    | made _ ht _ =>
      refine ha.exists_of_owned (Multiset.mem_add.2 (.inr ?_))
      rw [ht, mem_handles, hbody]
      exact hmem

/-- There are no more handles in use than slots. -/
theorem length_le_size {path : List Handle} (hnodup : path.Nodup)
    (hlive : ∀ r ∈ path, ∃ e, h.lookup? r = some e) : path.length ≤ h.slots.size := by
  have hindex : (path.map Handle.index).Nodup :=
    hnodup.map fun _ _ => Handle.index_inj.1
  have hsub : path.map Handle.index ⊆ List.range h.slots.size := by
    intro i hi
    obtain ⟨r, hr, rfl⟩ := List.mem_map.1 hi
    obtain ⟨e, he⟩ := hlive r hr
    exact List.mem_range.2 (Array.getElem?_eq_some_iff.1 (lookup?_eq_some.1 he)).1
  simpa using (List.subperm_of_subset hindex hsub).length_le

theorem run_mapM_cons {α β ε : Type} (f : α → ExceptT ε (Except Fault) β) (a : α) (l : List α) :
    ((a :: l).mapM f).run =
      match (f a).run with
      | .error k => .error k
      | .ok (.error e) => .ok (.error e)
      | .ok (.ok b) => (l.mapM f).run.map fun y => y.map (b :: ·) := by
  rw [List.mapM_cons, ExceptT.run_bind]
  cases (f a).run with
  | error k => rfl
  | ok x =>
    cases x with
    | error e => rfl
    | ok b =>
      change (l.mapM f >>= fun bs => pure (b :: bs)).run = _
      rw [ExceptT.run_bind]
      cases (l.mapM f).run with
      | error k => rfl
      | ok y => cases y <;> rfl

theorem mapM_run_ok {α β ε : Type} {f : α → ExceptT ε (Except Fault) β} {l : List α}
    (hf : ∀ a ∈ l, ∃ x, (f a).run = .ok x) : ∃ x, (l.mapM f).run = .ok x := by
  induction l with
  | nil => exact ⟨.ok [], rfl⟩
  | cons a l ih =>
    obtain ⟨x, hx⟩ := hf a (by simp)
    obtain ⟨y, hy⟩ := ih fun b hb => hf b (by simp [hb])
    rw [run_mapM_cons, hx, hy]
    cases x with
    | error e => exact ⟨.error e, rfl⟩
    | ok b => exact ⟨y.map (b :: ·), rfl⟩

theorem hashWithin_ref (depth : Nat) {b : Body} : h.body r = .ok b →
    h.hashWithin (depth + 1) (.ref r) =
      match b with
      | .bytes data => return .bytes data
      | .bigInt n => return .bigInt n
      | .tuple items => return .tuple (← items.mapM (h.hashWithin depth))
      | .inst _ _ => return .identity r
      | b => throw b.typeId := by
  intro hb
  rw [hashWithin, hb]
  cases b <;> rfl

/-- The walk has come down `path`, whose tuples all hold the value through tuples; so they differ,
and there are steps left. -/
theorem hashWithin_ok (hg : h.Grounded) (hc : h.Closed) {depth : Nat} {path : List Handle}
    (hnodup : path.Nodup) (hlive : ∀ p ∈ path, ∃ e, h.lookup? p = some e)
    (hdepth : path.length + depth = h.slots.size + 1) (hv : h.Present v)
    (hpath : ∀ r, v = .ref r → ∀ p ∈ path, Relation.TransGen h.Nests r p) :
    ∃ x, (h.hashWithin depth v).run = .ok x := by
  induction depth generalizing path v with
  | zero =>
    have := length_le_size hnodup hlive
    omega
  | succ depth ih =>
    cases v with
    | none => exact ⟨_, rfl⟩
    | bool b => exact ⟨_, rfl⟩
    | int i => exact ⟨_, rfl⟩
    | float x => exact ⟨_, rfl⟩
    | ref r =>
      obtain ⟨e, he⟩ := hv r rfl
      rw [hashWithin_ref depth (body_of_lookup? he)]
      cases hb : e.body with
      | tuple items =>
        have hr : r ∉ path := fun hr => hg.transGen.irrefl.irrefl r (hpath r rfl r hr)
        have hitems : ∀ v ∈ items, ∃ x, (h.hashWithin depth v).run = .ok x := by
          intro v hv
          have hpresent : h.Present v := hc r e he v (by rw [hb]; exact hv)
          refine ih (List.nodup_cons.2 ⟨hr, hnodup⟩) ?_ ?_ hpresent ?_
          · exact List.forall_mem_cons.2 ⟨⟨e, he⟩, hlive⟩
          · simp only [List.length_cons]
            omega
          · rintro s rfl
            have hs : Relation.TransGen h.Nests s r := .single ⟨e, items, he, hb, hv⟩
            exact List.forall_mem_cons.2 ⟨hs, fun p hp => hs.trans (hpath r rfl p hp)⟩
        obtain ⟨x, hx⟩ := mapM_run_ok hitems
        simp only [ExceptT.run_bind, hx]
        cases x <;> exact ⟨_, rfl⟩
      | _ => exact ⟨_, rfl⟩

theorem exists_of_mapM_error {α β ε : Type} {f : α → ExceptT ε (Except Fault) β} {l : List α} {x : ε}
    (hl : (l.mapM f).run = .ok (.error x)) : ∃ a ∈ l, (f a).run = .ok (.error x) := by
  induction l with
  | nil => cases hl
  | cons a l ih =>
    rw [run_mapM_cons] at hl
    cases ha : (f a).run with
    | error k =>
      rw [ha] at hl
      cases hl
    | ok y =>
      rw [ha] at hl
      cases y with
      | error e =>
        cases hl
        exact ⟨a, by simp, ha⟩
      | ok b =>
        obtain ⟨z, hz, hzx⟩ := except_map_eq_ok.1 hl
        cases z with
        | error e =>
          cases hzx
          obtain ⟨c, hc, hx⟩ := ih hz
          exact ⟨c, by simp [hc], hx⟩
        | ok bs => cases hzx

/-- What keeps a value from having a key is a list or a dict. -/
theorem hashWithin_error {depth : Nat} {id : TypeId}
    (hid : (h.hashWithin depth v).run = .ok (.error id)) :
    id = BuiltinKind.list.typeId ∨ id = BuiltinKind.dict.typeId := by
  induction depth generalizing v with
  | zero => cases hid
  | succ depth ih =>
    cases v with
    | ref r =>
      cases hb : h.body r with
      | error f =>
        rw [hashWithin, hb] at hid
        cases hid
      | ok b =>
        rw [hashWithin_ref depth hb] at hid
        cases b with
        | tuple items =>
          simp only [ExceptT.run_bind] at hid
          obtain ⟨y, hy, hnext⟩ := except_bind_eq_ok.1 hid
          cases y with
          | error e =>
            cases hnext
            obtain ⟨w, -, hw⟩ := exists_of_mapM_error hy
            exact ih hw
          | ok ks => cases hnext
        | list items =>
          cases hid
          exact .inl rfl
        | dict entries =>
          cases hid
          exact .inr rfl
        | _ => cases hid
    | _ => cases hid

theorem Accounted.hash (ha : h.Accounted owned) (hg : h.Grounded) (hv : h.Present v) :
    ∃ x, (h.hash v).run = .ok x :=
  hashWithin_ok hg ha.closed List.nodup_nil nofun (by simp) hv nofun

end ItemAccess.Heap
