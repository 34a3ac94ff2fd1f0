import ItemAccess.Proofs.Store.Nesting

/-!
# The order in which a value is looked through

The walk that gives a value its key goes into tuples and into nothing else, always to the leftmost item
that is left. What it comes upon that is no tuple is a leaf. The walk stops at the first leaf that is a
list or a dict, and otherwise goes through all of them; it does not matter how many more steps it has.
-/

namespace ItemAccess.Heap

variable {h : Heap} {owned : Multiset Handle} {v w : Value} {vs us ls ks items : List Value}

def items? (h : Heap) : Value → Option (List Value)
  | .ref r =>
    match h.body r with
    | .ok (.tuple items) => some items
    | _ => none
  | _ => none

def unhashable? (h : Heap) : Value → Option TypeId
  | .ref r =>
    match h.body r with
    | .ok (.list _) => some BuiltinKind.list.typeId
    | .ok (.dict _) => some BuiltinKind.dict.typeId
    | _ => none
  | _ => none

/-- The second value is the first, or holds it through tuples. -/
inductive Occurs (h : Heap) (w : Value) : Value → Prop
  | here : Occurs h w w
  | item {v u : Value} {items : List Value} (hv : h.items? v = some items) (hu : u ∈ items)
    (hw : Occurs h w u) : Occurs h w v

inductive Leaves (h : Heap) : List Value → List Value → Prop
  | nil : Leaves h [] []
  | leaf {v : Value} {rest ls : List Value} (hv : h.items? v = none) (hrest : Leaves h rest ls) :
    Leaves h (v :: rest) (v :: ls)
  | tuple {v : Value} {items rest ls : List Value} (hv : h.items? v = some items)
    (hrest : Leaves h (items ++ rest) ls) : Leaves h (v :: rest) ls

theorem items?_eq_some : h.items? v = some items ↔ ∃ r, v = .ref r ∧ h.body r = .ok (.tuple items) := by
  constructor
  · intro hv
    unfold items? at hv
    split at hv
    · split at hv
      · cases hv
        exact ⟨_, rfl, by assumption⟩
      · cases hv
    · cases hv
  · rintro ⟨r, rfl, hr⟩
    simp [items?, hr]

theorem items?_of_unhashable? (hv : h.unhashable? v ≠ none) : h.items? v = none := by
  cases hitems : h.items? v with
  | none => rfl
  | some items =>
    obtain ⟨r, rfl, hr⟩ := items?_eq_some.1 hitems
    exact absurd (by simp [unhashable?, hr]) hv

namespace Leaves

theorem append (hv : h.Leaves vs ls) (hu : h.Leaves us ks) : h.Leaves (vs ++ us) (ls ++ ks) := by
  induction hv with
  | nil => exact hu
  | leaf hv _ ih => exact .leaf hv ih
  | tuple hv _ ih =>
    rw [List.append_assoc] at ih
    exact .tuple hv ih

theorem unique (hv : h.Leaves vs ls) (hu : h.Leaves vs ks) : ls = ks := by
  induction hv generalizing ks with
  | nil =>
    cases hu
    rfl
  | leaf hv _ ih =>
    cases hu with
    | leaf _ hrest => rw [ih hrest]
    | tuple hitems _ =>
      rw [hv] at hitems
      cases hitems
  | tuple hv _ ih =>
    cases hu with
    | leaf hitems _ =>
      rw [hv] at hitems
      cases hitems
    | tuple hitems hrest =>
      obtain rfl := Option.some.inj (hv.symm.trans hitems)
      exact ih hrest

/-- The leaves are what occurs in the values and is no tuple. -/
theorem mem_iff (hv : h.Leaves vs ls) :
    w ∈ ls ↔ h.items? w = none ∧ ∃ v ∈ vs, h.Occurs w v := by
  induction hv with
  | nil => simp
  | @leaf v rest ls hv _ ih =>
    rw [List.mem_cons, ih]
    constructor
    · rintro (rfl | ⟨hw, u, hu, hin⟩)
      · exact ⟨hv, w, List.mem_cons_self, .here⟩
      · exact ⟨hw, u, List.mem_cons_of_mem _ hu, hin⟩
    · rintro ⟨hw, u, hu, hin⟩
      obtain rfl | hu := List.mem_cons.1 hu
      · cases hin with
        | here => exact .inl rfl
        | item hitems =>
          rw [hv] at hitems
          cases hitems
      · exact .inr ⟨hw, u, hu, hin⟩
  | @tuple v items rest ls hv _ ih =>
    rw [ih]
    refine and_congr_right fun hw => ?_
    constructor
    · rintro ⟨u, hu, hin⟩
      obtain hu | hu := List.mem_append.1 hu
      · exact ⟨v, List.mem_cons_self, .item hv hu hin⟩
      · exact ⟨u, List.mem_cons_of_mem _ hu, hin⟩
    · rintro ⟨u, hu, hin⟩
      obtain rfl | hu := List.mem_cons.1 hu
      · cases hin with
        | here =>
          rw [hv] at hw
          cases hw
        | item hitems hx hin =>
          obtain rfl := Option.some.inj (hv.symm.trans hitems)
          exact ⟨_, List.mem_append_left _ hx, hin⟩
      · exact ⟨u, List.mem_append_right _ hu, hin⟩

/-- A list or dict is among the leaves just if one occurs in the values. -/
theorem findSome?_isSome_iff (hv : h.Leaves vs ls) :
    (∃ id, ls.findSome? h.unhashable? = some id) ↔
      ∃ v ∈ vs, ∃ w id, h.Occurs w v ∧ h.unhashable? w = some id := by
  constructor
  · rintro ⟨id, hid⟩
    obtain ⟨w, hw, hwid⟩ := List.exists_of_findSome?_eq_some hid
    obtain ⟨-, v, hmem, hin⟩ := hv.mem_iff.1 hw
    exact ⟨v, hmem, w, id, hin, hwid⟩
  · rintro ⟨v, hmem, w, id, hin, hwid⟩
    have hw : w ∈ ls := hv.mem_iff.2 ⟨items?_of_unhashable? (by simp [hwid]), v, hmem, hin⟩
    exact Option.isSome_iff_exists.1 (List.findSome?_isSome_iff.2 ⟨w, hw, by simp [hwid]⟩)

end Leaves

/-- Where tuples are grounded, all values have leaves. -/
theorem Grounded.exists_leaves (hg : h.Grounded) (vs : List Value) : ∃ ls, h.Leaves vs ls := by
  have hlist (vs : List Value) (hvs : ∀ v ∈ vs, ∃ ls, h.Leaves [v] ls) : ∃ ls, h.Leaves vs ls := by
    induction vs with
    | nil => exact ⟨[], .nil⟩
    | cons v vs ih =>
      obtain ⟨ls, hls⟩ := hvs v List.mem_cons_self
      obtain ⟨ks, hks⟩ := ih fun u hu => hvs u (List.mem_cons_of_mem _ hu)
      exact ⟨ls ++ ks, hls.append hks⟩
  have hleaf (v : Value) (hv : h.items? v = none) : ∃ ls, h.Leaves [v] ls := ⟨[v], .leaf hv .nil⟩
  have href (r : Handle) : ∃ ls, h.Leaves [.ref r] ls := by
    induction r using hg.induction with
    | _ r ih =>
      cases hr : h.items? (.ref r) with
      | none => exact hleaf _ hr
      | some items =>
        obtain ⟨ls, hls⟩ := hlist items fun v hv => by
          cases v with
          | ref s =>
            obtain ⟨_, heq, hbody⟩ := items?_eq_some.1 hr
            cases heq
            obtain ⟨e, he, htuple⟩ := body_eq_ok.1 hbody
            exact ih s ⟨e, items, he, htuple, hv⟩
          | _ => exact hleaf _ rfl
        exact ⟨ls, .tuple hr (by rwa [List.append_nil])⟩
  refine hlist vs fun v _ => ?_
  cases v with
  | ref r => exact href r
  | _ => exact hleaf _ rfl

def rejected? {α : Type} : Except TypeId α → Option TypeId
  | .ok _ => none
  | .error id => some id

theorem rejected?_eq_some {α : Type} {x : Except TypeId α} {id : TypeId} :
    rejected? x = some id ↔ x = .error id := by
  cases x <;> simp [rejected?]

theorem rejected?_eq_none {α : Type} {x : Except TypeId α} : rejected? x = none ↔ ∃ k, x = .ok k := by
  cases x <;> simp [rejected?]

theorem rejected?_leaf {depth : Nat} {x : Except TypeId Key} (hv : h.items? v = none)
    (hx : (h.hashWithin (depth + 1) v).run = .ok x) : rejected? x = h.unhashable? v := by
  cases v with
  | ref r =>
    cases hb : h.body r with
    | error k =>
      rw [hashWithin, hb] at hx
      cases hx
    | ok b =>
      rw [hashWithin_ref depth hb] at hx
      cases b with
      | tuple items => simp [items?, hb] at hv
      | _ =>
        cases hx
        simp [rejected?, unhashable?, hb, Body.typeId]
  | _ =>
    cases hx
    rfl

theorem rejected?_mapM (hg : h.Grounded) {f : Value → ExceptT TypeId (Except Fault) Key}
    (hf : ∀ v ls x, h.Leaves [v] ls → (f v).run = .ok x → rejected? x = ls.findSome? h.unhashable?)
    (hls : h.Leaves vs ls) {y : Except TypeId (List Key)} (hy : (vs.mapM f).run = .ok y) :
    rejected? y = ls.findSome? h.unhashable? := by
  induction vs generalizing ls y with
  | nil =>
    cases hls
    cases hy
    rfl
  | cons v vs ih =>
    obtain ⟨first, hfirst⟩ := hg.exists_leaves [v]
    obtain ⟨rest, hrest⟩ := hg.exists_leaves vs
    obtain rfl : ls = first ++ rest := hls.unique (hfirst.append hrest)
    rw [run_mapM_cons] at hy
    rw [List.findSome?_append]
    cases hx : (f v).run with
    | error k =>
      rw [hx] at hy
      cases hy
    | ok x =>
      rw [← hf v first x hfirst hx]
      rw [hx] at hy
      cases x with
      | error id =>
        cases hy
        rfl
      | ok k =>
        obtain ⟨z, hz, rfl⟩ := except_map_eq_ok.1 hy
        rw [← ih hrest hz]
        cases z <;> rfl

/-- A walk that comes to an end has been kept from a key by its first list or dict. -/
theorem rejected?_hashWithin (hg : h.Grounded) {depth : Nat} {x : Except TypeId Key}
    (hls : h.Leaves [v] ls) (hx : (h.hashWithin depth v).run = .ok x) :
    rejected? x = ls.findSome? h.unhashable? := by
  induction depth generalizing v ls x with
  | zero => cases hx
  | succ depth ih =>
    cases hls with
    | leaf hv hrest =>
      cases hrest
      rw [rejected?_leaf hv hx]
      simp
    | tuple hv hrest =>
      obtain ⟨r, rfl, hb⟩ := items?_eq_some.1 hv
      rw [List.append_nil] at hrest
      rw [hashWithin_ref depth hb] at hx
      simp only [ExceptT.run_bind] at hx
      obtain ⟨y, hy, hnext⟩ := except_bind_eq_ok.1 hx
      rw [← rejected?_mapM hg (fun v ls x => ih) hrest hy]
      cases y with
      | error id =>
        cases hnext
        rfl
      | ok ks =>
        cases hnext
        rfl

theorem mapM_run_congr {α β ε : Type} {f g : α → ExceptT ε (Except Fault) β} {l : List α}
    (hf : ∀ a ∈ l, (f a).run ≠ .error .endless → (g a).run = (f a).run)
    (hl : (l.mapM f).run ≠ .error .endless) : (l.mapM g).run = (l.mapM f).run := by
  induction l with
  | nil => rfl
  | cons a l ih =>
    rw [run_mapM_cons] at hl
    rw [run_mapM_cons, run_mapM_cons]
    have ha : (g a).run = (f a).run := by
      apply hf a List.mem_cons_self
      intro hfa
      rw [hfa] at hl
      exact hl rfl
    rw [ha]
    cases hfa : (f a).run with
    | error k => rfl
    | ok x =>
      cases x with
      | error e => rfl
      | ok b =>
        rw [hfa] at hl
        have hrest : (l.mapM f).run ≠ .error .endless := by
          intro hend
          rw [hend] at hl
          exact hl rfl
        change (l.mapM g).run.map _ = (l.mapM f).run.map _
        rw [ih (fun a ha => hf a (List.mem_cons_of_mem _ ha)) hrest]

/-- A walk that does not run out of steps is not changed by one more. -/
theorem hashWithin_succ {depth : Nat} (hv : (h.hashWithin depth v).run ≠ .error .endless) :
    (h.hashWithin (depth + 1) v).run = (h.hashWithin depth v).run := by
  induction depth generalizing v with
  | zero => exact absurd rfl hv
  | succ depth ih =>
    cases v with
    | ref r =>
      cases hb : h.body r with
      | error k =>
        rw [hashWithin, hashWithin, hb]
        rfl
      | ok b =>
        rw [hashWithin_ref depth hb] at hv
        rw [hashWithin_ref depth hb, hashWithin_ref (depth + 1) hb]
        cases b with
        | tuple items =>
          simp only [ExceptT.run_bind] at hv ⊢
          have hitems : (items.mapM (h.hashWithin depth)).run ≠ .error .endless := by
            intro hend
            rw [hend] at hv
            exact hv rfl
          rw [mapM_run_congr (fun u _ => ih) hitems]
        | _ => rfl
    | _ => rfl

theorem hashWithin_of_le {depth depth' : Nat} (hle : depth ≤ depth')
    (hv : (h.hashWithin depth v).run ≠ .error .endless) :
    (h.hashWithin depth' v).run = (h.hashWithin depth v).run := by
  induction depth', hle using Nat.le_induction with
  | base => rfl
  | succ depth' _ ih =>
    rw [hashWithin_succ (by rwa [ih]), ih]

/-- The walk through a value, which need not be there, does not run out of steps. -/
theorem Accounted.hash_ne_endless (ha : h.Accounted owned) (hg : h.Grounded) (v : Value) :
    (h.hash v).run ≠ .error .endless := by
  by_cases hv : h.Present v
  · obtain ⟨x, hx⟩ := ha.hash hg hv
    rw [hx]
    simp
  · cases v with
    | ref r =>
      rw [Heap.hash, hashWithin, body, entry]
      split
      case h_1 e he =>
        refine absurd (fun s hs => ?_) hv
        cases hs
        exact ⟨e, lookup?_eq_some.2 he⟩
      all_goals
        intro hend
        cases hend
    | _ => exact absurd (fun s hs => by cases hs) hv

end ItemAccess.Heap
