import ItemAccess.Proofs.Store.Nesting

/-!
# The keys of a store

A key is made of what never changes: bytes, integers, the items of tuples and the slots of instances.
A value that a move leaves in the store therefore has the same key before and after it. What a dict
holds stays in the store as long as the dict does, so the keys that a dict has recorded are those that
its key objects have.
-/

namespace ItemAccess

variable {υ : SlotKind → Type} {g : Registry υ} {writes : Handle → Prop} {h h' : Heap}
  {r s : Handle} {v : Value} {k : Key} {owned taken given : Multiset Handle}

namespace Dict

variable {entries rest : List DictEntry} {key value : Value} {e : DictEntry}

/-- An entry that was put in has the given key object, or that of an old entry with this key. -/
theorem mem_insert (he : e ∈ (insert entries k key value).1) :
    e.hash = k ∧ e.key = key ∨ ∃ d ∈ entries, d.hash = e.hash ∧ d.key = e.key := by
  induction entries with
  | nil =>
    obtain rfl : e = ⟨k, key, value⟩ := by simpa [insert] using he
    exact .inl ⟨rfl, rfl⟩
  | cons d rest ih =>
    by_cases hd : d.hash = k
    · simp only [insert, if_pos hd, List.mem_cons] at he
      rcases he with rfl | he
      · exact .inr ⟨d, by simp, rfl, rfl⟩
      · exact .inr ⟨e, by simp [he], rfl, rfl⟩
    · simp only [insert, if_neg hd, List.mem_cons] at he
      rcases he with rfl | he
      · exact .inr ⟨e, by simp, rfl, rfl⟩
      · rcases ih he with hnew | ⟨d', hd', hsame⟩
        · exact .inl hnew
        · exact .inr ⟨d', by simp [hd'], hsame⟩

/-- The recorded keys stay in place, and a new one comes last. -/
theorem hashes_insert (entries : List DictEntry) (k : Key) (key value : Value) :
    (insert entries k key value).1.map (·.hash) =
      if k ∈ entries.map (·.hash) then entries.map (·.hash) else entries.map (·.hash) ++ [k] := by
  induction entries with
  | nil => rfl
  | cons d rest ih =>
    by_cases hd : d.hash = k
    · simp [insert, hd]
    · simp only [insert, if_neg hd, List.map_cons, ih, List.mem_cons, Ne.symm hd, false_or]
      split <;> rfl

theorem nodup_insert (hd : (entries.map (·.hash)).Nodup) (k : Key) (key value : Value) :
    ((insert entries k key value).1.map (·.hash)).Nodup := by
  rw [hashes_insert]
  split
  case isTrue => exact hd
  case isFalse hnew => exact hd.append (List.nodup_singleton k) (by simpa using hnew)

namespace Keyed

theorem nil : Keyed h [] :=
  ⟨List.nodup_nil, fun _ he => by cases he⟩

theorem insert (hk : Keyed h entries) (hkey : (h.hash key).run = .ok (.ok k)) (value : Value) :
    Keyed h (Dict.insert entries k key value).1 := by
  refine ⟨nodup_insert hk.distinct k key value, fun e he => ?_⟩
  rcases mem_insert he with ⟨hhash, hobj⟩ | ⟨d, hd, hhash, hobj⟩
  · rw [hhash, hobj]
    exact hkey
  · rw [← hhash, ← hobj]
    exact hk.current d hd

theorem remove? (hk : Keyed h entries) (hr : remove? entries k = some (e, rest)) :
    Keyed h rest := by
  obtain ⟨e', -, heq⟩ := Option.map_eq_some_iff.1 hr
  obtain ⟨rfl, rfl⟩ := Prod.mk.inj heq
  constructor
  · exact hk.distinct.sublist (List.eraseP_sublist.map _)
  · exact fun d hd => hk.current d (List.mem_of_mem_eraseP hd)

/-- Whatever keeps the keys of the key objects keeps those of the entries. -/
theorem mono (hk : Keyed h entries)
    (hh : ∀ e ∈ entries, (h.hash e.key).run = .ok (.ok e.hash) →
      (h'.hash e.key).run = .ok (.ok e.hash)) : Keyed h' entries :=
  ⟨hk.distinct, fun e he => hh e he (hk.current e he)⟩

end Keyed

end Dict

/-- The contents of a dict come from a dict whose keys were in order. -/
theorem Body.Becomes.keyed {b : Body} {entries : List DictEntry}
    (hb : b.Becomes h (.dict entries))
    (hk : ∀ entries, b = .dict entries → Dict.Keyed h entries) : Dict.Keyed h entries := by
  cases hb with
  | refl => exact hk entries rfl
  | insert entries value hkey => exact (hk entries rfl).insert hkey value
  | remove hr => exact (hk _ rfl).remove? hr

/-- The key tells an instance by its slot, alone or within tuples. -/
inductive Key.Names : Key → Handle → Prop
  | identity (r : Handle) : Names (.identity r) r
  | item {ks : List Key} {k : Key} {r : Handle} (hmem : k ∈ ks) (hk : Names k r) :
    Names (.tuple ks) r

theorem Key.not_names_ofBinary64 (x : Binary64) (r : Handle) : ¬ (Key.ofBinary64 x).Names r := by
  unfold Key.ofBinary64
  intro hr
  split at hr
  · cases hr
  · split at hr
    · cases hr
    · split at hr <;> cases hr

namespace Heap

theorem Move.size_le (hm : Move g writes h taken given h') : h.slots.size ≤ h'.slots.size := by
  cases hm with
  | retain _ => simp [put]
  | release _ _ => simp [put]
  | vacate _ _ => simp [Heap.vacate]
  | allocate ha _ _ =>
    obtain ⟨_, _, -, ⟨_, -, -, rfl⟩ | ⟨-, -, rfl⟩⟩ := allocate_cases ha <;> simp
  | change _ _ _ _ => simp [put]
  | grow hg =>
    obtain ⟨_, _, _, -, -, rfl⟩ := grow_cases hg
    simp [put]
  | shrink hk =>
    obtain ⟨_, -, rfl⟩ := shrink_cases hk
    simp [put]
  | keep _ _ _ => simp

theorem mapM_cons_eq_ok {α β ε : Type} {f : α → ExceptT ε (Except Fault) β} {a : α} {l : List α}
    {bs : List β} : ((a :: l).mapM f).run = .ok (.ok bs) ↔
      ∃ b cs, (f a).run = .ok (.ok b) ∧ (l.mapM f).run = .ok (.ok cs) ∧ bs = b :: cs := by
  rw [List.mapM_cons, ExceptT.run_bind]
  constructor
  · intro hl
    obtain ⟨x, hx, hnext⟩ := except_bind_eq_ok.1 hl
    cases x with
    | error e => cases hnext
    | ok b =>
      change (l.mapM f >>= fun bs => pure (b :: bs)).run = .ok (.ok bs) at hnext
      rw [ExceptT.run_bind] at hnext
      obtain ⟨y, hy, hlast⟩ := except_bind_eq_ok.1 hnext
      cases y with
      | error e => cases hlast
      | ok cs =>
        cases hlast
        exact ⟨b, cs, hx, hy, rfl⟩
  · rintro ⟨b, cs, hb, hcs, rfl⟩
    rw [hb]
    change (l.mapM f >>= fun bs => pure (b :: bs)).run = .ok (.ok (b :: cs))
    rw [ExceptT.run_bind, hcs]
    rfl

theorem mapM_run_imp {α β ε : Type} {f f' : α → ExceptT ε (Except Fault) β} {l : List α}
    (hf : ∀ a ∈ l, ∀ b, (f a).run = .ok (.ok b) → (f' a).run = .ok (.ok b)) {bs : List β}
    (hl : (l.mapM f).run = .ok (.ok bs)) : (l.mapM f').run = .ok (.ok bs) := by
  induction l generalizing bs with
  | nil => exact hl
  | cons a l ih =>
    obtain ⟨b, cs, hb, hcs, rfl⟩ := mapM_cons_eq_ok.1 hl
    exact mapM_cons_eq_ok.2
      ⟨b, cs, hf a (by simp) b hb, ih (fun a ha => hf a (by simp [ha])) hcs, rfl⟩

/-- The walk that gives a value its key goes the same way in two stores, if what is in both has
contents of the same kind and the second holds what its objects hold. -/
theorem hashWithin_next (hsame : ∀ r b b', h.body r = .ok b → h'.body r = .ok b' → b.Becomes h b')
    (hclosed : h'.Closed) {depth depth' : Nat} (hdepth : depth ≤ depth') (hv : h'.Present v)
    (hk : (h.hashWithin depth v).run = .ok (.ok k)) :
    (h'.hashWithin depth' v).run = .ok (.ok k) := by
  induction depth generalizing depth' v k with
  | zero => cases hk
  | succ depth ih =>
    obtain ⟨depth', rfl⟩ : ∃ n, depth' = n + 1 := ⟨depth' - 1, by omega⟩
    cases v with
    | none => exact hk
    | bool _ => exact hk
    | int _ => exact hk
    | float _ => exact hk
    | ref r =>
      obtain ⟨e', he'⟩ := hv r rfl
      have hb' := body_of_lookup? he'
      cases hb : h.body r with
      | error f =>
        rw [hashWithin, hb] at hk
        cases hk
      | ok b =>
        have hbecomes := hsame r b e'.body hb hb'
        rw [hashWithin_ref depth hb] at hk
        rw [hashWithin_ref depth' hb']
        cases b with
        | list _ => cases hk
        | dict _ => cases hk
        | bytes data =>
          generalize e'.body = b' at hbecomes
          cases hbecomes
          exact hk
        | bigInt n =>
          generalize e'.body = b' at hbecomes
          cases hbecomes
          exact hk
        | inst type fields =>
          generalize e'.body = b' at hbecomes
          cases hbecomes <;> exact hk
        | tuple items =>
          have hitems : ∀ v ∈ e'.body.children, h'.Present v := hclosed r e' he'
          generalize e'.body = b' at hbecomes hitems
          cases hbecomes
          simp only [ExceptT.run_bind] at hk ⊢
          obtain ⟨x, hx, hnext⟩ := except_bind_eq_ok.1 hk
          cases x with
          | error _ => cases hnext
          | ok ks =>
            have hle : depth ≤ depth' := Nat.le_of_succ_le_succ hdepth
            have hx' : (items.mapM (h'.hashWithin depth')).run = .ok (.ok ks) :=
              mapM_run_imp (fun v hv _ => ih hle (hitems v hv)) hx
            rw [hx']
            exact hnext

/-- A value that a move leaves in the store keeps its key. -/
theorem Move.hash (hm : Move g writes h taken given h') (ha : h.Accounted (owned + taken))
    (hv : h'.Present v) (hk : (h.hash v).run = .ok (.ok k)) : (h'.hash v).run = .ok (.ok k) := by
  refine hashWithin_next ?_ (hm.accounted ha).closed (Nat.succ_le_succ hm.size_le) hv hk
  intro r b b' hb hb'
  obtain ⟨e, he, rfl⟩ := body_eq_ok.1 hb
  obtain ⟨e', he', rfl⟩ := body_eq_ok.1 hb'
  have hc := hm.slotChange ha.free r
  rw [he, he'] at hc
  cases hc with
  | kept hbecomes _ => exact hbecomes

/-- What is owned throughout keeps its key. -/
theorem Moves.hash {p q : Heap × Multiset Handle} (hm : Moves g writes p q)
    (ha : p.1.Accounted (owned + p.2)) (hv : ∀ r, v = .ref r → r ∈ owned)
    (hk : (p.1.hash v).run = .ok (.ok k)) :
    q.1.Accounted (owned + q.2) ∧ (q.1.hash v).run = .ok (.ok k) := by
  induction hm with
  | refl => exact ⟨ha, hk⟩
  | tail _ hstep ih =>
    obtain ⟨more, hmove⟩ := hstep
    obtain ⟨hmid, hk₁⟩ := ih
    rw [← add_assoc] at hmid ⊢
    have hnext := hmove.accounted hmid
    refine ⟨hnext, hmove.hash hmid ?_ hk₁⟩
    rintro r rfl
    exact hnext.exists_of_owned (by simp [hv r rfl])

def Keyed (h : Heap) : Prop :=
  ∀ r entries, h.body r = .ok (.dict entries) → Dict.Keyed h entries

theorem empty_keyed (limits : Limits) : (empty limits).Keyed := by
  intro r entries hb
  obtain ⟨e, he, -⟩ := body_eq_ok.1 hb
  simp [lookup?, empty] at he

theorem Move.keyed (hm : Move g writes h taken given h') (ha : h.Accounted (owned + taken))
    (hk : h.Keyed) : h'.Keyed := by
  intro r entries hb'
  obtain ⟨e', he', hbody⟩ := body_eq_ok.1 hb'
  have hbefore : Dict.Keyed h entries := by
    have hc := hm.slotChange ha.free r
    rw [he'] at hc
    cases he : h.lookup? r with
    | none =>
      rw [he] at hc
      cases hc with
      | made _ _ hmade => exact hmade entries hbody
    | some e =>
      rw [he] at hc
      cases hc with
      | kept hb _ =>
        rw [hbody] at hb
        exact hb.keyed fun entries hold => hk r entries (hold ▸ body_of_lookup? he)
  -- the dict holds its key objects, so they are in the new store
  apply hbefore.mono
  intro e he hkey
  apply hm.hash ha _ hkey
  apply (hm.accounted ha).closed r e' he'
  rw [hbody]
  exact List.mem_flatMap.2 ⟨e, he, by simp⟩

theorem exists_of_mem_mapM {α β ε : Type} {f : α → ExceptT ε (Except Fault) β} {l : List α}
    {bs : List β} (hl : (l.mapM f).run = .ok (.ok bs)) {b : β} (hb : b ∈ bs) :
    ∃ a ∈ l, (f a).run = .ok (.ok b) := by
  induction l generalizing bs with
  | nil =>
    cases hl
    cases hb
  | cons a l ih =>
    obtain ⟨c, cs, hc, hcs, rfl⟩ := mapM_cons_eq_ok.1 hl
    rcases List.mem_cons.1 hb with rfl | hb
    · exact ⟨a, by simp, hc⟩
    · obtain ⟨a', ha', hx'⟩ := ih hcs hb
      exact ⟨a', by simp [ha'], hx'⟩

/-- A value whose key names an instance is this instance or a tuple that holds it through tuples. -/
theorem hashWithin_names {depth : Nat} (hk : (h.hashWithin depth v).run = .ok (.ok k))
    (hs : k.Names s) : ∃ r type fields, v = .ref r ∧ Relation.ReflTransGen h.Nests s r ∧
      h.body s = .ok (.inst type fields) := by
  induction depth generalizing v k with
  | zero => cases hk
  | succ depth ih =>
    cases v with
    | none =>
      cases hk
      cases hs
    | bool _ =>
      cases hk
      cases hs
    | int _ =>
      cases hk
      cases hs
    | float x =>
      cases hk
      exact absurd hs (Key.not_names_ofBinary64 x s)
    | ref r =>
      cases hb : h.body r with
      | error f =>
        rw [hashWithin, hb] at hk
        cases hk
      | ok b =>
        rw [hashWithin_ref depth hb] at hk
        cases b with
        | list _ => cases hk
        | dict _ => cases hk
        | bytes _ =>
          cases hk
          cases hs
        | bigInt _ =>
          cases hk
          cases hs
        | inst type fields =>
          cases hk
          cases hs
          exact ⟨s, type, fields, rfl, .refl, hb⟩
        | tuple items =>
          simp only [ExceptT.run_bind] at hk
          obtain ⟨x, hx, hnext⟩ := except_bind_eq_ok.1 hk
          cases x with
          | error _ => cases hnext
          | ok ks =>
            cases hnext
            cases hs with
            | item hmem hs =>
              obtain ⟨v, hv, hkey⟩ := exists_of_mem_mapM hx hmem
              obtain ⟨t, type, fields, rfl, hpath, hinst⟩ := ih hkey hs
              obtain ⟨e, he, hbody⟩ := body_eq_ok.1 hb
              exact ⟨r, type, fields, rfl, hpath.tail ⟨e, items, he, hbody, hv⟩, hinst⟩

end Heap

end ItemAccess
