import ItemAccess.Proofs.Store.History
import Mathlib.Logic.Relation

/-!
# The operations of the store as sequences of moves

Every operation of the store is a sequence of moves, whatever the handles it is given; its ledger is
what it takes and gives in all. Where the accounts are in order the operations do not fault on
references that are owned, stored or kept, and what is held throughout stays.
-/

namespace ItemAccess

def Body.Evolves : Body → Body → Prop :=
  Relation.ReflTransGen fun b b' => ∃ h : Heap, b.Becomes h b'

theorem Body.Evolves.typeId {b b' : Body} (hb : b.Evolves b') : b'.typeId = b.typeId := by
  induction hb with
  | refl => rfl
  | tail _ hstep ih =>
    obtain ⟨h, hbb⟩ := hstep
    exact hbb.typeId.trans ih

namespace Heap

variable {υ : SlotKind → Type} {g : Registry υ} {writes : Handle → Prop} {h h' : Heap} {r s : Handle}
  {e : Entry} {v : Value} {owned taken given : Multiset Handle}

inductive Step (g : Registry υ) (writes : Handle → Prop) :
    Heap × Multiset Handle → Heap × Multiset Handle → Prop
  | of {h h' : Heap} {taken given : Multiset Handle} (owned : Multiset Handle)
    (hm : Move g writes h taken given h') : Step g writes (h, owned + taken) (h', owned + given)

abbrev Moves (g : Registry υ) (writes : Handle → Prop) :
    Heap × Multiset Handle → Heap × Multiset Handle → Prop :=
  Relation.ReflTransGen (Step g writes)

theorem Move.moves (hm : Move g writes h taken given h') : Moves g writes (h, taken) (h', given) := by
  have hs := Step.of 0 hm
  rw [zero_add, zero_add] at hs
  exact .single hs

/-- Owning more does not stand in the way. -/
theorem Moves.frame (hm : Moves g writes (h, taken) (h', given)) (owned : Multiset Handle) :
    Moves g writes (h, owned + taken) (h', owned + given) := by
  have hstep : Step g writes ≤ Function.onFun (Step g writes) fun p => (p.1, owned + p.2) := by
    rintro _ _ ⟨more, hmove⟩
    simp only [Function.onFun, ← add_assoc]
    exact .of (owned + more) hmove
  exact Relation.ReflTransGen.lift _ hstep _ _ hm

/-- An invariant of single moves is an invariant of sequences. -/
theorem Moves.invariant (good : Heap → Multiset Handle → Prop)
    (hgood : ∀ {h h' : Heap} {owned taken given : Multiset Handle}, Move g writes h taken given h' →
      good h (owned + taken) → good h' (owned + given))
    (hm : Moves g writes (h, taken) (h', given)) (ht : good h (owned + taken)) :
    good h' (owned + given) := by
  have hlift := hm.frame owned
  generalize hp : (h, owned + taken) = p at hlift
  generalize hq : (h', owned + given) = q at hlift
  have key : good p.1 p.2 → good q.1 q.2 := by
    clear hp hq hm ht
    induction hlift with
    | refl => exact id
    | tail _ hstep ih =>
      intro hp
      obtain ⟨more, hmove⟩ := hstep
      exact hgood hmove (ih hp)
  subst hp hq
  exact key ht

theorem retainHandle_cases (hr : h.retainHandle r = .ok h') :
    ∃ e, h.lookup? r = some e ∧ h' = h.put r { e with count := e.count + 1 } := by
  obtain ⟨e, he, hp⟩ := except_bind_eq_ok.1 hr
  refine ⟨e, entry_eq_ok.1 he, ?_⟩
  simpa only [pure, Except.pure, Except.ok.injEq, eq_comm] using hp

theorem retainHandle_moves (g : Registry υ) (hr : h.retainHandle r = .ok h') :
    Moves g writes (h, 0) (h', {r}) := by
  obtain ⟨e, he, rfl⟩ := retainHandle_cases hr
  exact (Move.retain he).moves

theorem retain_moves (g : Registry υ) (hr : h.retain v = .ok h') :
    Moves g writes (h, 0) (h', v.handles) := by
  cases v with
  | ref r => exact retainHandle_moves g hr
  | _ => cases hr; exact .refl

/-- Releasing values takes the references to them, and those that freed objects held are used up on
the way. -/
theorem releaseAll_moves (g : Registry υ) {vs : List Value} (hr : h.releaseAll vs = .ok h') :
    Moves g writes (h, handles vs) (h', 0) := by
  fun_induction releaseAll h vs with
  | case1 h => cases hr; exact .refl
  | case2 h r rest e hs hc ih =>
    have hm : Move g writes h {r} 0 (h.put r { e with count := e.count - 1 }) :=
      .release (lookup?_eq_some.2 hs) hc
    have hstep := hm.moves.frame (handles rest)
    rw [add_zero, add_comm] at hstep
    rw [handles_cons]
    exact hstep.trans (ih hr)
  | case3 h r rest e hs hc ih =>
    have hm : Move g writes h {r} (handles e.body.children) (h.vacate r e.charge) :=
      .vacate (lookup?_eq_some.2 hs) (Nat.le_of_not_lt hc)
    have hstep := hm.moves.frame (handles rest)
    rw [add_comm, add_comm (handles rest)] at hstep
    rw [handles_append] at ih
    rw [handles_cons]
    exact hstep.trans (ih hr)
  | case4 => cases hr
  | case5 => cases hr
  | case6 h rest ih => simpa [Value.handles, Value.handle?] using ih hr
  | case7 h _ rest ih => simpa [Value.handles, Value.handle?] using ih hr
  | case8 h _ rest ih => simpa [Value.handles, Value.handle?] using ih hr
  | case9 h _ rest ih => simpa [Value.handles, Value.handle?] using ih hr

theorem setBody_cases {b : Body} (hb : h.setBody r b = .ok h') :
    ∃ e, h.lookup? r = some e ∧ h' = h.put r { e with body := b } := by
  obtain ⟨e, he, hp⟩ := except_bind_eq_ok.1 hb
  refine ⟨e, entry_eq_ok.1 he, ?_⟩
  simpa only [pure, Except.pure, Except.ok.injEq, eq_comm] using hp

/-- Contents are changed for contents with a ledger of its own. -/
theorem setBody_moves (g : Registry υ) {b b' : Body} (hb : h.body r = .ok b)
    (hw : writes r)
    (hbb : b.Becomes h b') (hc : handles b'.children + given = handles b.children + taken)
    (hs : h.setBody r b' = .ok h') : Moves g writes (h, taken) (h', given) := by
  obtain ⟨e, he, rfl⟩ := setBody_cases hs
  obtain ⟨e', he', rfl⟩ := body_eq_ok.1 hb
  obtain rfl : e = e' := Option.some.inj (he.symm.trans he')
  exact (Move.change he hw hbb hc).moves

theorem grow_moves (g : Registry υ) {bytes : Nat} (hg : h.grow r bytes = .ok (.ok h')) :
    Moves g writes (h, 0) (h', 0) :=
  (Move.grow hg).moves

theorem shrink_moves (g : Registry υ) {bytes : Nat} (hs : h.shrink r bytes = .ok h') :
    Moves g writes (h, 0) (h', 0) :=
  (Move.shrink hs).moves

theorem allocate_moves {b : Body} (ha : h.allocate b = .ok (.ok (r, h'))) (hb : b.Allowed g)
    (hk : ∀ entries, b = .dict entries → Dict.Keyed h entries) :
    Moves g writes (h, handles b.children) (h', {r}) :=
  (Move.allocate ha hb hk).moves

/-- A one-byte string that is known gets one more reference; another one is made, with two. -/
theorem byteString_cases {b : UInt8} (hb : h.byteString b = .ok (.ok (r, h'))) :
    (h.byteStrings.lookup b = some r ∧ h.retainHandle r = .ok h') ∨
      ∃ h₁ charge, h.byteStrings.lookup b = none ∧ h.allocate (.bytes [b]) = .ok (.ok (r, h₁)) ∧
        h₁.lookup? r = some ⟨1, .bytes [b], charge⟩ ∧
        h' = { h₁.put r ⟨2, .bytes [b], charge⟩ with byteStrings := (b, r) :: h.byteStrings } := by
  unfold byteString at hb
  cases hl : h.byteStrings.lookup b with
  | some s =>
    simp only [hl] at hb
    obtain ⟨h₁, hr, hp⟩ := except_bind_eq_ok.1 hb
    simp only [pure, Except.pure, Except.ok.injEq, Prod.mk.injEq] at hp
    obtain ⟨rfl, rfl⟩ := hp
    exact .inl ⟨rfl, hr⟩
  | none =>
    simp only [hl] at hb
    obtain ⟨x, ha, hb⟩ := except_bind_eq_ok.1 hb
    cases x with
    | error e => cases hb
    | ok p =>
      obtain ⟨r₁, h₁⟩ := p
      obtain ⟨h₂, hr, hp⟩ := except_bind_eq_ok.1 hb
      simp only [pure, Except.pure, Except.ok.injEq, Prod.mk.injEq] at hp
      obtain ⟨rfl, rfl⟩ := hp
      obtain ⟨charge, hlookup⟩ := lookup?_allocate ha
      obtain ⟨e, he, rfl⟩ := retainHandle_cases hr
      have hmade : h₁.lookup? r₁ = some ⟨1, .bytes [b], charge⟩ := by simp [hlookup]
      obtain rfl : e = ⟨1, .bytes [b], charge⟩ := Option.some.inj (he.symm.trans hmade)
      have hknown : h₁.byteStrings = h.byteStrings := byteStrings_allocate ha
      exact .inr ⟨h₁, charge, rfl, ha, hmade, by rw [← hknown]; rfl⟩

/-- A reference to a one-byte string. The first one that is made stays with the store, the second
is given. -/
theorem byteString_moves (g : Registry υ) {b : UInt8} (hb : h.byteString b = .ok (.ok (r, h'))) :
    Moves g writes (h, 0) (h', {r}) := by
  obtain ⟨-, hr⟩ | ⟨h₁, charge, hnew, ha, he, rfl⟩ := byteString_cases hb
  · exact retainHandle_moves g hr
  · have hretain : Moves g writes (h₁, 0) (h₁.put r ⟨2, .bytes [b], charge⟩, {r}) :=
      (Move.retain he).moves
    have htwo : (h₁.put r ⟨2, .bytes [b], charge⟩).lookup? r = some ⟨2, .bytes [b], charge⟩ := by
      simp [lookup?_put he]
    have hkeep : Move g writes (h₁.put r ⟨2, .bytes [b], charge⟩) {r} 0 _ :=
      .keep htwo rfl (by rw [put, byteStrings_allocate ha]; exact hnew)
    have h₁₂ := hretain.frame {r}
    have h₂₃ := hkeep.moves.frame {r}
    rw [add_zero] at h₁₂ h₂₃
    rw [← byteStrings_allocate ha]
    exact ((allocate_moves ha trivial fun _ hb => by cases hb).trans h₁₂).trans h₂₃

/-- What someone holds: what is owned, and what is in objects that are held and not written. -/
inductive Held (h : Heap) (writes : Handle → Prop) (owned : Multiset Handle) : Handle → Prop
  | owned {r : Handle} (hr : r ∈ owned) : Held h writes owned r
  | inside {x r : Handle} {b : Body} (hx : Held h writes owned x) (hw : ¬ writes x)
    (hb : h.body x = .ok b) (hr : .ref r ∈ b.children) : Held h writes owned r

namespace Held

theorem mono (hr : h.Held writes owned r) (more : Multiset Handle) :
    h.Held writes (owned + more) r := by
  induction hr with
  | owned hr => exact .owned (Multiset.mem_add.2 (.inl hr))
  | inside _ hw hb hr ih => exact .inside ih hw hb hr

theorem of_imp {writes' : Handle → Prop} (himp : ∀ x, writes' x → writes x)
    (hr : h.Held writes owned r) : h.Held writes' owned r := by
  induction hr with
  | owned hr => exact .owned hr
  | inside _ hw hb hr ih => exact .inside ih (fun hx => hw (himp _ hx)) hb hr

/-- Where held objects that are not written keep their contents, all that is held stays held. -/
theorem of_spared (hspared : ∀ x b, h.Held writes owned x → ¬ writes x → h.body x = .ok b →
      h'.body x = .ok b) (hr : h.Held writes owned r) : h'.Held writes owned r := by
  induction hr with
  | owned hr => exact .owned hr
  | inside hx hw hb hr ih => exact .inside ih hw (hspared _ _ hx hw hb) hr

end Held

/-- What someone holds is not freed by a move of another. -/
theorem Move.stays (hm : Move g writes h taken given h') (ha : h.Accounted (owned + taken))
    (hr : h.Held writes owned r) : ∃ e e', h.lookup? r = some e ∧ h'.lookup? r = some e' ∧
      e.body.Becomes h e'.body ∧ (¬ writes r → e'.body = e.body) := by
  have ha' := hm.accounted ha
  -- the slot is in use before and after, and one move does not both free and make an object
  have hkept {s : Handle} {e e' : Entry} (he : h.lookup? s = some e) (he' : h'.lookup? s = some e') :
      e.body.Becomes h e'.body ∧ (¬ writes s → e'.body = e.body) := by
    have hs := hm.slotChange ha.free s
    rw [he, he'] at hs
    cases hs with
    | kept hb hw => exact ⟨hb, hw⟩
  induction hr with
  | owned hr =>
    obtain ⟨e, he⟩ := ha.exists_of_owned (Multiset.mem_add.2 (.inl hr))
    obtain ⟨e', he'⟩ := ha'.exists_of_owned (Multiset.mem_add.2 (.inl hr))
    exact ⟨e, e', he, he', hkept he he'⟩
  | inside _ hw hb hr ih =>
    obtain ⟨d, d', hd, hd', -, hsame⟩ := ih
    obtain rfl := Except.ok.inj (hb.symm.trans (body_of_lookup? hd))
    obtain ⟨e, he⟩ := ha.exists_of_stored hd hr
    obtain ⟨e', he'⟩ := ha'.exists_of_stored hd' (hsame hw ▸ hr)
    exact ⟨e, e', he, he', hkept he he'⟩

theorem Move.held {more : Multiset Handle} (hm : Move g writes h taken given h')
    (ha : h.Accounted (owned + more + taken)) (hr : h.Held writes owned r) :
    h'.Held writes owned r := by
  refine hr.of_spared fun x b hx hw hb => ?_
  obtain ⟨e, e', he, he', -, hsame⟩ := hm.stays ha (hx.mono more)
  obtain rfl := Except.ok.inj (hb.symm.trans (body_of_lookup? he))
  exact hsame hw ▸ body_of_lookup? he'

/-- What is held throughout changes as its kind allows, and keeps its contents if nobody may write
them. -/
theorem Moves.stays {p q : Heap × Multiset Handle} (hm : Moves g writes p q)
    (ha : p.1.Accounted (owned + p.2)) (hr : p.1.Held writes owned r)
    (he : p.1.lookup? r = some e) :
    q.1.Accounted (owned + q.2) ∧ q.1.Held writes owned r ∧ ∃ e', q.1.lookup? r = some e' ∧
      e.body.Evolves e'.body ∧ (¬ writes r → e'.body = e.body) := by
  induction hm with
  | refl => exact ⟨ha, hr, e, he, .refl, fun _ => rfl⟩
  | tail _ hstep ih =>
    obtain ⟨more, hmove⟩ := hstep
    obtain ⟨hmid, hheld, e₁, he₁, hb₁, hw₁⟩ := ih
    rw [← add_assoc] at hmid ⊢
    obtain ⟨d, e₂, hd, he₂, hb₂, hw₂⟩ := hmove.stays hmid (hheld.mono more)
    obtain rfl := Option.some.inj (he₁.symm.trans hd)
    exact ⟨hmove.accounted hmid, hmove.held hmid hheld, e₂, he₂, hb₁.tail ⟨_, hb₂⟩,
      fun hw => (hw₂ hw).trans (hw₁ hw)⟩

/-- Objects may have been made. If none was, what is in the slot was there before, with the same
contents. -/
structure Still (r : Handle) (h h' : Heap) : Prop where
  made : h.meter.allocations ≤ h'.meter.allocations
  before : h'.meter.allocations = h.meter.allocations → ∀ b, h'.body r = .ok b → h.body r = .ok b

theorem Still.refl (r : Handle) (h : Heap) : Still r h h :=
  ⟨le_rfl, fun _ _ hb => hb⟩

theorem Still.trans {h₁ h₂ h₃ : Heap} (h₁₂ : Still r h₁ h₂) (h₂₃ : Still r h₂ h₃) :
    Still r h₁ h₃ where
  made := h₁₂.made.trans h₂₃.made
  before := fun heq b hb => by
    have hle₁ := h₁₂.made
    have hle₂ := h₂₃.made
    exact h₁₂.before (by omega) b (h₂₃.before (by omega) b hb)

theorem Still.of_body (hn : h'.meter.allocations = h.meter.allocations) (hb : h'.body r = h.body r) :
    Still r h h' :=
  ⟨hn.ge, fun _ _ hr => hb ▸ hr⟩

theorem Move.still (hm : Move g writes h taken given h') (hr : ¬ writes r) : Still r h h' := by
  cases hm with
  | retain he => exact .of_body rfl (body_put he _ (by rfl) r)
  | release he _ => exact .of_body rfl (body_put he _ (by rfl) r)
  | @change x e _ _ _ _ hw _ _ =>
    have hne : r ≠ x := by
      rintro rfl
      exact hr hw
    exact .of_body rfl (body_put_of_ne hne _)
  | vacate he _ =>
    refine ⟨le_rfl, fun _ b hb => ?_⟩
    obtain ⟨e, hr, rfl⟩ := body_eq_ok.1 hb
    rw [lookup?_vacate he] at hr
    split at hr
    · cases hr
    · exact body_of_lookup? hr
  | allocate ha _ _ =>
    obtain ⟨-, hcount⟩ := meter_allocate ha
    exact ⟨by omega, fun heq => by omega⟩
  | grow hg =>
    have hcount := (Alters.grow hg).meter.2
    obtain ⟨_, meter, _, -, he, rfl⟩ := grow_cases hg
    exact .of_body hcount (body_put (h := { h with meter := meter }) he _ (by rfl) r)
  | shrink hs =>
    obtain ⟨e, he, rfl⟩ := shrink_cases hs
    exact .of_body rfl (body_put (h := { h with meter := h.meter.free _ }) he _ (by rfl) r)
  | keep => exact .of_body rfl rfl

theorem Moves.still {p q : Heap × Multiset Handle} (hm : Moves g writes p q) (hr : ¬ writes r) :
    Still r p.1 q.1 := by
  induction hm with
  | refl => exact .refl r p.1
  | tail _ hstep ih =>
    obtain ⟨more, hmove⟩ := hstep
    exact ih.trans (hmove.still hr)

def Present (h : Heap) (v : Value) : Prop :=
  ∀ r, v = .ref r → ∃ e, h.lookup? r = some e

theorem Present.body (hr : h.Present (.ref r)) : ∃ b, h.body r = .ok b := by
  obtain ⟨e, he⟩ := hr r rfl
  exact ⟨e.body, body_of_lookup? he⟩

theorem Present.entry (hr : h.Present (.ref r)) (t : Touch) : ∃ e, h.entry t r = .ok e := by
  obtain ⟨e, he⟩ := hr r rfl
  exact ⟨e, entry_eq_ok.2 he⟩

theorem Present.typeOf (hv : h.Present v) : ∃ id, h.typeOf v = .ok id := by
  cases v with
  | ref r =>
    obtain ⟨b, hb⟩ := hv.body
    exact ⟨b.typeId, typeOf_ref hb⟩
  | _ => exact ⟨_, rfl⟩

theorem Present.retain (hv : h.Present v) : ∃ h', h.retain v = .ok h' := by
  cases v with
  | ref r =>
    obtain ⟨e, he⟩ := hv.entry .retain
    exact ⟨_, except_bind_eq_ok.2 ⟨e, he, rfl⟩⟩
  | _ => exact ⟨h, rfl⟩

theorem Present.grow (hr : h.Present (.ref r)) (bytes : Nat) : ∃ x, h.grow r bytes = .ok x := by
  obtain ⟨e, he⟩ := hr.entry .grow
  unfold Heap.grow
  cases h.meter.grow bytes with
  | error e => exact ⟨_, rfl⟩
  | ok p => exact ⟨_, except_bind_eq_ok.2 ⟨e, he, rfl⟩⟩

theorem Present.shrink (hr : h.Present (.ref r)) (bytes : Nat) : ∃ x, h.shrink r bytes = .ok x := by
  obtain ⟨e, he⟩ := hr.entry .shrink
  exact ⟨_, except_bind_eq_ok.2 ⟨e, he, rfl⟩⟩

/-- Values whose references are owned can be released, with everything that hangs on them. -/
theorem Accounted.releaseAll {vs : List Value} (ha : h.Accounted (owned + handles vs)) :
    ∃ h', h.releaseAll vs = .ok h' := by
  have howned {h : Heap} {r : Handle} {rest : List Value}
      (ha : h.Accounted (owned + handles (.ref r :: rest))) : ∃ e, h.lookup? r = some e :=
    ha.exists_of_owned (by simp)
  let g : Registry fun _ => Empty := .empty
  fun_induction Heap.releaseAll h vs with
  | case1 h => exact ⟨h, rfl⟩
  | case2 h r rest e hs hc ih =>
    have hm : Move g (fun _ => False) h {r} 0 _ := .release (lookup?_eq_some.2 hs) hc
    have hsplit : h.Accounted (owned + handles rest + {r}) := by
      simpa [add_assoc, add_comm, add_left_comm] using ha
    have hnext := hm.accounted hsplit
    exact ih (by simpa using hnext)
  | case3 h r rest e hs hc ih =>
    have hm : Move g (fun _ => False) h {r} _ _ :=
      .vacate (lookup?_eq_some.2 hs) (Nat.le_of_not_lt hc)
    have hsplit : h.Accounted (owned + handles rest + {r}) := by
      simpa [add_assoc, add_comm, add_left_comm] using ha
    have hnext := hm.accounted hsplit
    exact ih (by simpa [add_assoc, add_comm, add_left_comm] using hnext)
  | case4 h r rest hs =>
    obtain ⟨e, he⟩ := howned ha
    rw [lookup?_eq_some, hs] at he
    cases he
  | case5 h r rest hs =>
    obtain ⟨e, he⟩ := howned ha
    rw [lookup?_eq_some, hs] at he
    cases he
  | case6 h rest ih => exact ih (by simpa [Value.handles, Value.handle?] using ha)
  | case7 h _ rest ih => exact ih (by simpa [Value.handles, Value.handle?] using ha)
  | case8 h _ rest ih => exact ih (by simpa [Value.handles, Value.handle?] using ha)
  | case9 h _ rest ih => exact ih (by simpa [Value.handles, Value.handle?] using ha)

theorem Accounted.byteString (ha : h.Accounted owned) (b : UInt8) :
    ∃ x, h.byteString b = .ok x := by
  unfold Heap.byteString
  cases hl : h.byteStrings.lookup b with
  | some r =>
    obtain ⟨l₁, l₂, heq, -⟩ := List.lookup_eq_some_iff.1 hl
    have hkept : h.Present (.ref r) := by
      rintro _ ⟨⟩
      exact ha.exists_of_kept (b := b) (by simp [heq])
    obtain ⟨h₁, hr⟩ := hkept.retain
    exact ⟨_, except_bind_eq_ok.2 ⟨h₁, hr, rfl⟩⟩
  | none =>
    obtain ⟨x, hx⟩ := allocate_ok ha.free (.bytes [b])
    cases x with
    | error e => exact ⟨_, except_bind_eq_ok.2 ⟨_, hx, rfl⟩⟩
    | ok p =>
      obtain ⟨r, h₁⟩ := p
      obtain ⟨charge, hlookup⟩ := lookup?_allocate hx
      have hmade : h₁.Present (.ref r) := by
        rintro _ ⟨⟩
        exact ⟨⟨1, .bytes [b], charge⟩, by simp [hlookup]⟩
      obtain ⟨h₂, hr⟩ := hmade.retain
      exact ⟨_, except_bind_eq_ok.2 ⟨_, hx, except_bind_eq_ok.2 ⟨h₂, hr, rfl⟩⟩⟩

end Heap

end ItemAccess
