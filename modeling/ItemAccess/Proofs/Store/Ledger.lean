import ItemAccess.Object.Position
import ItemAccess.Proofs.Store.Slots
import ItemAccess.Slot.Registry
import ItemAccess.Store.Hash
import Mathlib.Algebra.Order.Group.Multiset

/-!
# Who holds the references

A reference to an object is owned by the host, stored in an object, or kept by the store for a
one-byte string. `Accounted` says that the counts are exactly the numbers of these references. The
store changes by moves, and a move takes some references from the one who makes it and gives others:
`Move.accounted` is the law of conservation from which the counts of whole runs follow.
-/

namespace ItemAccess

def Value.handles (v : Value) : Multiset Handle := (v.handle?.toList : Multiset Handle)

def handles (vs : List Value) : Multiset Handle := (vs.filterMap Value.handle? : Multiset Handle)

@[simp] theorem handles_nil : handles [] = 0 := rfl

@[simp] theorem handles_cons (v : Value) (vs : List Value) :
    handles (v :: vs) = v.handles + handles vs := by
  cases v <;> rfl

@[simp] theorem handles_append (vs ws : List Value) :
    handles (vs ++ ws) = handles vs + handles ws := by
  simp [handles, List.filterMap_append]

@[simp] theorem Value.handles_ref (r : Handle) : (Value.ref r).handles = {r} := rfl

theorem handles_perm {vs ws : List Value} (h : vs.Perm ws) : handles vs = handles ws :=
  Multiset.coe_eq_coe.2 (h.filterMap _)

theorem mem_handles {r : Handle} {vs : List Value} : r ∈ handles vs ↔ .ref r ∈ vs := by
  simp only [handles, Multiset.mem_coe, List.mem_filterMap]
  constructor
  · rintro ⟨v, hv, hr⟩
    cases v <;> simp_all [Value.handle?]
  · exact fun hr => ⟨.ref r, hr, rfl⟩

namespace Heap

def references (h : Heap) (r : Handle) : Nat :=
  (h.count? r).getD 0

/-- How often a handle is stored in objects: as item, as field, or as key or value of a dict. -/
def stored (h : Heap) (r : Handle) : Nat :=
  h.total fun e => (handles e.body.children).count r

/-- How often the store itself keeps a handle, as that of a one-byte string. -/
def kept (h : Heap) (r : Handle) : Nat :=
  h.byteStrings.countP (·.2 = r)

/-- The counts are those of the references that are owned, stored and kept. -/
structure Accounted (h : Heap) (owned : Multiset Handle) : Prop where
  counts : ∀ r, h.references r = owned.count r + h.stored r + h.kept r
  positive : ∀ r e, h.lookup? r = some e → 1 ≤ e.count
  free : h.FreeListed

variable {h h' : Heap} {r s : Handle} {e e' : Entry} {owned : Multiset Handle}

theorem references_of_lookup? (he : h.lookup? r = some e) : h.references r = e.count := by
  simp [references, count?, he]

theorem references_eq_zero (he : h.lookup? r = none) : h.references r = 0 := by
  simp [references, count?, he]

theorem references_put (he : h.lookup? r = some e) (e' : Entry) (s : Handle) :
    (h.put r e').references s = if s = r then e'.count else h.references s := by
  simp only [references, count?, lookup?_put he]
  split <;> rfl

theorem references_vacate (he : h.lookup? r = some e) (charge : Nat) (s : Handle) :
    (h.vacate r charge).references s = if s = r then 0 else h.references s := by
  simp only [references, count?, lookup?_vacate he]
  split <;> rfl

namespace Accounted

theorem isLive_iff (ha : h.Accounted owned) (r : Handle) :
    h.isLive r = true ↔ 1 ≤ h.references r := by
  cases he : h.lookup? r with
  | none => simp [isLive, he, references_eq_zero he]
  | some e => simpa [isLive, he, references_of_lookup? he] using ha.positive r e he

theorem exists_entry (ha : h.Accounted owned) (hr : 1 ≤ h.references r) :
    ∃ e, h.lookup? r = some e :=
  Heap.isLive_iff.1 ((ha.isLive_iff r).2 hr)

/-- What is owned is there. -/
theorem exists_of_owned (ha : h.Accounted owned) (hr : r ∈ owned) : ∃ e, h.lookup? r = some e := by
  have hc := ha.counts r
  have := Multiset.count_pos.2 hr
  exact ha.exists_entry (by omega)

/-- What an object holds is there. -/
theorem exists_of_stored (ha : h.Accounted owned) (he : h.lookup? s = some e)
    (hr : .ref r ∈ e.body.children) : ∃ e, h.lookup? r = some e := by
  have hc := ha.counts r
  have hle : (handles e.body.children).count r ≤ h.stored r :=
    le_total he fun e => (handles e.body.children).count r
  have := Multiset.count_pos.2 (mem_handles.2 hr)
  exact ha.exists_entry (by omega)

/-- What the store keeps is there. -/
theorem exists_of_kept (ha : h.Accounted owned) {b : UInt8} (hr : (b, r) ∈ h.byteStrings) :
    ∃ e, h.lookup? r = some e := by
  have hc := ha.counts r
  have : 0 < h.kept r := List.countP_pos_iff.2 ⟨_, hr, by simp⟩
  exact ha.exists_entry (by omega)

end Accounted

end Heap

variable {υ : SlotKind → Type}

/-- What may be put into the store: integers that are not immediate, and instances of the host's
types only. -/
def Body.Allowed (g : Registry υ) : Body → Prop
  | .bigInt n => Position.ofInt? n = none
  | .inst type _ => ∃ t, g.get? type = some t ∧ t.builtin = none
  | _ => True

/-- The entries of a dict have the keys of their key objects, and no two of these are equal. -/
structure Dict.Keyed (h : Heap) (entries : List DictEntry) : Prop where
  distinct : (entries.map (·.hash)).Nodup
  current : ∀ e ∈ entries, (h.hash e.key).run = .ok (.ok e.hash)

/-- How the contents of an object may change: its kind stays, and a dict gets an entry with the key of
the key object. -/
inductive Body.Becomes (h : Heap) : Body → Body → Prop
  | refl (b : Body) : Becomes h b b
  | list (items items' : List Value) : Becomes h (.list items) (.list items')
  | insert (entries : List DictEntry) {k : Key} {key : Value} (value : Value)
    (hk : (h.hash key).run = .ok (.ok k)) :
    Becomes h (.dict entries) (.dict (Dict.insert entries k key value).1)
  | remove {entries rest : List DictEntry} {k : Key} {e : DictEntry}
    (hr : Dict.remove? entries k = some (e, rest)) : Becomes h (.dict entries) (.dict rest)
  | inst (type : TypeId) (fields fields' : List Value) :
    Becomes h (.inst type fields) (.inst type fields')

theorem Body.Becomes.typeId {h : Heap} {b b' : Body} (hb : b.Becomes h b') :
    b'.typeId = b.typeId := by
  cases hb <;> rfl

/-- A move changes the store. It takes references from the one who makes it, and gives others. Of the
objects that are there it changes only the contents of those that `writes` names. -/
inductive Heap.Move (g : Registry υ) (writes : Handle → Prop) :
    Heap → Multiset Handle → Multiset Handle → Heap → Prop
  | retain {h : Heap} {r : Handle} {e : Entry} (he : h.lookup? r = some e) :
    Move g writes h 0 {r} (h.put r { e with count := e.count + 1 })
  | release {h : Heap} {r : Handle} {e : Entry} (he : h.lookup? r = some e) (hc : 1 < e.count) :
    Move g writes h {r} 0 (h.put r { e with count := e.count - 1 })
  | vacate {h : Heap} {r : Handle} {e : Entry} (he : h.lookup? r = some e) (hc : e.count ≤ 1) :
    Move g writes h {r} (handles e.body.children) (h.vacate r e.charge)
  | allocate {h h' : Heap} {b : Body} {r : Handle} (ha : h.allocate b = .ok (.ok (r, h')))
    (hb : b.Allowed g) (hk : ∀ entries, b = .dict entries → Dict.Keyed h entries) :
    Move g writes h (handles b.children) {r} h'
  | change {h : Heap} {r : Handle} {e : Entry} {b : Body} {taken given : Multiset Handle}
    (he : h.lookup? r = some e) (hw : writes r) (hb : e.body.Becomes h b)
    (hc : handles b.children + given = handles e.body.children + taken) :
    Move g writes h taken given (h.put r { e with body := b })
  | grow {h h' : Heap} {r : Handle} {bytes : Nat} (hg : h.grow r bytes = .ok (.ok h')) :
    Move g writes h 0 0 h'
  | shrink {h h' : Heap} {r : Handle} {bytes : Nat} (hs : h.shrink r bytes = .ok h') :
    Move g writes h 0 0 h'
  | keep {h : Heap} {r : Handle} {e : Entry} {b : UInt8} (he : h.lookup? r = some e)
    (hb : e.body = .bytes [b]) (hn : h.byteStrings.lookup b = none) :
    Move g writes h {r} 0 { h with byteStrings := (b, r) :: h.byteStrings }

namespace Heap

variable {h h' : Heap} {r : Handle} {e : Entry} {g : Registry υ} {writes : Handle → Prop}
  {owned : Multiset Handle}

theorem grow_cases {bytes : Nat} (hg : h.grow r bytes = .ok (.ok h')) :
    ∃ charge meter e, h.meter.grow bytes = .ok (charge, meter) ∧ h.lookup? r = some e ∧
      h' = { h with meter := meter }.put r { e with charge := e.charge + charge } := by
  unfold grow at hg
  cases hm : h.meter.grow bytes with
  | error e => simp [hm] at hg
  | ok p =>
    obtain ⟨charge, meter⟩ := p
    simp only [hm] at hg
    obtain ⟨e, he, hp⟩ := except_bind_eq_ok.1 hg
    refine ⟨charge, meter, e, rfl, entry_eq_ok.1 he, ?_⟩
    simpa only [pure, Except.pure, Except.ok.injEq, eq_comm] using hp

theorem shrink_cases {bytes : Nat} (hs : h.shrink r bytes = .ok h') :
    ∃ e, h.lookup? r = some e ∧ h' = { h with meter := h.meter.free (min e.charge bytes) }.put r
      { e with charge := e.charge - min e.charge bytes } := by
  obtain ⟨e, he, hp⟩ := except_bind_eq_ok.1 hs
  refine ⟨e, entry_eq_ok.1 he, ?_⟩
  simpa only [pure, Except.pure, Except.ok.injEq, eq_comm] using hp

inductive SlotChange (g : Registry υ) (writes : Handle → Prop) (h : Heap) (s : Handle)
    (taken : Multiset Handle) : Option Entry → Option Entry → Prop
  | unused : SlotChange g writes h s taken none none
  | kept {e e' : Entry} (hb : e.body.Becomes h e'.body)
    (hw : ¬ writes s → e'.body = e.body) :
    SlotChange g writes h s taken (some e) (some e')
  | freed {e : Entry} (hc : e.count ≤ 1) (ht : taken = {s}) :
    SlotChange g writes h s taken (some e) none
  | made {e : Entry} (hb : e.body.Allowed g) (ht : taken = handles e.body.children)
    (hk : ∀ entries, e.body = .dict entries → Dict.Keyed h entries) :
    SlotChange g writes h s taken none (some e)

theorem SlotChange.of_eq (s : Handle) (taken : Multiset Handle) (slot : Option Entry) :
    SlotChange g writes h s taken slot slot := by
  cases slot with
  | none => exact .unused
  | some e => exact .kept (.refl _) fun _ => rfl

theorem SlotChange.put (h₀ : Heap) {taken : Multiset Handle} (he : h₀.lookup? r = some e)
    (e' : Entry) (hb : e.body.Becomes h e'.body)
    (hw : ¬ writes r → e'.body = e.body) (s : Handle) :
    SlotChange g writes h s taken (h₀.lookup? s) ((h₀.put r e').lookup? s) := by
  rw [lookup?_put he]
  by_cases hs : s = r
  · subst hs
    rw [if_pos rfl, he]
    exact .kept hb hw
  · rw [if_neg hs]
    exact .of_eq s taken _

theorem SlotChange.put_same (h₀ : Heap) {taken : Multiset Handle} (he : h₀.lookup? r = some e)
    (e' : Entry) (hb : e'.body = e.body) (s : Handle) :
    SlotChange g writes h s taken (h₀.lookup? s) ((h₀.put r e').lookup? s) :=
  .put h₀ he e' (hb ▸ .refl _) (fun _ => hb) s

/-- Every move changes the slots in one of four ways. -/
theorem Move.slotChange {taken given : Multiset Handle} (hm : Move g writes h taken given h')
    (hf : h.FreeListed) (s : Handle) :
    SlotChange g writes h s taken (h.lookup? s) (h'.lookup? s) := by
  cases hm with
  | retain he => exact .put_same h he _ (by rfl) s
  | release he _ => exact .put_same h he _ (by rfl) s
  | @vacate r e he hc =>
    rw [lookup?_vacate he]
    by_cases hs : s = r
    · subst hs
      rw [if_pos rfl, he]
      exact .freed hc rfl
    · rw [if_neg hs]
      exact .of_eq s _ _
  | @allocate _ b r ha hb hk =>
    obtain ⟨charge, hlookup⟩ := lookup?_allocate ha
    rw [hlookup]
    by_cases hs : s = r
    · subst hs
      rw [if_pos rfl, lookup?_of_allocate hf ha]
      exact .made hb rfl hk
    · rw [if_neg hs]
      exact .of_eq s _ _
  | change he hw hb _ => exact .put h he _ hb (absurd hw) s
  | grow hg =>
    obtain ⟨_, meter, _, -, he, rfl⟩ := grow_cases hg
    exact .put_same { h with meter := meter } he _ (by rfl) s
  | shrink hk =>
    obtain ⟨_, he, rfl⟩ := shrink_cases hk
    exact .put_same { h with meter := h.meter.free _ } he _ (by rfl) s
  | keep _ _ _ => exact .of_eq s _ _

/-- Writing an entry keeps the accounts if count and contents change by what is taken and given. -/
theorem Accounted.put {taken given : Multiset Handle} (ha : h.Accounted (owned + taken))
    (he : h.lookup? r = some e) {e' : Entry} (hpos : 1 ≤ e'.count)
    (hc : ∀ s, (if s = r then e'.count else 0) + (handles e.body.children).count s +
      taken.count s = (if s = r then e.count else 0) + (handles e'.body.children).count s +
        given.count s) : (h.put r e').Accounted (owned + given) := by
  refine ⟨fun s => ?_, fun s e₁ hs => ?_, ha.free.put he e'⟩
  · have hold := ha.counts s
    have hstored : (h.put r e').stored s + (handles e.body.children).count s =
        h.stored s + (handles e'.body.children).count s :=
      total_put he (fun e => (handles e.body.children).count s) e'
    have hs := hc s
    have hkept : (h.put r e').kept s = h.kept s := rfl
    rw [references_put he, Multiset.count_add, hkept]
    rw [Multiset.count_add] at hold
    by_cases hsr : s = r
    · subst hsr
      rw [references_of_lookup? he] at hold
      simp only [if_true] at hs ⊢
      omega
    · simp only [if_neg hsr] at hs ⊢
      omega
  · rw [lookup?_put he] at hs
    split at hs
    · cases hs; exact hpos
    · exact ha.positive s e₁ hs

theorem Accounted.withMeter (ha : h.Accounted owned) (meter : Meter) :
    { h with meter := meter }.Accounted owned :=
  ⟨ha.counts, ha.positive, ha.free.empty, ha.free.nodup⟩

/-- The last reference to an object goes; those that it held pass to the one who gave it up. -/
theorem Accounted.vacate (ha : h.Accounted (owned + {r})) (he : h.lookup? r = some e)
    (hc : e.count ≤ 1) (charge : Nat) :
    (h.vacate r charge).Accounted (owned + handles e.body.children) := by
  have hold := ha.counts
  simp only [Multiset.count_add, Multiset.count_singleton] at hold
  refine ⟨fun s => ?_, fun s e₁ hs => ?_, ha.free.vacate he charge⟩
  · have hs := hold s
    have hr := hold r
    have hstored : (h.vacate r charge).stored s + (handles e.body.children).count s = h.stored s :=
      total_vacate he (fun e => (handles e.body.children).count s) charge
    have hkept : (h.vacate r charge).kept s = h.kept s := rfl
    rw [references_of_lookup? he, if_pos rfl] at hr
    rw [references_vacate he, Multiset.count_add, hkept]
    by_cases hsr : s = r
    · subst hsr
      rw [if_pos rfl]
      omega
    · rw [if_neg hsr] at hs ⊢
      omega
  · rw [lookup?_vacate he] at hs
    split at hs
    · cases hs
    · exact ha.positive s e₁ hs

/-- A new object takes over the references it holds, and the one reference to it is given. -/
theorem Accounted.allocate {b : Body} (ha : h.Accounted (owned + handles b.children))
    (hb : h.allocate b = .ok (.ok (r, h'))) : h'.Accounted (owned + {r}) := by
  have hold := ha.counts
  simp only [Multiset.count_add] at hold
  have hempty := lookup?_of_allocate ha.free hb
  obtain ⟨charge, hlookup⟩ := lookup?_allocate hb
  obtain ⟨charge', htotal⟩ := total_allocate ha.free hb
  refine ⟨fun s => ?_, fun s e₁ hs => ?_, ha.free.allocate hb⟩
  · have hs := hold s
    have hstored : h'.stored s = h.stored s + (handles b.children).count s :=
      htotal fun e => (handles e.body.children).count s
    have hkept : h'.kept s = h.kept s := by
      rw [kept, kept, byteStrings_allocate hb]
    have href : h'.references s = if s = r then 1 else h.references s := by
      simp only [references, count?, hlookup]
      split <;> rfl
    rw [href, Multiset.count_add, Multiset.count_singleton, hkept]
    by_cases hsr : s = r
    · subst hsr
      rw [references_eq_zero hempty] at hs
      simp only [if_true]
      omega
    · simp only [if_neg hsr]
      omega
  · rw [hlookup] at hs
    split at hs
    · cases hs; exact Nat.le_refl 1
    · exact ha.positive s e₁ hs

theorem Accounted.keep (ha : h.Accounted (owned + {r})) (b : UInt8) :
    { h with byteStrings := (b, r) :: h.byteStrings }.Accounted owned := by
  refine ⟨fun s => ?_, ha.positive, ha.free.empty, ha.free.nodup⟩
  have hs := ha.counts s
  have hkept : Heap.kept { h with byteStrings := (b, r) :: h.byteStrings } s =
      h.kept s + if s = r then 1 else 0 := by
    simp [Heap.kept, List.countP_cons, eq_comm]
  rw [Multiset.count_add, Multiset.count_singleton] at hs
  rw [hkept]
  change h.references s = Multiset.count s owned + h.stored s + _
  omega

/-- References are conserved by every move. -/
theorem Move.accounted {taken given : Multiset Handle} (hm : Move g writes h taken given h')
    (ha : h.Accounted (owned + taken)) : h'.Accounted (owned + given) := by
  cases hm with
  | retain he =>
    refine ha.put he (Nat.le_add_left 1 _) fun s => ?_
    simp only [Multiset.count_zero, Multiset.count_singleton]
    split <;> omega
  | release he hc =>
    refine ha.put he (by simpa using Nat.le_sub_one_of_lt hc) fun s => ?_
    simp only [Multiset.count_zero, Multiset.count_singleton]
    split <;> omega
  | vacate he hc => exact ha.vacate he hc _
  | allocate hb _ _ => exact ha.allocate hb
  | change he _ hb hc =>
    have hpos := ha.positive _ _ he
    refine ha.put he hpos fun s => ?_
    have hs := congrArg (Multiset.count s) hc
    simp only [Multiset.count_add] at hs
    simp only
    omega
  | grow hg =>
    obtain ⟨charge, meter, e, -, he, rfl⟩ := grow_cases hg
    have hpos := ha.positive _ _ he
    exact (ha.withMeter meter).put he hpos fun s => rfl
  | shrink hs =>
    obtain ⟨e, he, rfl⟩ := shrink_cases hs
    have hpos := ha.positive _ _ he
    exact Accounted.put (ha.withMeter (h.meter.free _)) he hpos fun s => rfl
  | keep he hb hn => simpa using ha.keep _

end Heap

end ItemAccess
