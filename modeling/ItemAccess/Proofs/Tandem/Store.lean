import ItemAccess.Proofs.Store.ReleaseOrder
import ItemAccess.Proofs.Tandem.Limits
import ItemAccess.Proofs.Tandem.Renaming
import Mathlib.Logic.Equiv.Basic

/-!
# Two stores side by side

Two stores mirror each other if a renaming of slots carries the one to the other: the same objects with
the same counts, in slots of other numbers. They may have other empty slots, and the second may have
looser limits. Every operation of the store, carried out on both, ends alike on both sides and leaves
them mirrored; only a refusal of the first need not have a counterpart.

Allocation may choose slots that were not matched so far. The renaming is then adjusted by a swap, which
leaves it as it was on the slots that are known. So that this can be said of slots that were freed on
the way, too, they must be at hand in the same order on both sides.
-/

namespace ItemAccess

variable {T : Terms}

structure Entry.Mirrors (T : Terms) (f : Handle → Handle) (e₁ e₂ : Entry) : Prop where
  count : e₂.count = e₁.count
  body : e₂.body = e₁.body.rename f
  charge : T.Charged → e₂.charge = e₁.charge

inductive Entry.Match (T : Terms) (f : Handle → Handle) : Option Entry → Option Entry → Prop
  | empty : Match T f none none
  | used {e₁ e₂ : Entry} (h : e₁.Mirrors T f e₂) : Match T f (some e₁) (some e₂)

/-- A slot is given other contents on both sides. -/
theorem Entry.Match.update {f : Equiv.Perm Handle} {l₁ l₂ : Handle → Option Entry}
    {x₁ x₂ : Option Entry} (hl : ∀ s, Match T f (l₁ s) (l₂ (f s))) (hx : Match T f x₁ x₂)
    (r s : Handle) :
    Match T f (if s = r then x₁ else l₁ s) (if f s = f r then x₂ else l₂ (f s)) := by
  by_cases hsr : s = r
  · rw [if_pos hsr, if_pos (congrArg f hsr)]
    exact hx
  · rw [if_neg hsr, if_neg fun h => hsr (f.injective h)]
    exact hl s

namespace Heap

variable {f : Equiv.Perm Handle} {known : Handle → Prop} {h h' h₁ h₂ : Heap} {r : Handle} {e : Entry}
  {b : Body} {v : Value}

/-- The renaming `f` carries the first store to the second. What objects mention is known. Where the
slots are not the same, the known ones are in use, or they were freed in the same order on both sides
and are the next to be used. -/
structure Mirrors (T : Terms) (f : Equiv.Perm Handle) (known : Handle → Prop) (h₁ h₂ : Heap) :
    Prop where
  slots : ∀ r, Entry.Match T f (h₁.lookup? r) (h₂.lookup? (f r))
  closed : ∀ r e, h₁.lookup? r = some e → known r ∧ e.body.Among known
  byteStrings : ∀ b, h₂.byteStrings.lookup b = (h₁.byteStrings.lookup b).map f
  kept : ∀ b r, h₁.byteStrings.lookup b = some r → known r
  meter : h₁.meter.Mirrors T h₂.meter
  listed₁ : h₁.FreeListed
  listed₂ : h₂.FreeListed
  free : ∃ freed rest₁ rest₂, h₁.free = freed ++ rest₁ ∧ h₂.free = freed.map f ++ rest₂ ∧
    (T.aligned → rest₂ = rest₁) ∧ (¬ T.aligned → ∀ r, known r → h₁.isLive r = true ∨ r ∈ freed)
  aligned : T.aligned →
    f = Equiv.refl Handle ∧ h₂.slots.size = h₁.slots.size ∧ h₂.byteStrings = h₁.byteStrings

theorem lt_size_of_isLive (hr : h.isLive r = true) : r.index < h.slots.size := by
  obtain ⟨e, he⟩ := isLive_iff.1 hr
  exact (Array.getElem?_eq_some_iff.1 (lookup?_eq_some.1 he)).1

theorem entry_of_none (hr : h.lookup? r = none) (t : Touch) :
    h.entry t r = .error (if r.index < h.slots.size then .freed t else .missing t) := by
  unfold lookup? at hr
  unfold entry
  split
  case h_1 e he => simp [he] at hr
  case h_2 he => rw [if_pos (Array.getElem?_eq_some_iff.1 he).1]
  case h_3 he => rw [if_neg (by simpa using he)]

namespace Mirrors

theorem live (hm : h₁.Mirrors T f known h₂) (he : h₁.lookup? r = some e) :
    ∃ e', h₂.lookup? (f r) = some e' ∧ e.Mirrors T f e' := by
  have hmatch := hm.slots r
  rw [he] at hmatch
  generalize h₂.lookup? (f r) = x at hmatch
  cases hmatch with
  | used h => exact ⟨_, rfl, h⟩

theorem empty (hm : h₁.Mirrors T f known h₂) (hr : h₁.lookup? r = none) :
    h₂.lookup? (f r) = none := by
  have hmatch := hm.slots r
  rw [hr] at hmatch
  generalize h₂.lookup? (f r) = x at hmatch
  cases hmatch
  rfl

theorem isLive (hm : h₁.Mirrors T f known h₂) (r : Handle) : h₂.isLive (f r) = h₁.isLive r := by
  have hmatch := hm.slots r
  unfold Heap.isLive
  generalize h₁.lookup? r = x at hmatch
  generalize h₂.lookup? (f r) = y at hmatch
  cases hmatch <;> rfl

/-- Both stores have a slot for a known handle, or neither has. -/
theorem inBounds (hm : h₁.Mirrors T f known h₂) (hr : known r) :
    (f r).index < h₂.slots.size ↔ r.index < h₁.slots.size := by
  by_cases hT : T.aligned
  · obtain ⟨rfl, hsize, -⟩ := hm.aligned hT
    rw [hsize]
    rfl
  obtain ⟨freed, rest₁, rest₂, hfree₁, hfree₂, -, hlive⟩ := hm.free
  rcases hlive hT r hr with hr | hr
  · have hr' := (hm.isLive r).trans hr
    exact iff_of_true (lt_size_of_isLive hr') (lt_size_of_isLive hr)
  · have hr₁ := hm.listed₁.empty r (by simp [hfree₁, hr])
    have hr₂ := hm.listed₂.empty (f r) (by simp [hfree₂, hr])
    exact iff_of_true (Array.getElem?_eq_some_iff.1 hr₂).1 (Array.getElem?_eq_some_iff.1 hr₁).1

theorem entry (hm : h₁.Mirrors T f known h₂) (t : Touch) (hr : known r) :
    Both (fun e e' => h₁.lookup? r = some e ∧ e.Mirrors T f e') (h₁.entry t r)
      (h₂.entry t (f r)) := by
  cases he : h₁.lookup? r with
  | some e =>
    obtain ⟨e', he', hmirror⟩ := hm.live he
    rw [entry_eq_ok.2 he, entry_eq_ok.2 he']
    exact .ok ⟨rfl, hmirror⟩
  | none =>
    rw [entry_of_none he, entry_of_none (hm.empty he), if_congr (hm.inBounds hr) rfl rfl]
    exact .error _

theorem body (hm : h₁.Mirrors T f known h₂) (hr : known r) :
    Both (fun b b' => h₁.body r = .ok b ∧ b' = b.rename f) (h₁.body r) (h₂.body (f r)) := by
  apply (hm.entry .get hr).map
  rintro e e' ⟨he, hmirror⟩
  exact ⟨body_of_lookup? he, hmirror.body⟩

theorem typeOf (hm : h₁.Mirrors T f known h₂) (hv : v.Among known) :
    Both (fun id id' => h₁.typeOf v = .ok id ∧ id' = id) (h₁.typeOf v) (h₂.typeOf (v.rename f)) := by
  cases v with
  | ref r =>
    apply (hm.body (hv r rfl)).map
    rintro b b' ⟨hb, rfl⟩
    exact ⟨typeOf_ref hb, Body.typeId_rename f b⟩
  | _ => exact .ok ⟨rfl, rfl⟩

theorem among (hm : h₁.Mirrors T f known h₂) (hb : h₁.body r = .ok b) : b.Among known := by
  obtain ⟨e, he, rfl⟩ := body_eq_ok.1 hb
  exact (hm.closed r e he).2

/-- Another count, contents or charge in the same slot. -/
theorem put (hm : h₁.Mirrors T f known h₂) {e₁ e₂ : Entry} (he : h₁.lookup? r = some e)
    (hmirror : e₁.Mirrors T f e₂) (hknown : e₁.body.Among known) :
    (h₁.put r e₁).Mirrors T f known (h₂.put (f r) e₂) := by
  obtain ⟨e', he', -⟩ := hm.live he
  refine ⟨fun s => ?_, fun s d hs => ?_, hm.byteStrings, hm.kept, hm.meter, hm.listed₁.put he e₁,
    hm.listed₂.put he' e₂, ?_, fun hT => ?_⟩
  · rw [lookup?_put he, lookup?_put he']
    exact .update hm.slots (.used hmirror) r s
  · rw [lookup?_put he] at hs
    by_cases hsr : s = r
    · rw [if_pos hsr] at hs
      cases hs
      exact ⟨hsr ▸ (hm.closed r e he).1, hknown⟩
    · rw [if_neg hsr] at hs
      exact hm.closed s d hs
  · obtain ⟨freed, rest₁, rest₂, hfree₁, hfree₂, hrest, hlive⟩ := hm.free
    refine ⟨freed, rest₁, rest₂, hfree₁, hfree₂, hrest, fun hT s hs => (hlive hT s hs).imp_left ?_⟩
    intro hs
    rw [Heap.isLive, lookup?_put he]
    by_cases hsr : s = r
    · rw [if_pos hsr]
      rfl
    · rw [if_neg hsr]
      exact hs
  · obtain ⟨hf, hsize, hbytes⟩ := hm.aligned hT
    exact ⟨hf, by simpa [Heap.put] using hsize, hbytes⟩

theorem withMeter (hm : h₁.Mirrors T f known h₂) {m₁ m₂ : Meter} (hmeter : m₁.Mirrors T m₂) :
    { h₁ with meter := m₁ }.Mirrors T f known { h₂ with meter := m₂ } :=
  ⟨hm.slots, hm.closed, hm.byteStrings, hm.kept, hmeter, ⟨hm.listed₁.empty, hm.listed₁.nodup⟩,
    ⟨hm.listed₂.empty, hm.listed₂.nodup⟩, hm.free, hm.aligned⟩

theorem retainHandle (hm : h₁.Mirrors T f known h₂) (hr : known r) :
    Both (fun h h' => h.Mirrors T f known h') (h₁.retainHandle r) (h₂.retainHandle (f r)) := by
  apply (hm.entry .retain hr).bind
  rintro e e' ⟨he, hmirror⟩
  exact .ok (hm.put he ⟨congrArg (· + 1) hmirror.count, hmirror.body, hmirror.charge⟩
    (hm.closed r e he).2)

theorem retain (hm : h₁.Mirrors T f known h₂) (hv : v.Among known) :
    Both (fun h h' => h.Mirrors T f known h') (h₁.retain v) (h₂.retain (v.rename f)) := by
  cases v with
  | ref r => exact hm.retainHandle (hv r rfl)
  | _ => exact .ok hm

theorem setBody (hm : h₁.Mirrors T f known h₂) (hr : known r) (hb : b.Among known) :
    Both (fun h h' => h.Mirrors T f known h') (h₁.setBody r b) (h₂.setBody (f r) (b.rename f)) := by
  apply (hm.entry .change hr).bind
  rintro e e' ⟨he, hmirror⟩
  exact .ok (hm.put he ⟨hmirror.count, rfl, hmirror.charge⟩ hb)

theorem grow (hm : h₁.Mirrors T f known h₂) (hr : known r) (bytes : Nat) :
    T.Served (fun h h' => h.Mirrors T f known h') (h₁.grow r bytes) (h₂.grow (f r) bytes) := by
  have hmeter := hm.meter.grow bytes
  unfold Heap.grow
  generalize h₁.meter.grow bytes = x₁ at hmeter ⊢
  generalize h₂.meter.grow bytes = x₂ at hmeter ⊢
  cases hmeter with
  | error e => exact .error e
  | refused hne e y => exact .refused hne e _
  | ok h =>
    obtain ⟨hmeter, hcharge⟩ := h
    have hentry := hm.entry .grow hr
    generalize h₁.entry .grow r = y₁ at hentry ⊢
    generalize h₂.entry .grow (f r) = y₂ at hentry ⊢
    cases hentry with
    | error k => exact .fault k
    | ok h =>
      obtain ⟨he, hmirror⟩ := h
      refine .ok ((hm.withMeter hmeter).put he ⟨hmirror.count, hmirror.body, fun hT => ?_⟩
        (hm.closed r _ he).2)
      simp only [hmirror.charge hT, hcharge hT]

theorem shrink (hm : h₁.Mirrors T f known h₂) (hr : known r) (bytes : Nat) :
    Both (fun h h' => h.Mirrors T f known h') (h₁.shrink r bytes) (h₂.shrink (f r) bytes) := by
  apply (hm.entry .shrink hr).bind
  rintro e e' ⟨he, hmirror⟩
  have hreleased (hT : T.Charged) : min e'.charge bytes = min e.charge bytes := by
    rw [hmirror.charge hT]
  refine .ok ((hm.withMeter (hm.meter.free hreleased)).put he
    ⟨hmirror.count, hmirror.body, fun hT => ?_⟩ (hm.closed r e he).2)
  simp only [hmirror.charge hT]

/-- A slot freed on both sides is the next to be used on both. -/
theorem vacate (hm : h₁.Mirrors T f known h₂) (he : h₁.lookup? r = some e) {c₁ c₂ : Nat}
    (hc : T.Charged → c₂ = c₁) : (h₁.vacate r c₁).Mirrors T f known (h₂.vacate (f r) c₂) := by
  obtain ⟨e', he', -⟩ := hm.live he
  refine ⟨fun s => ?_, fun s d hs => ?_, hm.byteStrings, hm.kept, hm.meter.free hc,
    hm.listed₁.vacate he c₁, hm.listed₂.vacate he' c₂, ?_, fun hT => ?_⟩
  · rw [lookup?_vacate he, lookup?_vacate he']
    exact .update hm.slots .empty r s
  · rw [lookup?_vacate he] at hs
    by_cases hsr : s = r
    · simp [hsr] at hs
    · rw [if_neg hsr] at hs
      exact hm.closed s d hs
  · obtain ⟨freed, rest₁, rest₂, hfree₁, hfree₂, hrest, hlive⟩ := hm.free
    refine ⟨r :: freed, rest₁, rest₂, congrArg (r :: ·) hfree₁, congrArg (f r :: ·) hfree₂, hrest,
      fun hT s hs => ?_⟩
    by_cases hsr : s = r
    · exact .inr (by simp [hsr])
    · refine (hlive hT s hs).imp (fun hs => ?_) (List.mem_cons_of_mem r)
      rw [Heap.isLive, lookup?_vacate he, if_neg hsr]
      exact hs
  · obtain ⟨hf, hsize, hbytes⟩ := hm.aligned hT
    exact ⟨hf, by simpa [Heap.vacate] using hsize, hbytes⟩

end Mirrors

theorem releaseAll_of_none (hr : h.lookup? r = none) (rest : List Value) :
    h.releaseAll (.ref r :: rest) =
      .error (if r.index < h.slots.size then .freed .release else .missing .release) := by
  unfold lookup? at hr
  rw [releaseAll]
  split
  case h_1 e he => simp [he] at hr
  case h_2 he => rw [if_pos (Array.getElem?_eq_some_iff.1 he).1]
  case h_3 he => rw [if_neg (by simpa using he)]

namespace Mirrors

/-- The induction follows the release in the first store. -/
theorem releaseAll (hm : h₁.Mirrors T f known h₂) {vs : List Value} (hvs : ∀ v ∈ vs, v.Among known) :
    Both (fun h h' => h.Mirrors T f known h') (h₁.releaseAll vs)
      (h₂.releaseAll (vs.map (Value.rename f))) := by
  have hnext {h₂ : Heap} (v : Value) (hv : v.handle? = none) (rest : List Value) :
      h₂.releaseAll ((v :: rest).map (Value.rename f)) =
        h₂.releaseAll (rest.map (Value.rename f)) := by
    cases v with
    | ref r => cases hv
    | _ => simp [Value.rename, Heap.releaseAll]
  fun_induction Heap.releaseAll h₁ vs generalizing h₂ with
  | case1 h =>
    rw [List.map_nil, Heap.releaseAll]
    exact .ok hm
  | case2 h r rest e hs hc ih =>
    have he := lookup?_eq_some.2 hs
    obtain ⟨e', he', hmirror⟩ := hm.live he
    rw [List.map_cons, Value.rename, releaseAll_ref he', hmirror.count, if_pos hc]
    apply ih _ (List.forall_mem_cons.1 hvs).2
    exact hm.put he ⟨rfl, hmirror.body, hmirror.charge⟩ (hm.closed r e he).2
  | case3 h r rest e hs hc ih =>
    have he := lookup?_eq_some.2 hs
    obtain ⟨e', he', hmirror⟩ := hm.live he
    rw [List.map_cons, Value.rename, releaseAll_ref he', hmirror.count, if_neg hc, hmirror.body,
      Body.children_rename, ← List.map_append]
    have hchildren := (hm.closed r e he).2.children
    exact ih (hm.vacate he hmirror.charge)
      (List.forall_mem_append.2 ⟨hchildren, (List.forall_mem_cons.1 hvs).2⟩)
  | case4 h r rest hs =>
    have hr : h.lookup? r = none := by simp [lookup?, hs]
    have hbound : r.index < h.slots.size := (Array.getElem?_eq_some_iff.1 hs).1
    rw [List.map_cons, Value.rename, releaseAll_of_none (hm.empty hr),
      if_pos ((hm.inBounds (hvs _ (.head _) r rfl)).2 hbound)]
    exact .error _
  | case5 h r rest hs =>
    have hr : h.lookup? r = none := by simp [lookup?, hs]
    have hbound : ¬ r.index < h.slots.size := by simpa using hs
    rw [List.map_cons, Value.rename, releaseAll_of_none (hm.empty hr),
      if_neg (mt (hm.inBounds (hvs _ (.head _) r rfl)).1 hbound)]
    exact .error _
  | case6 h rest ih =>
    rw [hnext _ rfl]
    exact ih hm (List.forall_mem_cons.1 hvs).2
  | case7 h _ rest ih =>
    rw [hnext _ rfl]
    exact ih hm (List.forall_mem_cons.1 hvs).2
  | case8 h _ rest ih =>
    rw [hnext _ rfl]
    exact ih hm (List.forall_mem_cons.1 hvs).2
  | case9 h _ rest ih =>
    rw [hnext _ rfl]
    exact ih hm (List.forall_mem_cons.1 hvs).2

end Mirrors

def next (h : Heap) : Handle :=
  h.free.headD ⟨h.slots.size⟩

theorem lookup?_next (hfree : h.FreeListed) : h.lookup? h.next = none := by
  unfold next
  cases hf : h.free with
  | nil => simp [lookup?]
  | cons r free =>
    have := hfree.empty r (by simp [hf])
    simp [lookup?, this]

structure Extends (h : Heap) (e : Entry) (h' : Heap) : Prop where
  lookup? : ∀ s, h'.lookup? s = if s = h.next then some e else h.lookup? s
  free : h'.free = h.free.tail
  size : h'.slots.size = if h.free = [] then h.slots.size + 1 else h.slots.size
  byteStrings : h'.byteStrings = h.byteStrings
  listed : h'.FreeListed

/-- What the meter grants is put into the next slot. -/
theorem allocate_extends (hfree : h.FreeListed) {charge : Nat} {meter : Meter}
    (hmeter : h.meter.allocate b.size = .ok (charge, meter)) :
    ∃ h', h.allocate b = .ok (.ok (h.next, h')) ∧ h.Extends ⟨1, b, charge⟩ h' ∧ h'.meter = meter := by
  obtain ⟨x, hx⟩ := allocate_ok hfree b
  cases x with
  | error e =>
    unfold allocate at hx
    rw [hmeter] at hx
    dsimp only at hx
    split at hx
    · split at hx <;> cases hx
    · cases hx
  | ok p =>
    obtain ⟨r, h'⟩ := p
    obtain ⟨charge', hmeter', hlookup, -⟩ := allocate_spec hx
    cases hmeter'.symm.trans hmeter
    obtain ⟨rfl, htail, hsize⟩ : h.next = r ∧ h'.free = h.free.tail ∧
        h'.slots.size = if h.free = [] then h.slots.size + 1 else h.slots.size := by
      obtain ⟨_, _, -, ⟨free, hf, -, rfl⟩ | ⟨hf, rfl, rfl⟩⟩ := allocate_cases hx <;> simp [next, hf]
    exact ⟨h', hx, ⟨hlookup, htail, hsize, byteStrings_allocate hx, hfree.allocate hx⟩, rfl⟩

theorem Extends.isLive {s : Handle} (hx : h.Extends e h') (hs : h.isLive s = true) :
    h'.isLive s = true := by
  rw [Heap.isLive, hx.lookup?]
  split
  · rfl
  · exact hs

theorem Extends.isLive_next (hx : h.Extends e h') : h'.isLive h.next = true := by
  rw [Heap.isLive, hx.lookup?, if_pos rfl]
  rfl

namespace Mirrors

def matched (f : Equiv.Perm Handle) (h₁ h₂ : Heap) : Equiv.Perm Handle :=
  f.trans (Equiv.swap (f h₁.next) h₂.next)

theorem matched_next (f : Equiv.Perm Handle) (h₁ h₂ : Heap) : matched f h₁ h₂ h₁.next = h₂.next := by
  simp [matched]

theorem matched_eq (h : h₂.next = f h₁.next) : matched f h₁ h₂ = f := by
  simp [matched, h]

/-- The slots freed last are matched already. -/
theorem next_eq {freed rest₁ rest₂ : List Handle} (hfree₁ : h₁.free = freed ++ rest₁)
    (hfree₂ : h₂.free = freed.map f ++ rest₂) (hfreed : freed ≠ []) : h₂.next = f h₁.next := by
  cases freed with
  | nil => exact absurd rfl hfreed
  | cons r freed => simp [next, hfree₁, hfree₂]

/-- Aligned stores use the same slot next. -/
theorem next_of_aligned (hm : h₁.Mirrors T f known h₂) (hT : T.aligned) : h₂.next = f h₁.next := by
  obtain ⟨freed, rest₁, rest₂, hfree₁, hfree₂, hrest, -⟩ := hm.free
  obtain ⟨rfl, hsize, -⟩ := hm.aligned hT
  simp [next, hfree₁, hfree₂, hrest hT, hsize]

/-- The swap moves no slot that is known: the slots to be used next are matched, or none was freed and
all that is known is in use. -/
theorem matched_of_known (hm : h₁.Mirrors T f known h₂) (hr : known r) :
    matched f h₁ h₂ r = f r := by
  by_cases hT : T.aligned
  · rw [matched_eq (hm.next_of_aligned hT)]
  obtain ⟨freed, rest₁, rest₂, hfree₁, hfree₂, -, hlive⟩ := hm.free
  cases freed with
  | cons s freed => rw [matched_eq (next_eq hfree₁ hfree₂ (by simp))]
  | nil =>
    obtain hr | hr := hlive hT r hr
    · obtain ⟨e, he⟩ := isLive_iff.1 hr
      obtain ⟨e', he', -⟩ := hm.live he
      have hne₁ : f r ≠ f h₁.next := by
        intro heq
        rw [f.injective heq, lookup?_next hm.listed₁] at he
        cases he
      have hne₂ : f r ≠ h₂.next := by
        intro heq
        rw [heq, lookup?_next hm.listed₂] at he'
        cases he'
      simp [matched, Equiv.swap_apply_of_ne_of_ne hne₁ hne₂]
    · cases hr

/-- A slot that is empty on one side is empty on the other, after the swap as well. -/
theorem slots_matched (hm : h₁.Mirrors T f known h₂) (s : Handle) :
    Entry.Match T (matched f h₁ h₂) (h₁.lookup? s) (h₂.lookup? (matched f h₁ h₂ s)) := by
  cases he : h₁.lookup? s with
  | some e =>
    obtain ⟨hs, hbody⟩ := hm.closed s e he
    obtain ⟨e', he', hmirror⟩ := hm.live he
    rw [hm.matched_of_known hs, he']
    refine .used ⟨hmirror.count, hmirror.body.trans ?_, hmirror.charge⟩
    exact Body.rename_congr fun r hr => (hm.matched_of_known (hbody r hr)).symm
  | none =>
    have hempty : h₂.lookup? (matched f h₁ h₂ s) = none := by
      by_cases hs₁ : s = h₁.next
      · rw [hs₁, matched_next]
        exact lookup?_next hm.listed₂
      have hne : f s ≠ f h₁.next := fun h => hs₁ (f.injective h)
      by_cases hs₂ : f s = h₂.next
      · have hswap : matched f h₁ h₂ s = f h₁.next := by simp [matched, hs₂]
        rw [hswap]
        exact hm.empty (lookup?_next hm.listed₁)
      · have hsame : matched f h₁ h₂ s = f s := by
          simp [matched, Equiv.swap_apply_of_ne_of_ne hne hs₂]
        rw [hsame]
        exact hm.empty he
    rw [hempty]
    exact .empty

/-- The free lists still start with what was freed on the way. -/
theorem free_extended (hm : h₁.Mirrors T f known h₂) {e₁ e₂ : Entry} {h₁' h₂' : Heap}
    (hx₁ : h₁.Extends e₁ h₁') (hx₂ : h₂.Extends e₂ h₂') :
    ∃ freed rest₁ rest₂, h₁'.free = freed ++ rest₁ ∧
      h₂'.free = freed.map (matched f h₁ h₂) ++ rest₂ ∧ (T.aligned → rest₂ = rest₁) ∧
      (¬ T.aligned → ∀ r, known r ∨ r = h₁.next → h₁'.isLive r = true ∨ r ∈ freed) := by
  obtain ⟨freed, rest₁, rest₂, hfree₁, hfree₂, hrest, hlive⟩ := hm.free
  cases freed with
  | nil =>
    refine ⟨[], rest₁.tail, rest₂.tail, ?_, ?_, fun hT => congrArg _ (hrest hT), fun hT r hr => .inl ?_⟩
    · rw [hx₁.free, hfree₁, List.nil_append, List.nil_append]
    · rw [hx₂.free, hfree₂, List.map_nil, List.nil_append, List.map_nil, List.nil_append]
    · rcases hr with hr | rfl
      · exact hx₁.isLive ((hlive hT r hr).resolve_right List.not_mem_nil)
      · exact hx₁.isLive_next
  | cons s freed =>
    have hs : h₁.next = s := by simp [next, hfree₁]
    refine ⟨freed, rest₁, rest₂, ?_, ?_, hrest, fun hT r hr => ?_⟩
    · rw [hx₁.free, hfree₁, List.cons_append, List.tail_cons]
    · rw [hx₂.free, hfree₂, matched_eq (next_eq hfree₁ hfree₂ (by simp)), List.map_cons,
        List.cons_append, List.tail_cons]
    · by_cases hrs : r = h₁.next
      · exact .inl (hrs ▸ hx₁.isLive_next)
      · refine (hlive hT r (hr.resolve_right hrs)).imp hx₁.isLive fun hmem => ?_
        exact (List.mem_cons.1 hmem).resolve_left (hs ▸ hrs)

theorem extended (hm : h₁.Mirrors T f known h₂) {e₁ e₂ : Entry} {h₁' h₂' : Heap}
    (hx₁ : h₁.Extends e₁ h₁') (hx₂ : h₂.Extends e₂ h₂') (hmeter : h₁'.meter.Mirrors T h₂'.meter)
    (hmirror : e₁.Mirrors T f e₂) (hknown : e₁.body.Among known) :
    h₁'.Mirrors T (matched f h₁ h₂) (fun r => known r ∨ r = h₁.next) h₂' := by
  refine ⟨fun s => ?_, fun s e he => ?_, fun b => ?_, fun b r hr => .inl ?_, hmeter, hx₁.listed,
    hx₂.listed, hm.free_extended hx₁ hx₂, fun hT => ?_⟩
  · have hbody : e₂.body = e₁.body.rename (matched f h₁ h₂) :=
      hmirror.body.trans (Body.rename_congr fun r hr => (hm.matched_of_known (hknown r hr)).symm)
    rw [hx₁.lookup?, hx₂.lookup?, ← matched_next f h₁ h₂]
    exact .update hm.slots_matched (.used ⟨hmirror.count, hbody, hmirror.charge⟩) h₁.next s
  · rw [hx₁.lookup?] at he
    by_cases hs : s = h₁.next
    · rw [if_pos hs] at he
      cases he
      exact ⟨.inr hs, fun r hr => .inl (hknown r hr)⟩
    · rw [if_neg hs] at he
      exact (hm.closed s e he).imp .inl fun h r hr => .inl (h r hr)
  · rw [hx₁.byteStrings, hx₂.byteStrings, hm.byteStrings]
    cases hr : h₁.byteStrings.lookup b with
    | none => rfl
    | some r => exact congrArg some (hm.matched_of_known (hm.kept b r hr)).symm
  · rw [hx₁.byteStrings] at hr
    exact hm.kept b r hr
  · obtain ⟨hf, hsize, hbytes⟩ := hm.aligned hT
    obtain ⟨freed, rest₁, rest₂, hfree₁, hfree₂, hrest, -⟩ := hm.free
    have hfree : h₂.free = h₁.free := by
      rw [hfree₁, hfree₂, hf, hrest hT]
      simp
    refine ⟨(matched_eq (hm.next_of_aligned hT)).trans hf, ?_, ?_⟩
    · rw [hx₁.size, hx₂.size, hfree, hsize]
    · rw [hx₁.byteStrings, hx₂.byteStrings, hbytes]

/-- Handles that name the same object on both sides, after the renaming has been adjusted: on what was
known it is as before. -/
def Placed (T : Terms) (f : Equiv.Perm Handle) (known : Handle → Prop) (p₁ p₂ : Handle × Heap) : Prop :=
  ∃ (f' : Equiv.Perm Handle) (known' : Handle → Prop), (∀ r, known r → f' r = f r ∧ known' r) ∧
    known' p₁.1 ∧ p₂.1 = f' p₁.1 ∧ p₁.2.Mirrors T f' known' p₂.2

/-- A new object is put into slots that are then matched. -/
theorem allocate (hm : h₁.Mirrors T f known h₂) (hb : b.Among known) :
    T.Served (Placed T f known) (h₁.allocate b) (h₂.allocate (b.rename f)) := by
  have hmeter := hm.meter.allocate b.size
  generalize hm₁ : h₁.meter.allocate b.size = x₁ at hmeter
  generalize hm₂ : h₂.meter.allocate b.size = x₂ at hmeter
  have hrefused {h : Heap} {b : Body} {e : LimitError} (he : h.meter.allocate b.size = .error e) :
      h.allocate b = .ok (.error e) := by
    simp [Heap.allocate, he]
  rw [← Body.size_rename f b] at hm₂
  cases hmeter with
  | error e =>
    rw [hrefused hm₁, hrefused hm₂]
    exact .error e
  | refused hne e y =>
    rw [hrefused hm₁]
    exact .refused hne e _
  | ok h =>
    obtain ⟨hmeter, hcharge⟩ := h
    obtain ⟨h₁', ha₁, hx₁, hmeter₁⟩ := allocate_extends hm.listed₁ hm₁
    obtain ⟨h₂', ha₂, hx₂, hmeter₂⟩ := allocate_extends hm.listed₂ hm₂
    rw [ha₁, ha₂]
    refine .ok ⟨matched f h₁ h₂, fun r => known r ∨ r = h₁.next,
      fun r hr => ⟨hm.matched_of_known hr, .inl hr⟩, .inr rfl, (matched_next f h₁ h₂).symm, ?_⟩
    exact hm.extended hx₁ hx₂ (hmeter₁ ▸ hmeter₂ ▸ hmeter) ⟨rfl, rfl, hcharge⟩ hb

/-- Both stores keep the byte string of one more byte. -/
theorem keep (hm : h₁.Mirrors T f known h₂) (hr : known r) (b : UInt8) :
    { h₁ with byteStrings := (b, r) :: h₁.byteStrings }.Mirrors T f known
      { h₂ with byteStrings := (b, f r) :: h₂.byteStrings } := by
  refine ⟨hm.slots, hm.closed, fun c => ?_, fun c s hs => ?_, hm.meter,
    ⟨hm.listed₁.empty, hm.listed₁.nodup⟩, ⟨hm.listed₂.empty, hm.listed₂.nodup⟩, hm.free, fun hT => ?_⟩
  · rw [List.lookup_cons, List.lookup_cons]
    split
    · rfl
    · exact hm.byteStrings c
  · rw [List.lookup_cons] at hs
    split at hs
    · cases hs
      exact hr
    · exact hm.kept c s hs
  · obtain ⟨rfl, hsize, hbytes⟩ := hm.aligned hT
    exact ⟨rfl, hsize, congrArg ((b, r) :: ·) hbytes⟩

theorem byteString (hm : h₁.Mirrors T f known h₂) (b : UInt8) :
    T.Served (Placed T f known) (h₁.byteString b) (h₂.byteString b) := by
  unfold Heap.byteString
  rw [hm.byteStrings b]
  cases hr : h₁.byteStrings.lookup b with
  | some r =>
    have hretain := hm.retainHandle (hm.kept b r hr)
    simp only [Option.map_some]
    generalize h₁.retainHandle r = x₁ at hretain ⊢
    generalize h₂.retainHandle (f r) = x₂ at hretain ⊢
    cases hretain with
    | ok hm' => exact .ok ⟨f, known, fun r hr => ⟨rfl, hr⟩, hm.kept b r hr, rfl, hm'⟩
    | error k => exact .fault k
  | none =>
    have hplaced : T.Served (Placed T f known) (h₁.allocate (.bytes [b])) (h₂.allocate (.bytes [b])) :=
      hm.allocate (b := .bytes [b]) (Body.among_of_children rfl (by simp [Body.children]))
    simp only [Option.map_none]
    generalize h₁.allocate (.bytes [b]) = x₁ at hplaced ⊢
    generalize h₂.allocate (.bytes [b]) = x₂ at hplaced ⊢
    cases hplaced with
    | error e => exact .error e
    | fault k => exact .fault k
    | refused hne e y => exact .refused hne e _
    | @ok p₁ p₂ h =>
      obtain ⟨r, h₁'⟩ := p₁
      obtain ⟨s, h₂'⟩ := p₂
      obtain ⟨f', known', hagree, hr, rfl, hm'⟩ := h
      have hretain := hm'.retainHandle hr
      dsimp only [bind, Except.bind]
      generalize h₁'.retainHandle r = y₁ at hretain ⊢
      generalize h₂'.retainHandle (f' r) = y₂ at hretain ⊢
      cases hretain with
      | ok hm'' => exact .ok ⟨f', known', hagree, hr, rfl, hm''.keep hr b⟩
      | error k => exact .fault k

end Mirrors

end Heap

end ItemAccess
