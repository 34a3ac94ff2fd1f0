import ItemAccess.Proofs.FaultFreedom
import ItemAccess.Proofs.Store.ReleaseOrder

/-!
# References can be given back in any order

The counts of a store may be higher than the references that anybody knows of, but they are never
lower. Such a store can give back every reference that is owned, one after the other, and what is left
is such a store again, whatever was freed on the way. With the exchange of steps this makes the order
of releases irrelevant: only the free list remembers it.
-/

namespace ItemAccess.Heap

variable {h h' h₁ : Heap} {r : Handle} {e : Entry} {v : Value} {vs cs : List Value}
  {rs ss : List Handle} {owned released : Multiset Handle}

/-- Whatever is owned, stored or kept is in use, and is counted at least as often as it is owned, stored
and kept. -/
structure Covers (h : Heap) (owned : Multiset Handle) : Prop where
  ownedLive : ∀ r ∈ owned, ∃ e, h.lookup? r = some e
  storedLive : h.Closed
  keptLive : ∀ b r, (b, r) ∈ h.byteStrings → ∃ e, h.lookup? r = some e
  positive : ∀ r e, h.lookup? r = some e → 1 ≤ e.count
  counts : ∀ r e, h.lookup? r = some e → owned.count r + h.stored r + h.kept r ≤ e.count

/-- Exact counts cover what is owned, also if some of it is lost. -/
theorem Accounted.covers {lost : Multiset Handle} (ha : h.Accounted (owned + lost)) :
    h.Covers owned where
  ownedLive := fun _ hr => ha.exists_of_owned (Multiset.mem_add.2 (.inl hr))
  storedLive := ha.closed
  keptLive := fun _ _ hr => ha.exists_of_kept hr
  positive := ha.positive
  counts := fun r e he => by
    have hcounts := ha.counts r
    rw [references_of_lookup? he, Multiset.count_add] at hcounts
    omega

theorem count_le_stored {s : Handle} (he : h.lookup? s = some e) (r : Handle) :
    (handles e.body.children).count r ≤ h.stored r :=
  le_total he fun e => (handles e.body.children).count r

theorem kept_pos {b : UInt8} (hr : (b, r) ∈ h.byteStrings) : 0 < h.kept r :=
  List.countP_pos_iff.2 ⟨_, hr, by simp⟩

theorem of_lookup?_put {s : Handle} {e' d : Entry} (he : h.lookup? r = some e)
    (hd : (h.put r e').lookup? s = some d) : s = r ∧ d = e' ∨ s ≠ r ∧ h.lookup? s = some d := by
  rw [lookup?_put he] at hd
  by_cases hs : s = r
  · rw [if_pos hs] at hd
    exact .inl ⟨hs, (Option.some.inj hd).symm⟩
  · rw [if_neg hs] at hd
    exact .inr ⟨hs, hd⟩

theorem of_lookup?_vacate {s : Handle} {charge : Nat} {d : Entry} (he : h.lookup? r = some e)
    (hd : (h.vacate r charge).lookup? s = some d) : s ≠ r ∧ h.lookup? s = some d := by
  rw [lookup?_vacate he] at hd
  by_cases hs : s = r
  · rw [if_pos hs] at hd
    cases hd
  · rw [if_neg hs] at hd
    exact ⟨hs, hd⟩

namespace Covers

/-- One reference fewer. -/
theorem fewer (hc : h.Covers (owned + {r})) (he : h.lookup? r = some e) (hmore : 1 < e.count) :
    (h.put r { e with count := e.count - 1 }).Covers owned := by
  have hlive {s : Handle} (hs : ∃ e, h.lookup? s = some e) :
      ∃ e', (h.put r { e with count := e.count - 1 }).lookup? s = some e' := by
    rw [lookup?_put he]
    by_cases hsr : s = r
    · exact ⟨_, if_pos hsr⟩
    · rw [if_neg hsr]
      exact hs
  constructor
  case ownedLive =>
    intro s hs
    exact hlive (hc.ownedLive s (Multiset.mem_add.2 (.inl hs)))
  case storedLive =>
    intro s d hd v hv t ht
    rcases of_lookup?_put he hd with ⟨-, rfl⟩ | ⟨-, hd⟩
    · exact hlive (hc.storedLive r e he v hv t ht)
    · exact hlive (hc.storedLive s d hd v hv t ht)
  case keptLive =>
    intro b s hs
    exact hlive (hc.keptLive b s hs)
  case positive =>
    intro s d hd
    rcases of_lookup?_put he hd with ⟨-, rfl⟩ | ⟨-, hd⟩
    · exact Nat.le_sub_one_of_lt hmore
    · exact hc.positive s d hd
  case counts =>
    intro s d hd
    have hstored : (h.put r { e with count := e.count - 1 }).stored s = h.stored s :=
      Nat.add_right_cancel
        (total_put he (fun e => (handles e.body.children).count s) { e with count := e.count - 1 })
    have hkept : (h.put r { e with count := e.count - 1 }).kept s = h.kept s := rfl
    rw [hstored, hkept]
    rcases of_lookup?_put he hd with ⟨rfl, rfl⟩ | ⟨-, hd⟩
    · have hold := hc.counts s e he
      rw [Multiset.count_add, Multiset.count_singleton_self] at hold
      dsimp only
      omega
    · have hold := hc.counts s d hd
      rw [Multiset.count_add] at hold
      omega

/-- The last reference goes: nobody else has one, so nothing that remains leads to the freed slot. -/
theorem last (hc : h.Covers (owned + {r})) (he : h.lookup? r = some e) (hlast : ¬ 1 < e.count) :
    (h.vacate r e.charge).Covers (owned + handles e.body.children) := by
  have hunknown : owned.count r = 0 ∧ h.stored r = 0 ∧ h.kept r = 0 := by
    have hold := hc.counts r e he
    rw [Multiset.count_add, Multiset.count_singleton_self] at hold
    omega
  have hlive {s : Handle} (hs : ∃ e, h.lookup? s = some e)
      (hknown : 0 < owned.count s + h.stored s + h.kept s) :
      ∃ e', (h.vacate r e.charge).lookup? s = some e' := by
    have hsr : s ≠ r := by
      rintro rfl
      omega
    rw [lookup?_vacate he, if_neg hsr]
    exact hs
  have hchild {s t : Handle} {d : Entry} (hd : h.lookup? s = some d) (ht : .ref t ∈ d.body.children) :
      ∃ e', (h.vacate r e.charge).lookup? t = some e' := by
    have hpos := Multiset.count_pos.2 (mem_handles.2 ht)
    have hle := count_le_stored hd t
    exact hlive (hc.storedLive s d hd (.ref t) ht t rfl) (by omega)
  constructor
  case ownedLive =>
    intro s hs
    rcases Multiset.mem_add.1 hs with hs | hs
    · have hpos := Multiset.count_pos.2 hs
      exact hlive (hc.ownedLive s (Multiset.mem_add.2 (.inl hs))) (by omega)
    · exact hchild he (mem_handles.1 hs)
  case storedLive =>
    intro s d hd v hv t ht
    subst ht
    exact hchild (of_lookup?_vacate he hd).2 hv
  case keptLive =>
    intro b s hs
    have hpos : 0 < h.kept s := kept_pos hs
    exact hlive (hc.keptLive b s hs) (by omega)
  case positive =>
    intro s d hd
    exact hc.positive s d (of_lookup?_vacate he hd).2
  case counts =>
    intro s d hd
    have hold := hc.counts s d (of_lookup?_vacate he hd).2
    have hstored : (h.vacate r e.charge).stored s + (handles e.body.children).count s = h.stored s :=
      total_vacate he (fun e => (handles e.body.children).count s) e.charge
    have hkept : (h.vacate r e.charge).kept s = h.kept s := rfl
    rw [Multiset.count_add] at hold ⊢
    omega

/-- A reference that is owned can be given back. What the object held, if it was the last one, is owned
then and still to be released. -/
theorem drops (hc : h.Covers (owned + v.handles)) :
    ∃ h₁ cs, h.Drops v h₁ cs ∧ h₁.Covers (owned + handles cs) := by
  cases v with
  | ref r =>
    obtain ⟨e, he⟩ := hc.ownedLive r (by simp)
    by_cases hmore : 1 < e.count
    · exact ⟨_, [], .fewer he hmore, by simpa using hc.fewer he hmore⟩
    · exact ⟨_, _, .last he hmore, hc.last he hmore⟩
  | _ => exact ⟨h, [], .immediate rfl, by simpa [Value.handles, Value.handle?] using hc⟩

/-- The induction is on what is left to do, as the walk of a release is. -/
theorem releaseAll (hc : h.Covers (owned + handles vs)) :
    ∃ h', h.releaseAll vs = .ok h' ∧ h'.Covers owned := by
  induction hn : h.weight + vs.length using Nat.strong_induction_on generalizing h vs with
  | _ n ih =>
    subst hn
    cases vs with
    | nil => exact ⟨h, by rw [Heap.releaseAll], by simpa using hc⟩
    | cons v ws =>
      have hfirst : h.Covers (owned + handles ws + v.handles) := by
        rw [add_assoc, add_comm (handles ws), ← handles_cons]
        exact hc
      obtain ⟨h₁, cs, hd, hc₁⟩ := hfirst.drops
      have hrest : h₁.Covers (owned + handles (cs ++ ws)) := by
        rw [handles_append, add_comm (handles cs), ← add_assoc]
        exact hc₁
      obtain ⟨h', hr, hc'⟩ := ih _ (hd.rest_lt ws) hrest rfl
      exact ⟨h', releaseAll_cons.2 ⟨h₁, cs, hd, hr⟩, hc'⟩

end Covers

def releaseEach (h : Heap) (rs : List Handle) : Except Fault Heap :=
  rs.foldlM (fun h r => h.release (.ref r)) h

theorem releaseEach_eq_ok : h.releaseEach rs = .ok h' ↔ h.releaseAll (rs.map .ref) = .ok h' := by
  induction rs generalizing h with
  | nil => simp [releaseEach, Heap.releaseAll, pure, Except.pure]
  | cons r rs ih =>
    have hsplit : h.releaseAll ((r :: rs).map .ref) = .ok h' ↔
        ∃ h₁, h.release (.ref r) = .ok h₁ ∧ h₁.releaseAll (rs.map .ref) = .ok h' :=
      (releaseAll_append : h.releaseAll ([.ref r] ++ rs.map .ref) = .ok h' ↔ _)
    rw [hsplit, releaseEach, List.foldlM_cons, except_bind_eq_ok]
    exact exists_congr fun h₁ => and_congr_right fun _ => ih

theorem handles_map_ref (rs : List Handle) : handles (rs.map .ref) = rs := by
  induction rs with
  | nil => rfl
  | cons r rs ih =>
    rw [List.map_cons, handles_cons, ih, Value.handles_ref]
    rfl

/-- Owned references, given back one by one in two orders, leave the same store but for the order of the
free list. Neither order ends in a fault, and what is still owned is covered. -/
theorem release_in_any_order (hc : h.Covers owned) (hreleased : released ≤ owned)
    (hrs : (rs : Multiset Handle) = released) (hss : (ss : Multiset Handle) = released) :
    ∃ h₁ h₂, h.releaseEach rs = .ok h₁ ∧ h.releaseEach ss = .ok h₂ ∧ h₁.Reordered h₂ ∧
      h₁.Covers (owned - released) := by
  subst hrs
  have hsplit : h.Covers (owned - rs + handles (rs.map .ref)) := by
    rw [handles_map_ref, Multiset.sub_add_cancel hreleased]
    exact hc
  obtain ⟨h₁, hr₁, hc₁⟩ := hsplit.releaseAll
  have hp : (rs.map Value.ref).Perm (ss.map .ref) := (Multiset.coe_eq_coe.1 hss).symm.map _
  obtain ⟨h₂, hr₂, hsame⟩ := releaseAll_perm hp hr₁
  exact ⟨h₁, h₂, releaseEach_eq_ok.2 hr₁, releaseEach_eq_ok.2 hr₂, hsame, hc₁⟩

/-- A string, a tuple of it, a list that holds itself beside the string of a byte, and a dict with the
tuple for a key and the list for its value. -/
def knottedRun : List (Request DelegateSlot) :=
  [.newBytes [0x61, 0x62], .get (.ref ⟨0⟩) (.int 0), .newList [.ref ⟨1⟩, .none],
    .set (.ref ⟨2⟩) (.ref ⟨2⟩) (.int 1), .clone (.ref ⟨0⟩), .newTuple [.ref ⟨0⟩], .clone (.ref ⟨3⟩),
    .clone (.ref ⟨2⟩), .newDict [(.ref ⟨3⟩, .ref ⟨2⟩)], .newBytes [0x63]]

/-- From the string on or from the dict on: the list and the byte in it stay behind, and the free lists
are different. -/
theorem release_in_any_order_knottedRun :
    ∃ (h h₁ h₂ : Heap) (owned : Multiset Handle), h.Covers owned ∧
      ({⟨0⟩, ⟨2⟩, ⟨3⟩, ⟨4⟩, ⟨5⟩} : Multiset Handle) ≤ owned ∧
      h.releaseEach [⟨5⟩, ⟨0⟩, ⟨2⟩, ⟨3⟩, ⟨4⟩] = .ok h₁ ∧
      h.releaseEach [⟨4⟩, ⟨3⟩, ⟨2⟩, ⟨0⟩, ⟨5⟩] = .ok h₂ ∧
      h₁.Reordered h₂ ∧ h₁.live = 2 ∧ h₁.free ≠ h₂.free := by
  have hrun : ((Client.follow (DelegateSlot.host 0) Client.Careful
      (.start { limits := { memory := some 1000 } }) knottedRun).any fun c =>
        ({⟨0⟩, ⟨2⟩, ⟨3⟩, ⟨4⟩, ⟨5⟩} : Multiset Handle) ≤ c.owned ∧
        (c.machine.heap.releaseEach [⟨5⟩, ⟨0⟩, ⟨2⟩, ⟨3⟩, ⟨4⟩]).toOption.any fun h₁ =>
          (c.machine.heap.releaseEach [⟨4⟩, ⟨3⟩, ⟨2⟩, ⟨0⟩, ⟨5⟩]).toOption.any fun h₂ =>
            h₁.live = 2 ∧ h₁.free ≠ h₂.free) = true := by decide +kernel
  obtain ⟨c, hc, howned, hany⟩ := Client.exists_reached hrun
  obtain ⟨lost, ha⟩ := (hc.sound (DelegateSlot.host_careful 0)).accounted
  have hfirst : (([⟨5⟩, ⟨0⟩, ⟨2⟩, ⟨3⟩, ⟨4⟩] : List Handle) : Multiset Handle) =
      {⟨0⟩, ⟨2⟩, ⟨3⟩, ⟨4⟩, ⟨5⟩} := by decide
  have hsecond : (([⟨4⟩, ⟨3⟩, ⟨2⟩, ⟨0⟩, ⟨5⟩] : List Handle) : Multiset Handle) =
      {⟨0⟩, ⟨2⟩, ⟨3⟩, ⟨4⟩, ⟨5⟩} := by decide
  obtain ⟨h₁, h₂, hr₁, hr₂, hsame, -⟩ := release_in_any_order ha.covers howned hfirst hsecond
  simp only [hr₁, hr₂, Except.toOption, Option.any_some, decide_eq_true_eq] at hany
  exact ⟨c.machine.heap, h₁, h₂, c.owned, ha.covers, howned, hr₁, hr₂, hsame, hany⟩

end ItemAccess.Heap
