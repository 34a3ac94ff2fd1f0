import ItemAccess.Proofs.Store.Ledger
import Mathlib.Data.Set.Finite.Lattice
import Mathlib.Logic.Relation
import Mathlib.Order.WellFoundedSet

/-!
# What can be reached

The objects of a store form a graph: an object leads to the objects that it holds. Where the counts
are exact and no way leads back to its start, every object in use can be reached from a reference
that is not stored in an object. One walks back from an object to one that holds it; there are
finitely many objects, so the walk ends, and it can only end at a root.
-/

namespace ItemAccess.Heap

variable {υ : SlotKind → Type} {g : Registry υ} {writes : Handle → Prop} {h h' : Heap}
  {r s : Handle} {e : Entry} {owned taken given : Multiset Handle}

/-- The object `x` holds `r`: as an item, as a field, or as a key or value of a dict. -/
def Holds (h : Heap) (x r : Handle) : Prop :=
  ∃ e, h.lookup? x = some e ∧ .ref r ∈ e.body.children

def Acyclic (h : Heap) : Prop :=
  ∀ r, ¬ Relation.TransGen h.Holds r r

def Root (h : Heap) (owned : Multiset Handle) (r : Handle) : Prop :=
  r ∈ owned ∨ ∃ b, (b, r) ∈ h.byteStrings

theorem finite_live (h : Heap) : {r | h.isLive r = true}.Finite := by
  have hindex : Set.InjOn Handle.index (Set.preimage Handle.index (Set.Iio h.slots.size)) :=
    fun _ _ _ _ heq => Handle.index_inj.1 heq
  apply ((Set.finite_Iio h.slots.size).preimage hindex).subset
  intro r hr
  obtain ⟨e, he⟩ := isLive_iff.1 hr
  exact (Array.getElem?_eq_some_iff.1 (lookup?_eq_some.1 he)).1

/-- A quantity that adds up to something is not zero everywhere. -/
theorem exists_of_total_pos {f : Entry → Nat} (hf : 0 < h.total f) :
    ∃ x e, h.lookup? x = some e ∧ 0 < f e := by
  by_contra hnone
  have hzero : h.total f = 0 := total_eq_zero fun x e he => by
    by_contra hne
    exact hnone ⟨x, e, he, Nat.pos_of_ne_zero hne⟩
  omega

/-- What is stored is stored in some object. -/
theorem exists_holds (hr : 0 < h.stored r) : ∃ x, h.Holds x r := by
  obtain ⟨x, e, he, hcount⟩ := exists_of_total_pos hr
  exact ⟨x, e, he, mem_handles.1 (Multiset.count_pos.1 hcount)⟩

namespace Accounted

/-- What is reached from a root is there. -/
theorem isLive_of_reached (ha : h.Accounted owned) (hs : h.Root owned s)
    (hr : Relation.ReflTransGen h.Holds s r) : h.isLive r = true := by
  induction hr with
  | refl =>
    rcases hs with howned | ⟨b, hkept⟩
    · exact Heap.isLive_iff.2 (ha.exists_of_owned howned)
    · exact Heap.isLive_iff.2 (ha.exists_of_kept hkept)
  | tail _ hstep _ =>
    obtain ⟨e, he, hmem⟩ := hstep
    exact Heap.isLive_iff.2 (ha.exists_of_stored he hmem)

/-- An object in use that is no root is held by another one. -/
theorem root_or_held (ha : h.Accounted owned) (hr : h.isLive r = true) :
    h.Root owned r ∨ ∃ x, h.Holds x r := by
  have hcount := (ha.isLive_iff r).1 hr
  rw [ha.counts r] at hcount
  by_cases howned : r ∈ owned
  · exact .inl (.inl howned)
  by_cases hkept : 0 < h.kept r
  · obtain ⟨⟨b, x⟩, hmem, hx⟩ := List.countP_pos_iff.1 hkept
    obtain rfl : x = r := by simpa using hx
    exact .inl (.inr ⟨b, hmem⟩)
  · rw [Multiset.count_eq_zero_of_notMem howned] at hcount
    exact .inr (exists_holds (by omega))

/-- Where no object leads back to itself, what is in use is what can be reached. -/
theorem isLive_iff_reached (ha : h.Accounted owned) (hacyclic : h.Acyclic) (r : Handle) :
    h.isLive r = true ↔ ∃ x, h.Root owned x ∧ Relation.ReflTransGen h.Holds x r := by
  refine ⟨fun hr => ?_, fun ⟨x, hx, hpath⟩ => ha.isLive_of_reached hx hpath⟩
  have hstrict : IsStrictOrder Handle (Relation.TransGen h.Holds) :=
    { irrefl := hacyclic, trans := fun _ _ _ => Relation.TransGen.trans }
  -- on finitely many objects the walk back to those that hold an object comes to an end
  have hback : {r | h.isLive r = true}.WellFoundedOn (Relation.TransGen h.Holds) :=
    h.finite_live.wellFoundedOn
  refine hback.induction (P := fun r => ∃ x, h.Root owned x ∧ Relation.ReflTransGen h.Holds x r) hr
    fun r hr ih => ?_
  rcases ha.root_or_held hr with hroot | ⟨x, hx⟩
  · exact ⟨r, hroot, .refl⟩
  · obtain ⟨e, he, -⟩ := id hx
    obtain ⟨y, hy, hpath⟩ := ih x (Heap.isLive_iff.2 ⟨e, he⟩) (.single hx)
    exact ⟨y, hy, hpath.tail hx⟩

end Accounted

/-- The store keeps for each byte the string of just this byte. -/
def Pinned (h : Heap) : Prop :=
  ∀ b r, (b, r) ∈ h.byteStrings → h.body r = .ok (.bytes [b])

/-- Byte strings do not change. -/
theorem Body.Becomes.eq_bytes {data : List UInt8} {b : Body} (hb : (Body.bytes data).Becomes h b) :
    b = .bytes data := by
  cases hb
  rfl

theorem empty_pinned (limits : Limits) : (empty limits).Pinned := by
  intro b r hr
  cases hr

theorem Move.pinned (hm : Move g writes h taken given h') (ha : h.Accounted (owned + taken))
    (hp : h.Pinned) : h'.Pinned := by
  intro b r hr
  have hold (hmem : (b, r) ∈ h.byteStrings) : h'.body r = .ok (.bytes [b]) := by
    obtain ⟨e, he, hbody⟩ := body_eq_ok.1 (hp b r hmem)
    have hchange := hm.slotChange ha.free r
    rw [he] at hchange
    generalize hnew : h'.lookup? r = slot at hchange
    cases hchange with
    | kept hb _ => exact body_eq_ok.2 ⟨_, hnew, Body.Becomes.eq_bytes (hbody ▸ hb)⟩
    | freed hc ht =>
      -- the one who gives up the last reference owns it, and the store keeps another
      have hcounts := ha.counts r
      have hkept : 0 < h.kept r := List.countP_pos_iff.2 ⟨_, hmem, by simp⟩
      rw [references_of_lookup? he, ht, Multiset.count_add, Multiset.count_singleton_self] at hcounts
      omega
  cases hm with
  | keep he hb _ =>
    rcases List.mem_cons.1 hr with heq | hmem
    · cases heq
      exact body_eq_ok.2 ⟨_, he, hb⟩
    · exact hold hmem
  | allocate halloc _ _ => exact hold (byteStrings_allocate halloc ▸ hr)
  | grow hg =>
    obtain ⟨_, _, _, -, -, rfl⟩ := grow_cases hg
    exact hold hr
  | shrink hs =>
    obtain ⟨_, -, rfl⟩ := shrink_cases hs
    exact hold hr
  | _ => exact hold hr

end ItemAccess.Heap
