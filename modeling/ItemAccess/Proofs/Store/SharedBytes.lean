import ItemAccess.Proofs.Store.Contents
import ItemAccess.Proofs.Store.Reach
import Mathlib.Data.List.Nodup

/-!
# One string for each byte

The store keeps a string for each byte that has been read. It keeps one string for a byte and never
gives it up, so that there are no more of them than there are bytes.
-/

namespace ItemAccess.Heap

variable {υ : SlotKind → Type} {g : Registry υ} {writes : Handle → Prop} {h h' : Heap} {r : Handle}
  {e : Entry} {b : UInt8} {owned taken given : Multiset Handle} {known : List (UInt8 × Handle)}

theorem mem_of_lookup (hr : h.byteStrings.lookup b = some r) : (b, r) ∈ h.byteStrings := by
  obtain ⟨l₁, l₂, heq, -⟩ := List.lookup_eq_some_iff.1 hr
  simp [heq]

/-- A byte is given as the string of just this byte. -/
theorem Pinned.byteString (hp : h.Pinned) (hb : h.byteString b = .ok (.ok (r, h'))) :
    h'.body r = .ok (.bytes [b]) := by
  rcases byteString_cases hb with ⟨hknown, hr⟩ | ⟨h₁, charge, -, -, he, rfl⟩
  · have hretain : h.retain (.ref r) = .ok h' := hr
    rw [body_retain hretain]
    exact hp b r (mem_of_lookup hknown)
  · have hput : (h₁.put r ⟨2, .bytes [b], charge⟩).lookup? r = some ⟨2, .bytes [b], charge⟩ := by
      rw [lookup?_put he, if_pos rfl]
    exact body_of_lookup? hput

/-- The string that is given is kept. It was kept before unless its slot was not in use. -/
theorem byteStrings_byteString (hb : h.byteString b = .ok (.ok (r, h'))) :
    (b, r) ∈ h'.byteStrings ∧
      (h.lookup? r = none → h'.byteStrings.length = h.byteStrings.length + 1) := by
  rcases byteString_cases hb with ⟨hknown, hr⟩ | ⟨h₁, charge, -, -, -, rfl⟩
  · obtain ⟨e, he, rfl⟩ := retainHandle_cases hr
    refine ⟨mem_of_lookup hknown, fun hunused => ?_⟩
    rw [he] at hunused
    cases hunused
  · exact ⟨List.mem_cons_self, fun _ => List.length_cons⟩

/-- The store itself counts among those that refer to a string that it keeps. -/
theorem Accounted.count_kept (ha : h.Accounted owned) (hr : (b, r) ∈ h.byteStrings)
    (he : h.lookup? r = some e) : owned.count r + 1 ≤ e.count := by
  have hcounts := ha.counts r
  have hkept : 0 < h.kept r := List.countP_pos_iff.2 ⟨_, hr, by simp⟩
  rw [references_of_lookup? he] at hcounts
  omega

/-- The store keeps one string for a byte, and those that are known among others. -/
structure Shares (known : List (UInt8 × Handle)) (h : Heap) : Prop where
  pinned : h.Pinned
  distinct : (h.byteStrings.map Prod.fst).Nodup
  known : known <:+ h.byteStrings

theorem empty_shares (limits : Limits) : (empty limits).Shares [] :=
  ⟨empty_pinned limits, List.nodup_nil, List.nil_suffix⟩

/-- A move adds at most a string for a byte that had none. -/
theorem Move.byteStrings_cases (hm : Move g writes h taken given h') :
    h'.byteStrings = h.byteStrings ∨
      ∃ b r, h.byteStrings.lookup b = none ∧ h'.byteStrings = (b, r) :: h.byteStrings := by
  cases hm with
  | keep _ _ hn => exact .inr ⟨_, _, hn, rfl⟩
  | allocate halloc _ _ => exact .inl (byteStrings_allocate halloc)
  | grow hg =>
    obtain ⟨_, _, _, -, -, rfl⟩ := grow_cases hg
    exact .inl rfl
  | shrink hs =>
    obtain ⟨_, -, rfl⟩ := shrink_cases hs
    exact .inl rfl
  | _ => exact .inl rfl

theorem Move.shares (hm : Move g writes h taken given h') (ha : h.Accounted (owned + taken))
    (hs : h.Shares known) : h'.Shares known := by
  have hpinned := hm.pinned ha hs.pinned
  rcases hm.byteStrings_cases with heq | ⟨b, r, hn, heq⟩
  · exact ⟨hpinned, heq ▸ hs.distinct, heq ▸ hs.known⟩
  · refine ⟨hpinned, ?_, ?_⟩
    · have hnew : b ∉ h.byteStrings.map Prod.fst := by
        intro hmem
        obtain ⟨p, hp, rfl⟩ := List.mem_map.1 hmem
        have hne := List.lookup_eq_none_iff.1 hn p hp
        simp at hne
      rw [heq, List.map_cons]
      exact List.nodup_cons.2 ⟨hnew, hs.distinct⟩
    · rw [heq]
      exact hs.known.trans (List.suffix_cons _ _)

namespace Shares

theorem lookup (hs : h.Shares known) (hr : (b, r) ∈ known) : h.byteStrings.lookup b = some r := by
  obtain ⟨l₁, l₂, heq⟩ := List.append_of_mem (hs.known.subset hr)
  have hdistinct := hs.distinct
  rw [heq, List.map_append, List.map_cons] at hdistinct
  refine List.lookup_eq_some_iff.2 ⟨l₁, l₂, heq, fun p hp => ?_⟩
  have hne := (List.nodup_append.1 hdistinct).2.2 p.1 (List.mem_map_of_mem hp) b List.mem_cons_self
  simpa using hne.symm

/-- A byte whose string is known is given by one more reference to it. -/
theorem byteString (hs : h.Shares known) (hr : (b, r) ∈ known) :
    ∃ h', h.byteString b = .ok (.ok (r, h')) ∧ h.retain (.ref r) = .ok h' := by
  obtain ⟨e, he, -⟩ := body_eq_ok.1 (hs.pinned b r (hs.known.subset hr))
  have hpresent : h.Present (.ref r) := by
    rintro s hrs
    cases hrs
    exact ⟨e, he⟩
  obtain ⟨h', hh⟩ := hpresent.retain
  have hretain : h.retainHandle r = .ok h' := hh
  refine ⟨h', ?_, hh⟩
  rw [Heap.byteString, hs.lookup hr]
  simp [hretain]

/-- There are no more strings than bytes. -/
theorem length_le (hs : h.Shares known) : h.byteStrings.length ≤ 256 := by
  have hdistinct : ((h.byteStrings.map Prod.fst).map UInt8.toNat).Nodup :=
    hs.distinct.map fun b c hbc => UInt8.toNat_inj.1 hbc
  have hsubset : (h.byteStrings.map Prod.fst).map UInt8.toNat ⊆ List.range 256 := by
    intro n hn
    obtain ⟨b, -, rfl⟩ := List.mem_map.1 hn
    exact List.mem_range.2 b.toNat_lt
  have hle := (hdistinct.subperm hsubset).length_le
  simpa using hle

end Shares

end ItemAccess.Heap
