import ItemAccess.Proofs.Store.Moves

/-!
# The order of releases

A value that is released may free objects, and then what they held is released as well. How far this
goes depends on what was released before. But two steps on different values can change places, so that
the same references, released in any order, leave the same store; only the order of the free list tells
the difference.
-/

namespace ItemAccess.Heap

variable {h h' h₁ h₂ a b : Heap} {r : Handle} {e : Entry} {v w : Value} {cs ds vs ws : List Value}

/-- The same store but for the order of the free list. -/
def Reordered (h h' : Heap) : Prop :=
  ∃ free, h.free.Perm free ∧ h' = { h with free := free }

namespace Reordered

theorem refl (h : Heap) : h.Reordered h :=
  ⟨h.free, .refl _, rfl⟩

theorem trans (h₁₂ : h.Reordered h₁) (h₂₃ : h₁.Reordered h₂) : h.Reordered h₂ := by
  obtain ⟨free, hp, rfl⟩ := h₁₂
  obtain ⟨free', hp', rfl⟩ := h₂₃
  exact ⟨free', hp.trans hp', rfl⟩

theorem symm (hr : h.Reordered h') : h'.Reordered h := by
  obtain ⟨free, hp, rfl⟩ := hr
  exact ⟨h.free, hp.symm, rfl⟩

theorem lookup?_eq (hr : h.Reordered h') (r : Handle) : h'.lookup? r = h.lookup? r := by
  obtain ⟨free, -, rfl⟩ := hr
  rfl

theorem meter_eq (hr : h.Reordered h') : h'.meter = h.meter := by
  obtain ⟨free, -, rfl⟩ := hr
  rfl

end Reordered

/-- One reference to a value goes. What is still to be released then is what the object held, if it
was the last. -/
inductive Drops (h : Heap) : Value → Heap → List Value → Prop
  | immediate {v : Value} (hv : v.handle? = none) : Drops h v h []
  | fewer {r : Handle} {e : Entry} (he : h.lookup? r = some e) (hc : 1 < e.count) :
    Drops h (.ref r) (h.put r { e with count := e.count - 1 }) []
  | last {r : Handle} {e : Entry} (he : h.lookup? r = some e) (hc : ¬ 1 < e.count) :
    Drops h (.ref r) (h.vacate r e.charge) e.body.children

/-- Releasing goes on by steps. -/
theorem releaseAll_cons :
    h.releaseAll (v :: ws) = .ok h' ↔ ∃ h₁ cs, h.Drops v h₁ cs ∧ h₁.releaseAll (cs ++ ws) = .ok h' := by
  constructor
  · intro hr
    cases v with
    | ref r =>
      cases he : h.lookup? r with
      | some e =>
        rw [releaseAll_ref he] at hr
        split at hr
        case isTrue hc => exact ⟨_, _, .fewer he hc, hr⟩
        case isFalse hc => exact ⟨_, _, .last he hc, hr⟩
      | none =>
        rw [releaseAll] at hr
        split at hr
        case h_1 e hs => rw [lookup?_eq_some.2 hs] at he; cases he
        all_goals cases hr
    | _ =>
      rw [releaseAll] at hr
      exact ⟨h, [], .immediate rfl, hr⟩
  · rintro ⟨h₁, cs, hd, hr⟩
    cases hd with
    | immediate hv =>
      cases v with
      | ref r => cases hv
      | _ => rw [releaseAll]; exact hr
    | fewer he hc => rw [releaseAll_ref he, if_pos hc]; exact hr
    | last he hc => rw [releaseAll_ref he, if_neg hc]; exact hr

/-- A step puts off no more than it takes away. -/
theorem Drops.weight_le (hd : h.Drops v h₁ cs) : h₁.weight + cs.length ≤ h.weight := by
  cases hd with
  | immediate _ => exact Nat.le_refl _
  | @fewer r e he hc => exact (weight_put he (e.count - 1)).le
  | @last r e he hc =>
    have := weight_vacate he e.charge
    omega

/-- After a step there is less left to do. -/
theorem Drops.rest_lt (hd : h.Drops v h₁ cs) (ws : List Value) :
    h₁.weight + (cs ++ ws).length < h.weight + (v :: ws).length := by
  have hle := hd.weight_le
  simp only [List.length_append, List.length_cons]
  omega

theorem Drops.reordered (hd : h.Drops v h₁ cs) (hr : h.Reordered h') :
    ∃ h₁', h'.Drops v h₁' cs ∧ h₁.Reordered h₁' := by
  obtain ⟨free, hp, rfl⟩ := hr
  cases hd with
  | immediate hv => exact ⟨_, .immediate hv, free, hp, rfl⟩
  | fewer he hc => exact ⟨_, .fewer (h := { h with free := free }) he hc, free, hp, rfl⟩
  | @last r e he hc =>
    exact ⟨_, .last (h := { h with free := free }) he hc, r :: free, hp.cons r, rfl⟩

theorem put_comm {r s : Handle} (hne : r ≠ s) (e e' : Entry) :
    (h.put r e).put s e' = (h.put s e').put r e := by
  have hidx : r.index ≠ s.index := fun heq => hne (Handle.index_inj.1 heq)
  simp only [put, Array.setIfInBounds_comm _ _ hidx]

theorem put_vacate_comm {r s : Handle} (hne : r ≠ s) (e : Entry) (charge : Nat) :
    (h.put r e).vacate s charge = (h.vacate s charge).put r e := by
  have hidx : r.index ≠ s.index := fun heq => hne (Handle.index_inj.1 heq)
  simp only [put, vacate, Array.setIfInBounds_comm _ _ hidx]

theorem vacate_comm {r s : Handle} (hne : r ≠ s) (c d : Nat) :
    ((h.vacate r c).vacate s d).Reordered ((h.vacate s d).vacate r c) := by
  have hidx : r.index ≠ s.index := fun heq => hne (Handle.index_inj.1 heq)
  refine ⟨r :: s :: h.free, List.Perm.swap r s h.free, ?_⟩
  simp only [vacate, Meter.free, Array.setIfInBounds_comm _ _ hidx, Nat.sub_right_comm _ c d]

/-- Steps on different values can change places. -/
theorem Drops.comm (hne : v ≠ w) (hv : h.Drops v a cs) (hw : a.Drops w b ds) :
    ∃ a' b', h.Drops w a' ds ∧ a'.Drops v b' cs ∧ b.Reordered b' := by
  cases hv with
  | immediate hv => exact ⟨b, b, hw, .immediate hv, .refl b⟩
  | @fewer r e he hc =>
    cases hw with
    | immediate hw => exact ⟨h, _, .immediate hw, .fewer he hc, .refl _⟩
    | @fewer s e' he' hc' =>
      have hrs : r ≠ s := fun heq => hne (congrArg Value.ref heq)
      rw [lookup?_put he, if_neg hrs.symm] at he'
      refine ⟨_, _, .fewer he' hc', .fewer (e := e) ?_ hc, ?_⟩
      · rw [lookup?_put he', if_neg hrs, he]
      · rw [put_comm hrs]
        exact .refl _
    | @last s e' he' hc' =>
      have hrs : r ≠ s := fun heq => hne (congrArg Value.ref heq)
      rw [lookup?_put he, if_neg hrs.symm] at he'
      refine ⟨_, _, .last he' hc', .fewer (e := e) ?_ hc, ?_⟩
      · rw [lookup?_vacate he', if_neg hrs, he]
      · rw [put_vacate_comm hrs]
        exact .refl _
  | @last r e he hc =>
    cases hw with
    | immediate hw => exact ⟨h, _, .immediate hw, .last he hc, .refl _⟩
    | @fewer s e' he' hc' =>
      have hrs : r ≠ s := fun heq => hne (congrArg Value.ref heq)
      rw [lookup?_vacate he, if_neg hrs.symm] at he'
      refine ⟨_, _, .fewer he' hc', .last (e := e) ?_ hc, ?_⟩
      · rw [lookup?_put he', if_neg hrs, he]
      · rw [put_vacate_comm hrs.symm]
        exact .refl _
    | @last s e' he' hc' =>
      have hrs : r ≠ s := fun heq => hne (congrArg Value.ref heq)
      rw [lookup?_vacate he, if_neg hrs.symm] at he'
      refine ⟨_, _, .last he' hc', .last (e := e) ?_ hc, vacate_comm hrs _ _⟩
      rw [lookup?_vacate he', if_neg hrs, he]

/-- Induction along the steps of a release. -/
theorem releaseAll_induction
    {motive : (h h' : Heap) → (vs : List Value) → h.releaseAll vs = .ok h' → Prop}
    (nil : ∀ h, motive h h [] (by rw [releaseAll]))
    (step : ∀ {h v h₁ cs ws h'} (hd : h.Drops v h₁ cs) (hr : h₁.releaseAll (cs ++ ws) = .ok h'),
      motive h₁ h' (cs ++ ws) hr → motive h h' (v :: ws) (releaseAll_cons.2 ⟨h₁, cs, hd, hr⟩))
    (hr : h.releaseAll vs = .ok h') : motive h h' vs hr := by
  induction hn : h.weight + vs.length using Nat.strong_induction_on generalizing h vs with
  | _ n ih =>
    subst hn
    cases vs with
    | nil =>
      obtain rfl : h = h' := by simpa [releaseAll] using hr
      exact nil h
    | cons v ws =>
      obtain ⟨h₁, cs, hd, hr₁⟩ := releaseAll_cons.1 hr
      exact step hd hr₁ (ih _ (hd.rest_lt ws) hr₁ rfl)

theorem exists_common_rest {v w : Value} {t u : List Value} (hp : (v :: t).Perm (w :: u))
    (hne : v ≠ w) : ∃ rest, t.Perm (w :: rest) ∧ u.Perm (v :: rest) := by
  have hmem : w ∈ t := by
    have := hp.symm.subset List.mem_cons_self
    simpa [hne.symm] using this
  have hrest := List.perm_cons_erase hmem
  exact ⟨t.erase w, hrest, ((hp.symm.trans (hrest.cons v)).trans (.swap w v _)).cons_inv⟩

/-- The induction is on what is left to do. Where the two orders start with different values, the first
step of each is brought behind the first step of the other. -/
theorem releaseAll_reordered (hs : h.Reordered h') (hp : vs.Perm ws) (hr : h.releaseAll vs = .ok h₁) :
    ∃ h₂, h'.releaseAll ws = .ok h₂ ∧ h₁.Reordered h₂ := by
  induction hn : h.weight + vs.length using Nat.strong_induction_on
    generalizing h h' vs ws h₁ with
  | _ n ih =>
    subst hn
    cases vs with
    | nil =>
      obtain rfl := List.nil_perm.1 hp
      rw [releaseAll] at hr
      cases hr
      exact ⟨h', by rw [releaseAll], hs⟩
    | cons v t =>
      obtain ⟨a, cs, hv, hr⟩ := releaseAll_cons.1 hr
      cases ws with
      | nil => exact absurd hp (by simp)
      | cons w u =>
        by_cases hvw : v = w
        · subst hvw
          obtain ⟨a', hv', hs'⟩ := hv.reordered hs
          obtain ⟨h₂, hr₂, hs₂⟩ := ih _ (hv.rest_lt t) hs' (hp.cons_inv.append_left cs) hr rfl
          exact ⟨h₂, releaseAll_cons.2 ⟨a', cs, hv', hr₂⟩, hs₂⟩
        · obtain ⟨rest, htu, hut⟩ := exists_common_rest hp hvw
          -- `w` is next after `v`
          have hnext : (cs ++ t).Perm (w :: (cs ++ rest)) :=
            (htu.append_left cs).trans List.perm_middle
          obtain ⟨k₁, hk₁, hs₁⟩ := ih _ (hv.rest_lt t) (.refl a) hnext hr rfl
          obtain ⟨b, ds, hw, hb⟩ := releaseAll_cons.1 hk₁
          -- and before it just as well
          obtain ⟨a', b', hw', hv', hbb⟩ := hv.comm hvw hw
          have hchildren : (ds ++ (cs ++ rest)).Perm (cs ++ (ds ++ rest)) := by
            rw [← List.append_assoc, ← List.append_assoc]
            exact List.perm_append_comm.append_right rest
          have hless₂ : b.weight + (ds ++ (cs ++ rest)).length < h.weight + (v :: t).length := by
            apply (hw.rest_lt (cs ++ rest)).trans
            rw [← hnext.length_eq]
            exact hv.rest_lt t
          obtain ⟨k₂, hk₂, hs₂⟩ := ih _ hless₂ hbb hchildren hb rfl
          have hback : a'.releaseAll (v :: (ds ++ rest)) = .ok k₂ :=
            releaseAll_cons.2 ⟨b', cs, hv', hk₂⟩
          obtain ⟨a'', hw'', hs''⟩ := hw'.reordered hs
          have hlast : (v :: (ds ++ rest)).Perm (ds ++ u) :=
            List.perm_middle.symm.trans (hut.symm.append_left ds)
          have hless₃ : a'.weight + (v :: (ds ++ rest)).length < h.weight + (v :: t).length := by
            have hlt := hw'.rest_lt (v :: rest)
            rw [List.perm_middle.length_eq] at hlt
            simpa [htu.length_eq] using hlt
          obtain ⟨h₂, hr₂, hs₃⟩ := ih _ hless₃ hs'' hlast hback rfl
          exact ⟨h₂, releaseAll_cons.2 ⟨a'', ds, hw'', hr₂⟩, hs₁.trans (hs₂.trans hs₃)⟩

/-- The order in which references are released does not matter. -/
theorem releaseAll_perm (hp : vs.Perm ws) (hr : h.releaseAll vs = .ok h₁) :
    ∃ h₂, h.releaseAll ws = .ok h₂ ∧ h₁.Reordered h₂ :=
  releaseAll_reordered (.refl h) hp hr

/-- What is released later can be released apart. -/
theorem releaseAll_append :
    h.releaseAll (vs ++ ws) = .ok h' ↔ ∃ h₁, h.releaseAll vs = .ok h₁ ∧ h₁.releaseAll ws = .ok h' := by
  induction hn : h.weight + vs.length using Nat.strong_induction_on generalizing h vs with
  | _ n ih =>
    subst hn
    cases vs with
    | nil => simp [releaseAll]
    | cons v t =>
      have hstep {a : Heap} {cs : List Value} (hv : h.Drops v a cs) :
          a.releaseAll (cs ++ (t ++ ws)) = .ok h' ↔
            ∃ h₁, a.releaseAll (cs ++ t) = .ok h₁ ∧ h₁.releaseAll ws = .ok h' := by
        rw [← List.append_assoc]
        exact ih _ (hv.rest_lt t) rfl
      constructor
      · intro hr
        obtain ⟨a, cs, hv, hr⟩ := releaseAll_cons.1 hr
        obtain ⟨h₁, hr₁, hr₂⟩ := (hstep hv).1 hr
        exact ⟨h₁, releaseAll_cons.2 ⟨a, cs, hv, hr₁⟩, hr₂⟩
      · rintro ⟨h₁, hr₁, hr₂⟩
        obtain ⟨a, cs, hv, hr₁⟩ := releaseAll_cons.1 hr₁
        exact releaseAll_cons.2 ⟨a, cs, hv, (hstep hv).2 ⟨h₁, hr₁, hr₂⟩⟩

theorem releaseAll_immediates (hvs : ∀ v ∈ vs, v.handle? = none) (ws : List Value) :
    h.releaseAll (vs ++ ws) = h.releaseAll ws := by
  induction vs with
  | nil => rfl
  | cons v vs ih =>
    have hv := hvs v (by simp)
    have hrest := ih fun w hw => hvs w (by simp [hw])
    cases v with
    | ref r => cases hv
    | _ => rw [List.cons_append, releaseAll, hrest]

theorem perm_refs (vs : List Value) :
    vs.Perm (vs.filter (·.handle?.isNone) ++ (vs.filterMap Value.handle?).map .ref) := by
  induction vs with
  | nil => exact .nil
  | cons v vs ih =>
    cases v with
    | ref r => exact (ih.cons _).trans List.perm_middle.symm
    | _ => exact ih.cons _

/-- The same references, released one way or another, leave the same store. -/
theorem releaseAll_of_handles (hh : handles vs = handles ws) (hr : h.releaseAll vs = .ok h₁) :
    ∃ h₂, h.releaseAll ws = .ok h₂ ∧ h₁.Reordered h₂ := by
  have hskip (us : List Value) : h.releaseAll (us.filter (·.handle?.isNone) ++
      (us.filterMap Value.handle?).map .ref) = h.releaseAll ((us.filterMap Value.handle?).map .ref) :=
    releaseAll_immediates (fun v hv => by simpa using (List.mem_filter.1 hv).2) _
  have hrefs : ((vs.filterMap Value.handle?).map Value.ref).Perm
      ((ws.filterMap Value.handle?).map Value.ref) := (Multiset.coe_eq_coe.1 hh).map _
  obtain ⟨k₁, hk₁, hs₁⟩ := releaseAll_perm (perm_refs vs) hr
  rw [hskip] at hk₁
  obtain ⟨k₂, hk₂, hs₂⟩ := releaseAll_perm hrefs hk₁
  rw [← hskip] at hk₂
  obtain ⟨h₂, hr₂, hs₃⟩ := releaseAll_perm (perm_refs ws).symm hk₂
  exact ⟨h₂, hr₂, hs₁.trans (hs₂.trans hs₃)⟩

theorem size_releaseAll (hr : h.releaseAll vs = .ok h') : h'.slots.size = h.slots.size := by
  induction hr using releaseAll_induction with
  | nil h => rfl
  | step hd _ ih =>
    rw [ih]
    cases hd <;> simp [put, vacate]

/-- Every reference that is released takes at least one from the counts and the objects. -/
theorem total_releaseAll_le (hr : h.releaseAll vs = .ok h') :
    h'.total (·.count + 1) + (handles vs).card ≤ h.total (·.count + 1) := by
  induction hr using releaseAll_induction with
  | nil h => simp
  | step hd _ ih =>
    simp only [handles_append, handles_cons, Multiset.card_add] at ih ⊢
    cases hd with
    | immediate hv => simpa [Value.handles, hv] using ih
    | @fewer r e he hc =>
      have htotal := total_put he (·.count + 1) { e with count := e.count - 1 }
      simp only [handles_nil, Multiset.card_zero, Value.handles_ref, Multiset.card_singleton] at ih ⊢
      simp only at htotal
      omega
    | @last r e he hc =>
      have htotal := total_vacate he (·.count + 1) e.charge
      simp only [Value.handles_ref, Multiset.card_singleton]
      omega

theorem slots_ext (hsize : h.slots.size = h'.slots.size) (hl : ∀ r, h.lookup? r = h'.lookup? r) :
    h.slots = h'.slots := by
  apply Array.ext hsize
  intro i hi hi'
  simpa [lookup?, hi, hi'] using hl ⟨i⟩

/-- A release leaves the same objects with the same counts only if it releases no reference. -/
theorem handles_eq_zero_of_releaseAll (hr : h.releaseAll vs = .ok h')
    (hl : ∀ r, h.lookup? r = h'.lookup? r) : handles vs = 0 := by
  have hslots := slots_ext (size_releaseAll hr).symm hl
  have hle := total_releaseAll_le hr
  have htotal : h.total (·.count + 1) = h'.total (·.count + 1) := by simp only [total, hslots]
  apply Multiset.card_eq_zero.1
  omega

end ItemAccess.Heap
