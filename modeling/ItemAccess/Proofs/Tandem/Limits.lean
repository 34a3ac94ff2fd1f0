import ItemAccess.Failure.Fault
import ItemAccess.Store.Meter

/-!
# Two meters side by side

Of two runs with the same requests the second may have looser limits. What its meter refuses, the meter
of the first refuses as well; so as long as nothing is refused in the first run, both count alike. Bytes
are counted alike unless only one of the runs counts them.
-/

namespace ItemAccess

/-- A bound that is absent or at least another one. -/
def Limits.Bounds (a b : Option UInt64) : Prop :=
  ∀ y, b = some y → ∃ x, a = some x ∧ x.toNat ≤ y.toNat

/-- No bound of the second limits is stricter than that of the first. -/
structure Limits.Within (l l' : Limits) : Prop where
  allocations : Bounds l.allocations l'.allocations
  memory : Bounds l.memory l'.memory

theorem Limits.Within.refl (l : Limits) : l.Within l :=
  ⟨fun y hy => ⟨y, hy, Nat.le_refl _⟩, fun y hy => ⟨y, hy, Nat.le_refl _⟩⟩

/-- How two runs are compared: their limits, whether even their slots are the same, whether their tracers
are, and whether there are only built-in types. -/
structure Terms where
  strict : Limits
  loose : Limits
  within : strict.Within loose
  aligned : Prop
  traced : Prop
  native : Prop

namespace Terms

variable {T : Terms} {α β : Type}

/-- Charges agree unless bytes are counted in one store only. -/
def Charged (T : Terms) : Prop :=
  T.strict.memory.isSome = T.loose.memory.isSome

/-- Both requests are granted, or both are refused in the same way; where the limits differ, the first
may also be refused alone. -/
inductive Granted (T : Terms) (P : α → β → Prop) : Except LimitError α → Except LimitError β → Prop
  | ok {a : α} {b : β} (h : P a b) : Granted T P (.ok a) (.ok b)
  | error (e : LimitError) : Granted T P (.error e) (.error e)
  | refused (h : T.strict ≠ T.loose) (e : LimitError) (y : Except LimitError β) :
    Granted T P (.error e) y

inductive Served (T : Terms) (P : α → β → Prop) :
    Except Fault (Except LimitError α) → Except Fault (Except LimitError β) → Prop
  | ok {a : α} {b : β} (h : P a b) : Served T P (.ok (.ok a)) (.ok (.ok b))
  | error (e : LimitError) : Served T P (.ok (.error e)) (.ok (.error e))
  | fault (k : Fault) : Served T P (.error k) (.error k)
  | refused (h : T.strict ≠ T.loose) (e : LimitError) (y : Except Fault (Except LimitError β)) :
    Served T P (.ok (.error e)) y

end Terms

section

variable {α β γ δ : Type}

inductive Both (P : α → β → Prop) : Except Fault α → Except Fault β → Prop
  | ok {a : α} {b : β} (h : P a b) : Both P (.ok a) (.ok b)
  | error (k : Fault) : Both P (.error k) (.error k)

theorem Both.refl (x : Except Fault α) : Both Eq x x := by
  cases x with
  | ok a => exact .ok rfl
  | error k => exact .error k

theorem Both.mono {P Q : α → β → Prop} {x : Except Fault α} {y : Except Fault β}
    (hxy : Both P x y) (h : ∀ a b, P a b → Q a b) : Both Q x y := by
  cases hxy with
  | ok hab => exact .ok (h _ _ hab)
  | error k => exact .error k

theorem Both.bind {P : α → β → Prop} {Q : γ → δ → Prop} {x : Except Fault α} {y : Except Fault β}
    {f : α → Except Fault γ} {g : β → Except Fault δ} (hxy : Both P x y)
    (h : ∀ a b, P a b → Both Q (f a) (g b)) : Both Q (x >>= f) (y >>= g) := by
  cases hxy with
  | ok hab => exact h _ _ hab
  | error k => exact .error k

theorem Both.map {P : α → β → Prop} {Q : γ → δ → Prop} {x : Except Fault α} {y : Except Fault β}
    {f : α → γ} {g : β → δ} (hxy : Both P x y) (h : ∀ a b, P a b → Q (f a) (g b)) :
    Both Q (x.map f) (y.map g) := by
  cases hxy with
  | ok hab => exact .ok (h _ _ hab)
  | error k => exact .error k

theorem Terms.Granted.bind {T : Terms} {P : α → β → Prop} {Q : γ → δ → Prop} {x : Except LimitError α}
    {y : Except LimitError β} {f : α → Except LimitError γ} {g : β → Except LimitError δ}
    (hxy : T.Granted P x y) (h : ∀ a b, P a b → T.Granted Q (f a) (g b)) :
    T.Granted Q (x >>= f) (y >>= g) := by
  cases hxy with
  | ok hab => exact h _ _ hab
  | error e => exact .error e
  | refused hne e y => exact .refused hne e _

end

variable {T : Terms}

namespace Meter

variable {m₁ m₂ : Meter}

structure Mirrors (T : Terms) (m₁ m₂ : Meter) : Prop where
  strict : m₁.limits = T.strict
  loose : m₂.limits = T.loose
  allocations : m₂.allocations = m₁.allocations
  memory : T.Charged → m₂.memory = m₁.memory

theorem Mirrors.free (hm : m₁.Mirrors T m₂) {c₁ c₂ : Nat} (hc : T.Charged → c₂ = c₁) :
    (m₁.free c₁).Mirrors T (m₂.free c₂) where
  strict := hm.strict
  loose := hm.loose
  allocations := hm.allocations
  memory := fun h => by simp only [Meter.free, hm.memory h, hc h]

/-- What the first meter grants, the second grants as well. -/
theorem Mirrors.grow (hm : m₁.Mirrors T m₂) (bytes : Nat) :
    T.Granted (fun p₁ p₂ => p₁.2.Mirrors T p₂.2 ∧ (T.Charged → p₂.1 = p₁.1))
      (m₁.grow bytes) (m₂.grow bytes) := by
  unfold Meter.grow
  cases hl : T.loose.memory with
  | none =>
    simp only [hm.loose, hl]
    cases hs : T.strict.memory with
    | none =>
      simp only [hm.strict, hs]
      exact .ok ⟨hm, fun _ => rfl⟩
    | some a =>
      have hne : T.strict ≠ T.loose := fun h => by simp [h, hl] at hs
      have hcharged : ¬ T.Charged := by simp [Terms.Charged, hs, hl]
      simp only [hm.strict, hs]
      split
      · exact .refused hne _ _
      · exact .ok ⟨⟨rfl, hm.loose, hm.allocations, fun h => absurd h hcharged⟩,
          fun h => absurd h hcharged⟩
  | some b =>
    obtain ⟨a, hs, hab⟩ := T.within.memory b hl
    have hcharged : T.Charged := by simp [Terms.Charged, hs, hl]
    have hmemory := hm.memory hcharged
    simp only [hm.strict, hm.loose, hs, hl, hmemory]
    by_cases ha : a.toNat < m₁.memory + bytes
    · rw [if_pos ha]
      by_cases hsame : T.strict = T.loose
      · obtain rfl : a = b := Option.some.inj (hs.symm.trans ((congrArg Limits.memory hsame).trans hl))
        rw [if_pos ha]
        exact .error _
      · exact .refused hsame _ _
    · rw [if_neg ha, if_neg (by omega)]
      exact .ok ⟨⟨rfl, rfl, hm.allocations, fun _ => rfl⟩, fun _ => rfl⟩

theorem Mirrors.allocate (hm : m₁.Mirrors T m₂) (bytes : Nat) :
    T.Granted (fun p₁ p₂ => p₁.2.Mirrors T p₂.2 ∧ (T.Charged → p₂.1 = p₁.1))
      (m₁.allocate bytes) (m₂.allocate bytes) := by
  have hcounted : T.Granted (fun p₁ p₂ => p₁.2.Mirrors T p₂.2 ∧ (T.Charged → p₂.1 = p₁.1))
      (m₁.grow bytes >>= fun p => .ok (p.1, { p.2 with allocations := p.2.allocations + 1 }))
      (m₂.grow bytes >>= fun p => .ok (p.1, { p.2 with allocations := p.2.allocations + 1 })) := by
    apply (hm.grow bytes).bind
    rintro p₁ p₂ ⟨hm', hcharge⟩
    exact .ok ⟨⟨hm'.strict, hm'.loose, congrArg (· + 1) hm'.allocations, hm'.memory⟩, hcharge⟩
  unfold Meter.allocate
  cases hl : T.loose.allocations with
  | none =>
    simp only [hm.loose, hl]
    cases hs : T.strict.allocations with
    | none =>
      simp only [hm.strict, hs]
      exact hcounted
    | some a =>
      have hne : T.strict ≠ T.loose := fun h => by simp [h, hl] at hs
      simp only [hm.strict, hs]
      split
      · exact .refused hne _ _
      · exact hcounted
  | some b =>
    obtain ⟨a, hs, hab⟩ := T.within.allocations b hl
    simp only [hm.strict, hm.loose, hs, hl, hm.allocations]
    by_cases ha : a.toNat ≤ m₁.allocations
    · rw [if_pos ha]
      by_cases hsame : T.strict = T.loose
      · obtain rfl : a = b :=
          Option.some.inj (hs.symm.trans ((congrArg Limits.allocations hsame).trans hl))
        rw [if_pos ha]
        exact .error _
      · exact .refused hsame _ _
    · rw [if_neg ha, if_neg (by omega)]
      exact hcounted

end Meter

end ItemAccess
