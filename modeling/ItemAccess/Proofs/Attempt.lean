import ItemAccess.Attempt

/-!
# How a computation may end

`Ends` says of a computation and a state what holds when it is done and what holds when it fails. The
proposition `safe` says whether a fault is excluded: statements that hold only of runs that come to an
end are those for `safe = False`, and statements that also promise an end are those for
`safe = True`. The equations below take a computation apart along its syntax.
-/

namespace ItemAccess

def Outcome.failure? {σ ε α : Type} : Outcome σ ε α → Option ε
  | .failed e _ => some e
  | _ => none

theorem Outcome.failure?_eq_some {σ ε α : Type} {o : Outcome σ ε α} {e : ε} :
    o.failure? = some e ↔ ∃ s, o = .failed e s := by
  cases o <;> simp [failure?]

def Outcome.done? {σ ε α : Type} : Outcome σ ε α → Option (α × σ)
  | .done a s => some (a, s)
  | _ => none

theorem Outcome.done?_eq_some {σ ε α : Type} {o : Outcome σ ε α} {a : α} {s : σ} :
    o.done? = some (a, s) ↔ o = .done a s := by
  cases o <;> simp [done?]

def Outcome.failed? {σ ε α : Type} : Outcome σ ε α → Option (ε × σ)
  | .failed e s => some (e, s)
  | _ => none

theorem Outcome.failed?_eq_some {σ ε α : Type} {o : Outcome σ ε α} {e : ε} {s : σ} :
    o.failed? = some (e, s) ↔ o = .failed e s := by
  cases o <;> simp [failed?]

namespace Attempt

variable {σ ε δ α β : Type} {safe : Prop} {s t : σ} {P P' : α → σ → Prop}
  {Q Q' : ε → σ → Prop}

/-- What holds at the end of a computation. There is no fault if `safe`. -/
def Ends (a : Attempt σ ε α) (s : σ) (safe : Prop) (done : α → σ → Prop)
    (failed : ε → σ → Prop) : Prop :=
  match a.run s with
  | .done x t => done x t
  | .failed e t => failed e t
  | .fault _ => ¬ safe

theorem Ends.mono {a : Attempt σ ε α} (h : a.Ends s safe P Q)
    (hd : ∀ x t, P x t → P' x t) (hf : ∀ e t, Q e t → Q' e t) :
    a.Ends s safe P' Q' := by
  unfold Ends at h ⊢
  cases hr : a.run s with
  | done x t => exact hd x t (by simpa only [hr] using h)
  | failed e t => exact hf e t (by simpa only [hr] using h)
  | fault f => simpa only [hr] using h

theorem Ends.done {a : Attempt σ ε α} (h : a.Ends s safe P Q) {x : α}
    (hr : a.run s = .done x t) : P x t := by
  simpa only [Ends, hr] using h

theorem Ends.failed {a : Attempt σ ε α} (h : a.Ends s safe P Q) {e : ε}
    (hr : a.run s = .failed e t) : Q e t := by
  simpa only [Ends, hr] using h

theorem Ends.no_fault {a : Attempt σ ε α} (h : a.Ends s safe P Q) {f : Fault}
    (hr : a.run s = .fault f) : ¬ safe := by
  simpa only [Ends, hr] using h

theorem Ends.of_run {a b : Attempt σ ε α} (h : b.Ends t safe P Q) (hr : a.run s = b.run t) :
    a.Ends s safe P Q := by
  unfold Ends
  rw [hr]
  exact h

theorem Ends.cases {a : Attempt σ ε α} (h : a.Ends s True P Q) :
    (∃ x t, a.run s = .done x t ∧ P x t) ∨ ∃ e t, a.run s = .failed e t ∧ Q e t := by
  cases hr : a.run s with
  | done x t => exact .inl ⟨x, t, rfl, h.done hr⟩
  | failed e t => exact .inr ⟨e, t, rfl, h.failed hr⟩
  | fault f => exact absurd trivial (h.no_fault hr)

/-- The end of a computation is what running it gives. -/
theorem ends_run (a : Attempt σ ε α) (s : σ) :
    a.Ends s False (fun x t => a.run s = .done x t) fun e t => a.run s = .failed e t := by
  unfold Ends
  cases a.run s with
  | done x t => rfl
  | failed e t => rfl
  | fault f => exact id

@[simp] theorem ends_pure (x : α) :
    (pure x : Attempt σ ε α).Ends s safe P Q ↔ P x s := Iff.rfl

@[simp] theorem ends_throw (e : ε) :
    (throw e : Attempt σ ε α).Ends s safe P Q ↔ Q e s := Iff.rfl

@[simp] theorem ends_fault (f : Fault) :
    (fault f : Attempt σ ε α).Ends s safe P Q ↔ ¬ safe := Iff.rfl

@[simp] theorem ends_get {P : σ → σ → Prop} :
    (get : Attempt σ ε σ).Ends s safe P Q ↔ P s s := Iff.rfl

@[simp] theorem ends_set {P : PUnit → σ → Prop} :
    (set t : Attempt σ ε PUnit).Ends s safe P Q ↔ P ⟨⟩ t := Iff.rfl

@[simp] theorem ends_modify {P : PUnit → σ → Prop} (f : σ → σ) :
    (modify f : Attempt σ ε PUnit).Ends s safe P Q ↔ P ⟨⟩ (f s) := Iff.rfl

@[simp] theorem ends_bind {P : β → σ → Prop} (a : Attempt σ ε α) (next : α → Attempt σ ε β) :
    (a >>= next).Ends s safe P Q ↔
      a.Ends s safe (fun x t => (next x).Ends t safe P Q) Q := by
  unfold Ends
  rw [run_bind]
  cases a.run s <;> rfl

@[simp] theorem ends_map {P : β → σ → Prop} (f : α → β) (a : Attempt σ ε α) :
    (f <$> a).Ends s safe P Q ↔ a.Ends s safe (fun x t => P (f x) t) Q := by
  unfold Ends
  rw [run_map]
  cases a.run s <;> rfl

@[simp] theorem ends_handle {Q : δ → σ → Prop} (a : Attempt σ ε α)
    (next : ε → Attempt σ δ α) :
    (a.handle next).Ends s safe P Q ↔
      a.Ends s safe P (fun e t => (next e).Ends t safe P Q) := by
  unfold Ends
  rw [run_handle]
  cases a.run s <;> rfl

/-- A computation without state ends well if it gives a result whenever that is promised. -/
theorem ends_liftM {x : Except Fault α} (hx : safe → ∃ a, x = .ok a)
    (h : ∀ a, x = .ok a → P a s) :
    (liftM x : Attempt σ ε α).Ends s safe P Q := by
  unfold Ends
  rw [run_liftM]
  cases x with
  | ok a => exact h a rfl
  | error f =>
    intro hs
    obtain ⟨a, ha⟩ := hx hs
    cases ha

theorem ends_ite {p : Prop} [Decidable p] {a b : Attempt σ ε α}
    (ha : p → a.Ends s safe P Q) (hb : ¬ p → b.Ends s safe P Q) :
    (if p then a else b).Ends s safe P Q := by
  by_cases h : p
  · simpa only [if_pos h] using ha h
  · simpa only [if_neg h] using hb h

/-- Computations that only look at the state, one after the other. -/
theorem ends_mapM {f : α → Attempt σ ε β} {l : List α} {P : List β → σ → Prop}
    (hf : ∀ a ∈ l, (f a).Ends s safe (fun _ t => t = s) Q) (h : ∀ bs, P bs s) :
    (l.mapM f).Ends s safe P Q := by
  induction l generalizing P with
  | nil => exact h []
  | cons a l ih =>
    simp only [List.mapM_cons, ends_bind, ends_pure]
    refine (hf a (by simp)).mono ?_ fun _ _ h => h
    rintro b _ rfl
    exact ih (fun a ha => hf a (by simp [ha])) fun bs => h (b :: bs)

end Attempt

variable {α β : Type}

theorem except_bind_eq_ok {x : Except Fault α} {f : α → Except Fault β} {b : β} :
    (x >>= f) = .ok b ↔ ∃ a, x = .ok a ∧ f a = .ok b := by
  cases x with
  | ok a => exact ⟨fun h => ⟨a, rfl, h⟩, fun ⟨_, ha, h⟩ => Except.ok.inj ha ▸ h⟩
  | error e => exact ⟨nofun, fun ⟨_, ha, _⟩ => nomatch ha⟩

theorem except_map_eq_ok {x : Except Fault α} {f : α → β} {b : β} :
    x.map f = .ok b ↔ ∃ a, x = .ok a ∧ f a = b := by
  cases x with
  | ok a => simp [Except.map]
  | error e => exact ⟨nofun, fun ⟨_, ha, _⟩ => nomatch ha⟩

end ItemAccess
