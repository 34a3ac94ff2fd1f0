import ItemAccess.Proofs.Attempt

/-!
# Computations that end alike

Two computations are started in states that are related. They end alike if both are done, both fail with
the same failure or both end in a fault, and if the states are then related again. After a failure this may
be another relation than before. What a computation does to a single state is the case of a relation between
equal states: an invariant is a relation that holds of a state and itself.
-/

namespace ItemAccess

variable {σ ε δ α β : Type}

/-- Results are related by `P`, and so are faults by `Φ`; states by `R` when all is done, by `S` after a
failure. -/
inductive Outcome.Related (Φ : Fault → Fault → Prop) (R S : σ → σ → Prop) (P : α → α → Prop) :
    Outcome σ ε α → Outcome σ ε α → Prop
  | done {x y : α} {s t : σ} (hxy : P x y) (hst : R s t) : Related Φ R S P (.done x s) (.done y t)
  | failed (e : ε) {s t : σ} (hst : S s t) : Related Φ R S P (.failed e s) (.failed e t)
  | fault {f g : Fault} (hfg : Φ f g) : Related Φ R S P (.fault f) (.fault g)

namespace Attempt

def Relates (Φ : Fault → Fault → Prop) (I R S : σ → σ → Prop) (P : α → α → Prop)
    (a b : Attempt σ ε α) : Prop :=
  ∀ s t, I s t → (a.run s).Related Φ R S P (b.run t)

def Same (p : σ → Prop) (s t : σ) : Prop :=
  t = s ∧ p s

namespace Relates

variable {Φ : Fault → Fault → Prop} {I R S S' : σ → σ → Prop} {P P' : α → α → Prop} {Q : β → β → Prop}
  {a b : Attempt σ ε α}

theorem pure {x y : α} (hxy : P x y) : (pure x : Attempt σ ε α).Relates Φ R R S P (pure y) :=
  fun _ _ hst => .done hxy hst

theorem throw (e : ε) : (throw e : Attempt σ ε α).Relates Φ S R S P (throw e) :=
  fun _ _ hst => .failed e hst

theorem fault {f g : Fault} (hfg : Φ f g) : (fault f : Attempt σ ε α).Relates Φ I R S P (fault g) :=
  fun _ _ _ => .fault hfg

theorem lift (hΦ : ∀ f, Φ f f) (hP : ∀ x, P x x) (x : Except Fault α) :
    (liftM x : Attempt σ ε α).Relates Φ R R S P (liftM x) := by
  intro s t hst
  cases x with
  | ok y => exact .done (hP y) hst
  | error f => exact .fault (hΦ f)

theorem mono (ha : a.Relates Φ I R S P b) (hP : ∀ x y, P x y → P' x y) : a.Relates Φ I R S P' b := by
  intro s t hst
  have hends := ha s t hst
  generalize a.run s = o at hends ⊢
  generalize b.run t = o' at hends ⊢
  cases hends with
  | done hxy hst => exact .done (hP _ _ hxy) hst
  | failed e hst => exact .failed e hst
  | fault hfg => exact .fault hfg

theorem bind {next next' : α → Attempt σ ε β} (ha : a.Relates Φ I R S P b)
    (hnext : ∀ x y, P x y → (next x).Relates Φ R R S Q (next' y)) :
    (a >>= next).Relates Φ I R S Q (b >>= next') := by
  intro s t hst
  have hends := ha s t hst
  rw [run_bind, run_bind]
  generalize a.run s = o at hends ⊢
  generalize b.run t = o' at hends ⊢
  cases hends with
  | done hxy hst => exact hnext _ _ hxy _ _ hst
  | failed e hst => exact .failed e hst
  | fault hfg => exact .fault hfg

theorem map {f f' : α → β} (ha : a.Relates Φ R R S P b) (hf : ∀ x y, P x y → Q (f x) (f' y)) :
    (f <$> a).Relates Φ R R S Q (f' <$> b) :=
  ha.bind fun x y hxy => .pure (hf x y hxy)

theorem handle {next next' : ε → Attempt σ δ α} (ha : a.Relates Φ I R S P b)
    (hnext : ∀ e, (next e).Relates Φ S R S' P (next' e)) :
    (a.handle next).Relates Φ I R S' P (b.handle next') := by
  intro s t hst
  have hends := ha s t hst
  rw [run_handle, run_handle]
  generalize a.run s = o at hends ⊢
  generalize b.run t = o' at hends ⊢
  cases hends with
  | done hxy hst => exact .done hxy hst
  | failed e hst => exact hnext e _ _ hst
  | fault hfg => exact .fault hfg

theorem ite {p : Prop} [Decidable p] {a' b' : Attempt σ ε α} (ha : a.Relates Φ I R S P b)
    (hb : a'.Relates Φ I R S P b') :
    (if p then a else a').Relates Φ I R S P (if p then b else b') := by
  split
  · exact ha
  · exact hb

theorem mapM {f f' : β → Attempt σ ε α} (l : List β)
    (hf : ∀ x, (f x).Relates Φ R R S Eq (f' x)) : (l.mapM f).Relates Φ R R S Eq (l.mapM f') := by
  induction l with
  | nil => exact .pure rfl
  | cons x l ih =>
    rw [List.mapM_cons, List.mapM_cons]
    apply (hf x).bind
    rintro y _ rfl
    apply ih.bind
    rintro ys _ rfl
    exact .pure rfl

/-- A computation may depend on the state that it is started in. -/
theorem ask {next next' : σ → Attempt σ ε α}
    (h : ∀ s t, I s t → ((next s).run s).Related Φ R S P ((next' t).run t)) :
    (get >>= next : Attempt σ ε α).Relates Φ I R S P (get >>= next') :=
  h

theorem modify {f : σ → σ} (hf : ∀ s t, I s t → R (f s) (f t)) :
    (modify f : Attempt σ ε PUnit).Relates Φ I R S Eq (modify f) :=
  fun s t hst => .done rfl (hf s t hst)

/-- What holds at the end of a single computation holds of the computation and itself. -/
theorem of_ends (hΦ : ∀ f, Φ f f) {p q : σ → Prop}
    (ha : ∀ s, p s → a.Ends s False (fun _ t => q t) fun _ t => S t t) :
    a.Relates Φ (Same p) (Same q) S Eq a := by
  rintro _ s ⟨rfl, hs⟩
  have hends := ha s hs
  cases hrun : a.run s with
  | done x t => exact .done rfl ⟨rfl, hends.done hrun⟩
  | failed e t => exact .failed e (hends.failed hrun)
  | fault f => exact .fault (hΦ f)

theorem ends {p q r : σ → Prop} (ha : a.Relates Φ (Same p) (Same q) (Same r) Eq a) {s : σ} (hs : p s) :
    a.Ends s False (fun _ t => q t) fun _ t => r t := by
  have hends := ha s s ⟨rfl, hs⟩
  unfold Ends
  generalize a.run s = o at hends ⊢
  cases hends with
  | done _ hst => exact hst.2
  | failed _ hst => exact hst.2
  | fault _ => exact id

end Relates

end Attempt

end ItemAccess
