import ItemAccess.Failure.Fault

/-!
# Computations that may fail

An `Attempt` changes a state. It may fail, and then what it did to the state so far remains; or it
ends in a fault, which leaves nothing. A computation that cannot fail is an attempt for every type
of failures.
-/

namespace ItemAccess

inductive Outcome (σ ε α : Type) where
  | done (a : α) (s : σ)
  | failed (e : ε) (s : σ)
  | fault (f : Fault)

def Attempt (σ ε α : Type) : Type := σ → Outcome σ ε α

namespace Attempt

variable {σ ε δ α β : Type}

def run (a : Attempt σ ε α) (s : σ) : Outcome σ ε α := a s

instance : Monad (Attempt σ ε) where
  pure a := fun s => .done a s
  bind a next := fun s =>
    match a.run s with
    | .done x s => (next x).run s
    | .failed e s => .failed e s
    | .fault f => .fault f

def handle (a : Attempt σ ε α) (next : ε → Attempt σ δ α) : Attempt σ δ α := fun s =>
  match a.run s with
  | .done x s => .done x s
  | .failed e s => (next e).run s
  | .fault f => .fault f

def fault (f : Fault) : Attempt σ ε α := fun _ => .fault f

def ofExcept : Except Fault α → Attempt σ ε α
  | .ok a => pure a
  | .error f => fault f

instance : MonadStateOf σ (Attempt σ ε) where
  get := fun s => .done s s
  set s := fun _ => .done () s
  modifyGet f := fun s => .done (f s).1 (f s).2

instance : MonadExceptOf ε (Attempt σ ε) where
  throw e := fun s => .failed e s
  tryCatch := handle

instance : MonadLift (Except Fault) (Attempt σ ε) where
  monadLift := ofExcept

@[simp]
theorem run_pure (a : α) (s : σ) : (pure a : Attempt σ ε α).run s = .done a s := rfl

@[simp]
theorem run_bind (a : Attempt σ ε α) (next : α → Attempt σ ε β) (s : σ) :
    (a >>= next).run s =
      match a.run s with
      | .done x s => (next x).run s
      | .failed e s => .failed e s
      | .fault f => .fault f := rfl

@[simp]
theorem run_map (f : α → β) (a : Attempt σ ε α) (s : σ) :
    (f <$> a).run s =
      match a.run s with
      | .done x s => .done (f x) s
      | .failed e s => .failed e s
      | .fault g => .fault g := rfl

@[simp]
theorem run_handle (a : Attempt σ ε α) (next : ε → Attempt σ δ α) (s : σ) :
    (a.handle next).run s =
      match a.run s with
      | .done x s => .done x s
      | .failed e s => (next e).run s
      | .fault f => .fault f := rfl

@[simp]
theorem run_fault (f : Fault) (s : σ) : (fault f : Attempt σ ε α).run s = .fault f := rfl

@[simp]
theorem run_get (s : σ) : (get : Attempt σ ε σ).run s = .done s s := rfl

@[simp]
theorem run_set (t s : σ) : (set t : Attempt σ ε PUnit).run s = .done ⟨⟩ t := rfl

@[simp]
theorem run_modify (f : σ → σ) (s : σ) :
    (modify f : Attempt σ ε PUnit).run s = .done ⟨⟩ (f s) := rfl

@[simp]
theorem run_throw (e : ε) (s : σ) : (throw e : Attempt σ ε α).run s = .failed e s := rfl

@[simp]
theorem run_liftM (x : Except Fault α) (s : σ) :
    (liftM x : Attempt σ ε α).run s =
      match x with
      | .ok a => .done a s
      | .error f => .fault f := by
  cases x <;> rfl

theorem ext {a b : Attempt σ ε α} (h : ∀ s, a.run s = b.run s) : a = b := funext h

instance : LawfulMonad (Attempt σ ε) :=
  LawfulMonad.mk' (Attempt σ ε)
    (fun a => ext fun s => by simp only [run_map, id]; cases a.run s <;> rfl)
    (fun _ _ => rfl)
    (fun a _ _ => ext fun s => by simp only [run_bind]; cases a.run s <;> rfl)

end Attempt

end ItemAccess
