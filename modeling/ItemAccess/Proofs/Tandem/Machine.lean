import ItemAccess.Proofs.Machine.Frame
import ItemAccess.Proofs.Tandem.Keys

/-!
# Two machines in step

Two machines mirror each other if their stores do and the rest is the same, but for limits and, if they
are not compared, tracers. Two computations go in tandem if from mirrored machines they end alike: both
are done, with results that correspond; or both fail in the same way; or both end in the same fault.
The machines mirror each other afterwards. Where limits differ, the first computation may also be refused
by its limits, and then nothing is said of the second.
-/

namespace ItemAccess

open Attempt

variable {υ : SlotKind → Type} {T : Terms} {f : Equiv.Perm Handle} {known : Handle → Prop}
  {α β γ δ ε ε' : Type} {m₁ m₂ : Machine υ}

structure Machine.Mirrors (T : Terms) (f : Equiv.Perm Handle) (known : Handle → Prop)
    (m₁ m₂ : Machine υ) : Prop where
  heap : m₁.heap.Mirrors T f known m₂.heap
  registry : m₂.registry = m₁.registry
  pending : m₂.pending = m₁.pending
  tracer : T.traced → m₂.tracer = m₁.tracer
  textModel : m₂.settings.textModel = m₁.settings.textModel
  trace : m₂.settings.trace = m₁.settings.trace
  limits : T.strict = T.loose → m₂.settings.limits = m₁.settings.limits
  types : m₁.registry.Built
  native : T.native → ∀ t ∈ m₁.registry.types, t.builtin ≠ none

theorem Machine.Mirrors.withHeap (hm : m₁.Mirrors T f known m₂) {f' : Equiv.Perm Handle}
    {known' : Handle → Prop} {h₁ h₂ : Heap} (hh : h₁.Mirrors T f' known' h₂) :
    { m₁ with heap := h₁ }.Mirrors T f' known' { m₂ with heap := h₂ } :=
  { hm with heap := hh }

theorem Machine.Mirrors.withPending (hm : m₁.Mirrors T f known m₂) (p : Pending) :
    { m₁ with pending := p }.Mirrors T f known { m₂ with pending := p } :=
  { hm with pending := rfl }

theorem Machine.Mirrors.withTracer (hm : m₁.Mirrors T f known m₂) {t₁ t₂ : Tracer}
    (ht : T.traced → t₂ = t₁) :
    { m₁ with tracer := t₁ }.Mirrors T f known { m₂ with tracer := t₂ } :=
  { hm with tracer := ht }

theorem Machine.Mirrors.noted (hm : m₁.Mirrors T f known m₂) (e : Event) :
    { m₁ with tracer := m₁.tracer.note e }.Mirrors T f known
      { m₂ with tracer := m₂.tracer.note e } :=
  hm.withTracer fun ht => congrArg (·.note e) (hm.tracer ht)

/-- How computations in step end. `R` says which failures of the first are refusals by a limit. -/
inductive Outcome.InStep (T : Terms) (f : Equiv.Perm Handle) (known : Handle → Prop)
    (R : ε → Machine υ → Prop) (P : α → Machine υ → β → Machine υ → Prop) :
    Outcome (Machine υ) ε α → Outcome (Machine υ) ε β → Prop
  | done {x : α} {y : β} {n₁ n₂ : Machine υ} (h : P x n₁ y n₂) :
    InStep T f known R P (.done x n₁) (.done y n₂)
  | failed {n₁ n₂ : Machine υ} (e : ε) (h : n₁.Mirrors T f known n₂) :
    InStep T f known R P (.failed e n₁) (.failed e n₂)
  | fault (k : Fault) : InStep T f known R P (.fault k) (.fault k)
  | refused (hne : T.strict ≠ T.loose) {e : ε} {n₁ : Machine υ} (h : R e n₁)
    (o : Outcome (Machine υ) ε β) : InStep T f known R P (.failed e n₁) o

def InStep (T : Terms) (f : Equiv.Perm Handle) (known : Handle → Prop) (R : ε → Machine υ → Prop)
    (a₁ : Action υ ε α) (a₂ : Action υ ε β) (m₁ m₂ : Machine υ)
    (P : α → Machine υ → β → Machine υ → Prop) : Prop :=
  (a₁.run m₁).InStep T f known R P (a₂.run m₂)

/-- The computations end in step from all mirrored machines, with results that are related. -/
def Tandem (T : Terms) (f : Equiv.Perm Handle) (known : Handle → Prop) (R : ε → Machine υ → Prop)
    (a₁ : Action υ ε α) (a₂ : Action υ ε β) (rel : α → β → Prop) : Prop :=
  ∀ m₁ m₂, m₁.Mirrors T f known m₂ → InStep T f known R a₁ a₂ m₁ m₂
    fun x n₁ y n₂ => rel x y ∧ n₁.Mirrors T f known n₂

variable {R : ε → Machine υ → Prop} {R' : ε' → Machine υ → Prop} {a₁ : Action υ ε α} {a₂ : Action υ ε β}
  {P P' : α → Machine υ → β → Machine υ → Prop} {Q : γ → Machine υ → δ → Machine υ → Prop}
  {rel : α → β → Prop} {rel' : γ → δ → Prop}

namespace InStep

theorem mono (ha : InStep T f known R a₁ a₂ m₁ m₂ P) (h : ∀ x n₁ y n₂, P x n₁ y n₂ → P' x n₁ y n₂) :
    InStep T f known R a₁ a₂ m₁ m₂ P' := by
  unfold InStep at ha ⊢
  generalize a₁.run m₁ = o₁ at ha ⊢
  generalize a₂.run m₂ = o₂ at ha ⊢
  cases ha with
  | done hP => exact .done (h _ _ _ _ hP)
  | failed e hm => exact .failed e hm
  | fault k => exact .fault k
  | refused hne hR => exact .refused hne hR _

theorem bind {k₁ : α → Action υ ε γ} {k₂ : β → Action υ ε δ}
    (ha : InStep T f known R a₁ a₂ m₁ m₂ P)
    (h : ∀ x n₁ y n₂, P x n₁ y n₂ → InStep T f known R (k₁ x) (k₂ y) n₁ n₂ Q) :
    InStep T f known R (a₁ >>= k₁) (a₂ >>= k₂) m₁ m₂ Q := by
  unfold InStep at ha ⊢
  rw [run_bind, run_bind]
  generalize a₁.run m₁ = o₁ at ha ⊢
  generalize a₂.run m₂ = o₂ at ha ⊢
  cases ha with
  | done hP => exact h _ _ _ _ hP
  | failed e hm => exact .failed e hm
  | fault k => exact .fault k
  | refused hne hR => exact .refused hne hR _

theorem handle {k₁ : ε → Action υ ε' α} {k₂ : ε → Action υ ε' β}
    (ha : InStep T f known R a₁ a₂ m₁ m₂ P)
    (h : ∀ e n₁ n₂, n₁.Mirrors T f known n₂ → InStep T f known R' (k₁ e) (k₂ e) n₁ n₂ P)
    (hrefused : ∀ e n₁, R e n₁ → ∃ e' n₁', (k₁ e).run n₁ = .failed e' n₁' ∧ R' e' n₁') :
    InStep T f known R' (a₁.handle k₁) (a₂.handle k₂) m₁ m₂ P := by
  unfold InStep at ha ⊢
  rw [run_handle, run_handle]
  generalize a₁.run m₁ = o₁ at ha ⊢
  generalize a₂.run m₂ = o₂ at ha ⊢
  cases ha with
  | done hP => exact .done hP
  | failed e hm => exact h e _ _ hm
  | fault k => exact .fault k
  | refused hne hR =>
    obtain ⟨e', n₁', hrun, hR'⟩ := hrefused _ _ hR
    dsimp only
    rw [hrun]
    exact .refused hne hR' _

theorem lift {x : Except Fault α} {y : Except Fault β} (hxy : Both rel x y)
    (h : ∀ a b, rel a b → P a m₁ b m₂) :
    InStep T f known R (liftM x : Action υ ε α) (liftM y : Action υ ε β) m₁ m₂ P := by
  cases hxy with
  | ok hab => exact .done (h _ _ hab)
  | error k => exact .fault k

theorem ite {p q : Prop} [Decidable p] [Decidable q] {b₁ : Action υ ε α} {b₂ : Action υ ε β}
    (hpq : q ↔ p) (ha : p → InStep T f known R a₁ a₂ m₁ m₂ P)
    (hb : ¬ p → InStep T f known R b₁ b₂ m₁ m₂ P) :
    InStep T f known R (if p then a₁ else b₁) (if q then a₂ else b₂) m₁ m₂ P := by
  by_cases hp : p
  · rw [if_pos hp, if_pos (hpq.2 hp)]
    exact ha hp
  · rw [if_neg hp, if_neg (mt hpq.1 hp)]
    exact hb hp

end InStep

namespace Tandem

theorem pure {x : α} {y : β} (h : rel x y) :
    Tandem T f known R (Pure.pure x : Action υ ε α) (Pure.pure y : Action υ ε β) rel :=
  fun _ _ hm => .done ⟨h, hm⟩

theorem mono {rel' : α → β → Prop} (ha : Tandem T f known R a₁ a₂ rel)
    (h : ∀ x y, rel x y → rel' x y) : Tandem T f known R a₁ a₂ rel' :=
  fun m₁ m₂ hm => (ha m₁ m₂ hm).mono fun x _ y _ hP => ⟨h x y hP.1, hP.2⟩

theorem bind {k₁ : α → Action υ ε γ} {k₂ : β → Action υ ε δ} (ha : Tandem T f known R a₁ a₂ rel)
    (h : ∀ x y, rel x y → Tandem T f known R (k₁ x) (k₂ y) rel') :
    Tandem T f known R (a₁ >>= k₁) (a₂ >>= k₂) rel' :=
  fun m₁ m₂ hm => (ha m₁ m₂ hm).bind fun x n₁ y n₂ hP => h x y hP.1 n₁ n₂ hP.2

theorem fault (k : Fault) :
    Tandem T f known R (Attempt.fault k : Action υ ε α) (Attempt.fault k : Action υ ε β) rel :=
  fun _ _ _ => .fault k

theorem raise (e : ε) :
    Tandem T f known R (throw e : Action υ ε α) (throw e : Action υ ε β) rel :=
  fun _ _ hm => .failed e hm

theorem lift {x : Except Fault α} {y : Except Fault β} (hxy : Both rel x y) :
    Tandem T f known R (liftM x : Action υ ε α) (liftM y : Action υ ε β) rel :=
  fun _ _ hm => .lift hxy fun _ _ h => ⟨h, hm⟩

theorem ite {p : Prop} [Decidable p] {b₁ : Action υ ε α} {b₂ : Action υ ε β}
    (ha : p → Tandem T f known R a₁ a₂ rel) (hb : ¬ p → Tandem T f known R b₁ b₂ rel) :
    Tandem T f known R (if p then a₁ else b₁) (if p then a₂ else b₂) rel :=
  fun m₁ m₂ hm => .ite Iff.rfl (fun hp => ha hp m₁ m₂ hm) fun hp => hb hp m₁ m₂ hm

end Tandem

namespace Machine

variable {v : Value} {r : Handle}

/-- What is read is found in the present stores, and nothing changes. -/
theorem readHeap_inStep {F : Heap → Except Fault α} {G : Heap → Except Fault β}
    (h : Both rel (F m₁.heap) (G m₂.heap)) : InStep T f known R (readHeap F) (readHeap G) m₁ m₂
      fun x n₁ y n₂ => rel x y ∧ m₁ = n₁ ∧ m₂ = n₂ :=
  InStep.lift h fun _ _ hrel => ⟨hrel, rfl, rfl⟩

theorem readHeap_tandem {F G : Heap → Except Fault α} {rel : α → α → Prop}
    (h : ∀ h₁ h₂, h₁.Mirrors T f known h₂ → Both rel (F h₁) (G h₂)) :
    Tandem T f known R (readHeap F) (readHeap G) rel := by
  intro m₁ m₂ hm
  apply (readHeap_inStep (h _ _ hm.heap)).mono
  rintro x _ y _ ⟨hrel, rfl, rfl⟩
  exact ⟨hrel, hm⟩

theorem changeHeap_tandem {F G : Heap → Except Fault Heap}
    (h : ∀ h₁ h₂, h₁.Mirrors T f known h₂ → Both (Heap.Mirrors T f known) (F h₁) (G h₂)) :
    Tandem T f known R (changeHeap F) (changeHeap G) Eq :=
  fun _ _ hm => (InStep.lift (P := fun h₁ _ h₂ _ => h₁.Mirrors T f known h₂) (h _ _ hm.heap)
    fun _ _ hrel => hrel).bind fun _ _ _ _ hh => .done ⟨rfl, hm.withHeap hh⟩

theorem retain_tandem (hv : v.Among known) :
    Tandem T f known R (retain v) (retain (v.rename f)) fun x y => v = x ∧ v.rename f = y :=
  (changeHeap_tandem fun _ _ hh => hh.retain hv).bind fun _ _ _ => .pure ⟨rfl, rfl⟩

theorem retain_renamed (hv : v.Among known) :
    Tandem T f known R (retain v) (retain (v.rename f)) fun x y => y = x.rename f := by
  refine (retain_tandem hv).mono ?_
  rintro _ _ ⟨rfl, rfl⟩
  rfl

theorem releaseAll_tandem {vs : List Value} (hvs : ∀ v ∈ vs, v.Among known) :
    Tandem T f known R (releaseAll vs) (releaseAll (vs.map (Value.rename f))) Eq :=
  changeHeap_tandem fun _ _ hh => hh.releaseAll hvs

theorem release_tandem (hv : v.Among known) :
    Tandem T f known R (release v) (release (v.rename f)) Eq :=
  releaseAll_tandem (List.forall_mem_singleton.2 hv)

/-- What is read of an object corresponds, and mentions known slots only. -/
theorem readBody_tandem (hr : known r) :
    Tandem T f known R (readHeap (·.body r)) (readHeap (·.body (f r)))
      fun b b' => b' = b.rename f ∧ b.Among known := by
  apply readHeap_tandem
  intro h₁ h₂ hh
  apply (hh.body hr).mono
  rintro b b' ⟨hb, rfl⟩
  exact ⟨rfl, hh.among hb⟩

theorem typeOf_tandem (hv : v.Among known) :
    Tandem T f known R (typeOf v) (typeOf (v.rename f)) Eq := by
  apply readHeap_tandem
  intro h₁ h₂ hh
  apply (hh.typeOf hv).mono
  rintro id _ ⟨-, rfl⟩
  rfl

theorem typeObject_found (hm : m₁.Mirrors T f known m₂) (id : TypeId) :
    InStep T f known R (typeObject id) (typeObject id) m₁ m₂
      fun t n₁ t' n₂ => (m₁.registry.get? id = some t ∧ t' = t) ∧ m₁ = n₁ ∧ m₂ = n₂ := by
  simp only [InStep, typeObject, run_bind, run_get, hm.registry]
  cases m₁.registry.get? id with
  | some t => exact .done ⟨⟨rfl, rfl⟩, rfl, rfl⟩
  | none => exact .fault _

theorem typeObject_tandem (id : TypeId) :
    Tandem T f known R (typeObject id) (typeObject id) Eq := by
  intro m₁ m₂ hm
  apply (typeObject_found hm id).mono
  rintro t _ _ _ ⟨⟨-, rfl⟩, rfl, rfl⟩
  exact ⟨rfl, hm⟩

theorem typeName_tandem (id : TypeId) : Tandem T f known R (typeName id) (typeName id) Eq := by
  refine (typeObject_tandem id).bind ?_
  rintro t _ rfl
  exact .pure rfl

theorem nameOfType_tandem (hv : v.Among known) :
    Tandem T f known R (nameOfType v) (nameOfType (v.rename f)) Eq := by
  refine (typeOf_tandem hv).bind ?_
  rintro id _ rfl
  exact typeName_tandem id

def RaisedRefusal (_ : Raised) (m : Machine υ) : Prop :=
  m.pending.occurred = some .memoryError

def FailedRefusal (e : Failure) (_ : Machine υ) : Prop :=
  e.cls = .memoryError

theorem note_tandem (e : Event) : Tandem T f known R (note e) (note e) Eq :=
  fun _ _ hm => .done ⟨rfl, hm.noted e⟩

theorem raise_tandem {R : Raised → Machine υ → Prop} (e : Exception) :
    Tandem T f known R (raise e : SlotAction υ α) (raise e : SlotAction υ β) rel := by
  intro m₁ m₂ hm
  exact .failed _ (hm.withPending ⟨some e⟩)

theorem complain_tandem {R : Raised → Machine υ → Prop} (c : Complaint) :
    Tandem T f known R (complain c : SlotAction υ α) (complain c : SlotAction υ β) rel :=
  raise_tandem c.exception

theorem refuse_tandem {R : Failure → Machine υ → Prop} (c : Complaint) :
    Tandem T f known R (refuse c : Action υ Failure α) (refuse c : Action υ Failure β) rel :=
  .raise _

theorem settle_inStep {a₁ : SlotAction υ α} {a₂ : SlotAction υ β}
    (ha : InStep T f known RaisedRefusal a₁ a₂ m₁ m₂ P) :
    InStep T f known FailedRefusal (settle a₁) (settle a₂) m₁ m₂ P := by
  apply ha.handle
  · intro _ n₁ n₂ hm
    simp only [InStep, takePending, run_bind, run_get, run_set, run_throw, hm.pending]
    exact .failed _ (hm.withPending _)
  · intro _ n₁ hR
    refine ⟨_, _, rfl, ?_⟩
    obtain ⟨e, he, hcls⟩ := Option.map_eq_some_iff.1 hR
    simp only [FailedRefusal, Failure.cls, he, Option.getD_some, hcls]

theorem passOn_inStep {a₁ : Action υ Failure α} {a₂ : Action υ Failure β}
    (ha : InStep T f known FailedRefusal a₁ a₂ m₁ m₂ P) :
    InStep T f known RaisedRefusal (passOn a₁) (passOn a₂) m₁ m₂ P := by
  apply ha.handle
  · intro e n₁ n₂ hm
    exact .failed _ (hm.withPending ⟨some e.exception⟩)
  · intro e n₁ hR
    exact ⟨_, _, rfl, congrArg some hR⟩

def Found (m₁ m₂ : Machine υ) (x : α) (n₁ : Machine υ) (y : α) (n₂ : Machine υ) : Prop :=
  x = y ∧ m₁ = n₁ ∧ m₂ = n₂

theorem mapM_found {F : γ → Action υ ε α} {G : δ → Action υ ε α} {g : γ → δ} {l : List γ}
    (hl : ∀ a ∈ l, InStep T f known R (F a) (G (g a)) m₁ m₂ (Found m₁ m₂)) :
    InStep T f known R (l.mapM F) ((l.map g).mapM G) m₁ m₂ (Found m₁ m₂) := by
  induction l with
  | nil => exact .done ⟨rfl, rfl, rfl⟩
  | cons a l ih =>
    rw [List.map_cons, List.mapM_cons, List.mapM_cons]
    apply (hl a (by simp)).bind
    rintro x _ _ _ ⟨rfl, rfl, rfl⟩
    apply (ih fun b hb => hl b (by simp [hb])).bind
    rintro xs _ _ _ ⟨rfl, rfl, rfl⟩
    exact .done ⟨rfl, rfl, rfl⟩

theorem readBody_found (hm : m₁.Mirrors T f known m₂) (hr : known r) :
    InStep T f known R (readHeap (·.body r)) (readHeap (·.body (f r))) m₁ m₂
      fun b n₁ b' n₂ => (m₁.heap.body r = .ok b ∧ b' = b.rename f) ∧ m₁ = n₁ ∧ m₂ = n₂ :=
  readHeap_inStep (hm.heap.body hr)

theorem typeName_found (hm : m₁.Mirrors T f known m₂) (id : TypeId) :
    InStep T f known R (typeName id) (typeName id) m₁ m₂ (Found m₁ m₂) := by
  apply (typeObject_found hm id).bind
  rintro t _ _ _ ⟨⟨-, rfl⟩, rfl, rfl⟩
  exact .done ⟨rfl, rfl, rfl⟩

/-- A container inside itself is found on both sides, and the containers around a value are fewer than
the slots of either store. -/
theorem textWithin_found (hm : m₁.Mirrors T f known m₂) {n₁ n₂ : Nat} {enclosing : List Handle}
    (hnodup : enclosing.Nodup) (hlive : ∀ r ∈ enclosing, ∃ e, m₁.heap.lookup? r = some e)
    (hn₁ : enclosing.length + n₁ = m₁.heap.slots.size + 1)
    (hn₂ : enclosing.length + n₂ = m₂.heap.slots.size + 1) (hv : v.Among known) :
    InStep T f known R (textWithin n₁ enclosing v) (textWithin n₂ (enclosing.map f) (v.rename f))
      m₁ m₂ (Found m₁ m₂) := by
  induction n₁ generalizing n₂ enclosing v with
  | zero =>
    have := Heap.length_le_size hnodup hlive
    omega
  | succ n₁ ih =>
    have hle : (enclosing.map f).length ≤ m₂.heap.slots.size := by
      refine Heap.length_le_size (hnodup.map f.injective) fun p hp => ?_
      obtain ⟨r, hr, rfl⟩ := List.mem_map.1 hp
      obtain ⟨e, he⟩ := hlive r hr
      exact (hm.heap.live he).imp fun _ h => h.1
    rw [List.length_map] at hle
    obtain ⟨n₂, rfl⟩ : ∃ n, n₂ = n + 1 := ⟨n₂ - 1, by omega⟩
    cases v with
    | none => exact .done ⟨rfl, rfl, rfl⟩
    | bool b => cases b <;> exact .done ⟨rfl, rfl, rfl⟩
    | int i => exact .done ⟨rfl, rfl, rfl⟩
    | float x => exact .done ⟨rfl, rfl, rfl⟩
    | ref r =>
      simp only [Value.rename, textWithin]
      apply (readBody_found hm (hv r rfl)).bind
      rintro b _ _ _ ⟨⟨hb, rfl⟩, rfl, rfl⟩
      have hmem : f r ∈ enclosing.map f ↔ r ∈ enclosing := List.mem_map_of_injective f.injective
      have hitem (hr : r ∉ enclosing) (w : Value) (hw : w ∈ b.children) : InStep T f known R
          (textWithin n₁ (r :: enclosing) w) (textWithin n₂ (f r :: enclosing.map f) (w.rename f))
          m₁ m₂ (Found m₁ m₂) := by
        obtain ⟨e, he, -⟩ := Heap.body_eq_ok.1 hb
        refine ih (List.nodup_cons.2 ⟨hr, hnodup⟩) (List.forall_mem_cons.2 ⟨⟨e, he⟩, hlive⟩) ?_ ?_ ?_
        · simp only [List.length_cons]
          omega
        · simp only [List.length_cons]
          omega
        · exact (hm.heap.among hb).children w hw
      cases b with
      | bytes data =>
        simp only [Body.rename, InStep, run_bind, run_get, run_pure, hm.textModel]
        exact .done ⟨rfl, rfl, rfl⟩
      | bigInt n => exact .done ⟨rfl, rfl, rfl⟩
      | inst type fields =>
        apply (typeName_found hm type).bind
        rintro name _ _ _ ⟨rfl, rfl, rfl⟩
        exact .done ⟨rfl, rfl, rfl⟩
      | list items =>
        refine InStep.ite hmem (fun _ => .done ⟨rfl, rfl, rfl⟩) fun hr => ?_
        apply (mapM_found (hitem hr)).bind
        rintro parts _ _ _ ⟨rfl, rfl, rfl⟩
        exact .done ⟨rfl, rfl, rfl⟩
      | tuple items =>
        refine InStep.ite hmem (fun _ => .done ⟨rfl, rfl, rfl⟩) fun hr => ?_
        apply (mapM_found (hitem hr)).bind
        rintro parts _ _ _ ⟨rfl, rfl, rfl⟩
        rw [List.length_map]
        exact .done ⟨rfl, rfl, rfl⟩
      | dict entries =>
        refine InStep.ite hmem (fun _ => .done ⟨rfl, rfl, rfl⟩) fun hr => ?_
        refine (mapM_found fun e he => ?_).bind ?_
        · have hchild (w : Value) (hw : w ∈ [e.key, e.value]) : w ∈ (Body.dict entries).children :=
            List.mem_flatMap.2 ⟨e, he, hw⟩
          apply (hitem hr e.key (hchild e.key (by simp))).bind
          rintro key _ _ _ ⟨rfl, rfl, rfl⟩
          apply (hitem hr e.value (hchild e.value (by simp))).bind
          rintro value _ _ _ ⟨rfl, rfl, rfl⟩
          exact .done ⟨rfl, rfl, rfl⟩
        · rintro parts _ _ _ ⟨rfl, rfl, rfl⟩
          exact .done ⟨rfl, rfl, rfl⟩

theorem textOf_tandem (hv : v.Among known) :
    Tandem T f known R (textOf v) (textOf (v.rename f)) Eq := by
  intro m₁ m₂ hm
  have hfound : InStep T f known R (textWithin (m₁.heap.slots.size + 1) [] v)
      (textWithin (m₂.heap.slots.size + 1) [] (v.rename f)) m₁ m₂ (Found m₁ m₂) :=
    textWithin_found hm List.nodup_nil (by simp) (by simp) (by simp) hv
  rw [textOf_eq, textOf_eq]
  refine InStep.mono hfound ?_
  rintro x _ _ _ ⟨rfl, rfl, rfl⟩
  exact ⟨rfl, hm⟩

end Machine

end ItemAccess
