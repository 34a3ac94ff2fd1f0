import ItemAccess.Proofs.Delegate
import ItemAccess.Proofs.Tandem.Requests

/-!
# Looser limits

Limits refuse, and that is all they do. A program that is not refused anything under some limits runs
under looser ones just the same: every request gets the same answer, and after every request the two
machines agree in all but their limits and the bytes that they count. These agree, too, unless only one
of the machines counts bytes.
-/

namespace ItemAccess

open Attempt Machine

variable {υ : SlotKind → Type} {H : Host υ}

/-- A program makes a request, and goes on as the answer has it. -/
inductive Program (υ : SlotKind → Type) where
  | stop
  | ask (q : Request υ) (next : Except Failure (Reply υ) → Program υ)

namespace Program

/-- How the requests of a program end, one after the other. A fault ends the program. -/
def run (H : Host υ) : Program υ → Machine υ → List (Outcome (Machine υ) Failure (Reply υ))
  | stop, _ => []
  | ask q next, m =>
    match (q.respond H).run m with
    | .done a n => .done a n :: (next (.ok a)).run H n
    | .failed e n => .failed e n :: (next (.error e)).run H n
    | .fault k => [.fault k]

/-- The program has to do with built-in types only. -/
def Native : Program υ → Prop
  | stop => True
  | ask q next => (∀ spec, q ≠ .register spec) ∧ ∀ a, (next a).Native

def ofList : List (Request υ) → Program υ
  | [] => stop
  | q :: qs => ask q fun _ => ofList qs

theorem native_ofList {qs : List (Request υ)} (h : ∀ q ∈ qs, ∀ spec, q ≠ .register spec) :
    (ofList qs).Native := by
  induction qs with
  | nil => trivial
  | cons q qs ih =>
    have hrest : (ofList qs).Native := ih fun q' hq' => h q' (.tail _ hq')
    exact ⟨h q (.head _), fun _ => hrest⟩

end Program

def Outcome.isRefusal {σ α : Type} : Outcome σ Failure α → Bool
  | failed e _ => e.kind = .resourceExhausted || e.cls = .memoryError
  | _ => false

def Outcome.mapState {σ τ ε α : Type} (g : σ → τ) : Outcome σ ε α → Outcome τ ε α
  | done a s => done a (g s)
  | failed e s => failed e (g s)
  | fault k => fault k

def Machine.unlimited (m : Machine υ) : Machine υ :=
  { m with
    heap := { m.heap with meter := { m.heap.meter with limits := {} } }
    settings := { m.settings with limits := {} } }

def Machine.uncharged (m : Machine υ) : Machine υ :=
  { m.unlimited with
    heap := { m.unlimited.heap with
      slots := m.heap.slots.map (Option.map fun e => { e with charge := 0 })
      meter := { m.unlimited.heap.meter with memory := 0 } } }

def Limits.Within.terms {l l' : Limits} (h : l.Within l') : Terms where
  strict := l
  loose := l'
  within := h
  aligned := True
  traced := True
  native := True

variable {l l' : Limits} {h : l.Within l'} {m₁ m₂ : Machine υ}

/-- The second machine is where the first is, under looser limits. -/
def Machine.Tracks (h : l.Within l') (m₁ m₂ : Machine υ) : Prop :=
  m₁.Mirrors h.terms (Equiv.refl Handle) (fun _ => True) m₂

theorem Machine.start_tracks (h : l.Within l') (s : Settings) :
    (start { s with limits := l } : Machine υ).Tracks h (start { s with limits := l' }) where
  heap :=
    { slots := fun _ => .empty
      closed := fun r e he => by simp [start, Heap.empty, Heap.lookup?] at he
      byteStrings := fun _ => rfl
      kept := fun b r hr => by simp [start, Heap.empty] at hr
      meter := ⟨rfl, rfl, rfl, fun _ => rfl⟩
      listed₁ := ⟨fun r hr => by simp [start, Heap.empty] at hr, .nil⟩
      listed₂ := ⟨fun r hr => by simp [start, Heap.empty] at hr, .nil⟩
      free := ⟨[], [], [], rfl, rfl, fun _ => rfl, fun hT => absurd trivial hT⟩
      aligned := fun _ => ⟨rfl, rfl, rfl⟩ }
  registry := rfl
  pending := rfl
  tracer := fun _ => rfl
  textModel := rfl
  trace := rfl
  limits := Eq.symm
  types := Registry.builtins_built s.textModel
  native := by
    intro _ t ht
    change t ∈ (Registry.builtins s.textModel).types at ht
    rw [Registry.types_builtins] at ht
    obtain ⟨kind, -, rfl⟩ := List.mem_map.1 ht
    exact Option.some_ne_none kind

namespace Machine.Tracks

/-- The slots agree in all that mirrored entries have in common. -/
theorem map_slots (hm : m₁.Tracks h m₂) {g : Option Entry → Option Entry}
    (hg : ∀ x y, Entry.Match h.terms id x y → g y = g x) :
    m₂.heap.slots.map g = m₁.heap.slots.map g := by
  have hsize := (hm.heap.aligned trivial).2.1
  apply Array.ext
  · rw [Array.size_map, Array.size_map, hsize]
  · intro i hi₂ hi₁
    rw [Array.size_map] at hi₁ hi₂
    have hmatch := hm.heap.slots ⟨i⟩
    simp only [Heap.lookup?, Equiv.refl_apply, Array.getElem?_eq_getElem hi₁,
      Array.getElem?_eq_getElem hi₂, Option.join_some] at hmatch
    rw [Array.getElem_map, Array.getElem_map]
    exact hg _ _ hmatch

theorem free (hm : m₁.Tracks h m₂) : m₂.heap.free = m₁.heap.free := by
  obtain ⟨freed, rest₁, rest₂, hfree₁, hfree₂, hrest, -⟩ := hm.heap.free
  rw [hfree₁, hfree₂, hrest trivial, Equiv.coe_refl, List.map_id]

theorem uncharged (hm : m₁.Tracks h m₂) : m₂.uncharged = m₁.uncharged := by
  have hslots : m₂.heap.slots.map (Option.map fun e => { e with charge := 0 }) =
      m₁.heap.slots.map (Option.map fun e => { e with charge := 0 }) := by
    apply hm.map_slots
    intro x y hxy
    cases hxy with
    | empty => rfl
    | used he => simp only [Option.map_some, he.count, he.body, Body.rename_id]
  have hbytes := (hm.heap.aligned trivial).2.2
  simp only [Machine.uncharged, Machine.unlimited, hslots, hm.free, hbytes, hm.heap.meter.allocations,
    hm.registry, hm.pending, hm.tracer trivial, hm.textModel, hm.trace]

/-- Where both machines count bytes or neither does, they count the same. -/
theorem unlimited (hm : m₁.Tracks h m₂) (hcharged : l.memory.isSome = l'.memory.isSome) :
    m₂.unlimited = m₁.unlimited := by
  have hslots : m₂.heap.slots.map id = m₁.heap.slots.map id := by
    apply hm.map_slots
    intro x y hxy
    cases hxy with
    | empty => rfl
    | @used e₁ e₂ he =>
      have hbody : e₂.body = e₁.body := he.body.trans e₁.body.rename_id
      cases e₁
      cases e₂
      cases he.count
      cases hbody
      cases he.charge hcharged
      rfl
  rw [Array.map_id, Array.map_id] at hslots
  have hbytes := (hm.heap.aligned trivial).2.2
  simp only [Machine.unlimited, hslots, hm.free, hbytes, hm.heap.meter.allocations,
    hm.heap.meter.memory hcharged, hm.registry, hm.pending, hm.tracer trivial, hm.textModel, hm.trace]

theorem hostFree (hm : m₁.Tracks h m₂) (v : Value) (jobs : List SlotKind) : m₁.HostFree v jobs := by
  intro id t _ ht hhost
  exact absurd hhost (hm.native trivial t (List.mem_of_getElem? ht))

end Machine.Tracks

inductive Outcome.Tracks {α : Type} (h : l.Within l') :
    Outcome (Machine υ) Failure α → Outcome (Machine υ) Failure α → Prop
  | done {n₁ n₂ : Machine υ} (a : α) (hn : n₁.Tracks h n₂) : Tracks h (.done a n₁) (.done a n₂)
  | failed {n₁ n₂ : Machine υ} (e : Failure) (hn : n₁.Tracks h n₂) :
    Tracks h (.failed e n₁) (.failed e n₂)
  | fault (k : Fault) : Tracks h (.fault k) (.fault k)

theorem Request.respond_tracks {q : Request υ} (hm : m₁.Tracks h m₂) (hq : ∀ spec, q ≠ .register spec)
    (hserved : ((q.respond H).run m₁).isRefusal = false) :
    ((q.respond H).run m₁).Tracks h ((q.respond H).run m₂) := by
  have hstep : InStep h.terms (Equiv.refl Handle) (fun _ => True) FailedRefusal (q.respond H)
      ((q.rename (Equiv.refl Handle)).respond H) m₁ m₂
      (Gives h.terms (Equiv.refl Handle) (fun _ => True) Reply.rename) :=
    respond_inStep hm (fun hT => absurd trivial hT) (fun hT => absurd trivial hT)
      (fun _ _ _ _ => trivial) (fun _ => hq)
      fun target key jobs _ => ⟨hm.hostFree target jobs, hm.hostFree key _⟩
  rw [Equiv.coe_refl, rename_id] at hstep
  unfold InStep at hstep
  generalize (q.respond H).run m₁ = o₁ at hserved hstep
  generalize (q.respond H).run m₂ = o₂ at hstep
  cases hstep with
  | done hgives =>
    obtain ⟨f', known', hagree, rfl, hn⟩ := hgives
    obtain rfl : f' = Equiv.refl Handle := Equiv.ext fun r => (hagree r trivial).1
    obtain rfl : known' = fun _ => True :=
      funext fun r => propext ⟨fun _ => trivial, fun _ => (hagree r trivial).2⟩
    rw [Equiv.coe_refl, Reply.rename_id]
    exact .done _ hn
  | failed e hn => exact .failed e hn
  | fault k => exact .fault k
  | refused _ hrefusal _ => simp [Outcome.isRefusal, show _ = _ from hrefusal] at hserved

theorem Program.run_tracks {p : Program υ} (hp : p.Native) (hm : m₁.Tracks h m₂)
    (hserved : ∀ o ∈ p.run H m₁, o.isRefusal = false) :
    List.Forall₂ (Outcome.Tracks h) (p.run H m₁) (p.run H m₂) := by
  induction p generalizing m₁ m₂ with
  | stop => exact .nil
  | ask q next ih =>
    obtain ⟨hq, hnext⟩ := hp
    unfold run at hserved ⊢
    have hstep : ((q.respond H).run m₁).isRefusal = false →
        ((q.respond H).run m₁).Tracks h ((q.respond H).run m₂) := q.respond_tracks hm hq
    generalize (q.respond H).run m₁ = o₁ at hserved hstep
    generalize (q.respond H).run m₂ = o₂ at hstep
    cases o₁ with
    | done a n₁ =>
      cases hstep rfl with
      | done _ hn =>
        exact .cons (.done a hn) (ih _ (hnext _) hn fun o ho => hserved o (.tail _ ho))
    | failed e n₁ =>
      cases hstep (hserved _ (.head _)) with
      | failed _ hn =>
        exact .cons (.failed e hn) (ih _ (hnext _) hn fun o ho => hserved o (.tail _ ho))
    | fault k =>
      cases hstep rfl
      exact .cons (.fault k) .nil

theorem Outcome.Tracks.isRefusal {α : Type} {o₁ o₂ : Outcome (Machine υ) Failure α}
    (ho : o₁.Tracks h o₂) : o₂.isRefusal = o₁.isRefusal := by
  cases ho <;> rfl

theorem Outcome.Tracks.mapState {α : Type} {o₁ o₂ : Outcome (Machine υ) Failure α}
    {g : Machine υ → Machine υ} (ho : o₁.Tracks h o₂) (hg : ∀ n₁ n₂, n₁.Tracks h n₂ → g n₂ = g n₁) :
    o₂.mapState g = o₁.mapState g := by
  cases ho with
  | done a hn => exact congrArg (Outcome.done a) (hg _ _ hn)
  | failed e hn => exact congrArg (Outcome.failed e) (hg _ _ hn)
  | fault k => rfl

theorem map_eq_of_tracks {δ : Type} {os₁ os₂ : List (Outcome (Machine υ) Failure (Reply υ))}
    {g : Outcome (Machine υ) Failure (Reply υ) → δ} (hos : List.Forall₂ (Outcome.Tracks h) os₁ os₂)
    (hg : ∀ o₁ o₂, o₁.Tracks h o₂ → g o₂ = g o₁) : os₂.map g = os₁.map g := by
  rw [← List.forall₂_eq_eq_eq, List.forall₂_map_left_iff, List.forall₂_map_right_iff]
  exact (hos.imp fun o₁ o₂ ho => hg o₁ o₂ ho).flip

/-- Looser limits change nothing for a program that is not refused anything. -/
theorem Program.run_under_looser_limits (H : Host υ) (s : Settings) {p : Program υ} (hp : p.Native)
    (hwithin : l.Within l')
    (hserved : ∀ o ∈ p.run H (start { s with limits := l }), o.isRefusal = false) :
    (∀ o ∈ p.run H (start { s with limits := l' }), o.isRefusal = false) ∧
    (p.run H (start { s with limits := l' })).map (Outcome.mapState Machine.uncharged) =
      (p.run H (start { s with limits := l })).map (Outcome.mapState Machine.uncharged) ∧
    (l.memory.isSome = l'.memory.isSome →
      (p.run H (start { s with limits := l' })).map (Outcome.mapState Machine.unlimited) =
        (p.run H (start { s with limits := l })).map (Outcome.mapState Machine.unlimited)) := by
  have hruns := run_tracks hp (start_tracks hwithin s) hserved
  refine ⟨?_, ?_, fun hcharged => ?_⟩
  · have hsame := map_eq_of_tracks hruns fun o₁ o₂ ho => ho.isRefusal
    intro o ho
    have hmem : o.isRefusal ∈ (p.run H (start { s with limits := l })).map Outcome.isRefusal :=
      hsame ▸ List.mem_map_of_mem ho
    obtain ⟨o', ho', hrefusal⟩ := List.mem_map.1 hmem
    exact hrefusal ▸ hserved o' ho'
  · exact map_eq_of_tracks hruns fun o₁ o₂ ho => ho.mapState fun n₁ n₂ hn => hn.uncharged
  · exact map_eq_of_tracks hruns fun o₁ o₂ ho => ho.mapState fun n₁ n₂ hn => hn.unlimited hcharged

/-- A dictionary takes in a string, grows, is asked for a missing key and is freed with the string; then a
slot is used again. -/
def Program.reuse : Program DelegateSlot :=
  ofList [.newBytes [0x61, 0x62], .newDict [(.int 1, .ref ⟨0⟩)], .set (.int 7) (.ref ⟨1⟩) (.int 2),
    .get (.ref ⟨1⟩) (.int 9), .drop (.ref ⟨1⟩), .newInt (2 ^ 70)]

/-- Three allocations are just enough, and bytes are counted in the first run only. -/
theorem Program.run_under_looser_limits_reuse :
    (∀ o ∈ reuse.run (DelegateSlot.host 2) (start { limits := ⟨some 3, some 1000⟩ }),
      o.isRefusal = false) ∧
    (reuse.run (DelegateSlot.host 2) (start { limits := ⟨some 3, none⟩ })).map
        (Outcome.mapState Machine.uncharged) =
      (reuse.run (DelegateSlot.host 2) (start { limits := ⟨some 3, some 1000⟩ })).map
        (Outcome.mapState Machine.uncharged) := by
  have hnative : reuse.Native := native_ofList (by simp)
  have hwithin : Limits.Within ⟨some 3, some 1000⟩ ⟨some 3, none⟩ :=
    ⟨fun y hy => ⟨y, hy, Nat.le_refl _⟩, fun y hy => by cases hy⟩
  have hserved : ∀ o ∈ reuse.run (DelegateSlot.host 2) (start { limits := ⟨some 3, some 1000⟩ }),
      o.isRefusal = false := by
    decide +kernel
  exact ⟨hserved, (run_under_looser_limits _ {} hnative hwithin hserved).2.1⟩

end ItemAccess
