import ItemAccess.Proofs.Client
import ItemAccess.Proofs.Script.HostSlot

/-!
# Reference counts are exact

After every run in which the host uses what it owns, the count of an object is the number of
references to it: those that the host owns, those stored in objects, and the one that the store keeps
for a one-byte string. Accesses may fail in any way; only a container that a limit stands in the way
of is excluded, since its items are then lost.
-/

namespace ItemAccess

open Machine

variable {υ : SlotKind → Type} {H : Host υ} {s : Settings} {c c' : Client υ} {q : Request υ}

/-- The discipline of exact counts. A fault ends a run and is not excluded. -/
def Discipline.counting : Discipline υ where
  good := fun h _ owned => h.Accounted owned
  safe := False
  calm := fun _ => True
  writes := fun _ => True
  keyed := False
  evolving := False
  moved := Heap.Move.accounted
  registered := fun _ h => h
  accounted := fun h => ⟨0, by rwa [add_zero]⟩
  sound := False.elim
  quiet := trivial

namespace Client

/-- A request with operands that are owned, and no container that a limit stands in the way of. -/
structure Affordable (H : Host υ) (c : Client υ) (q : Request υ) : Prop where
  owns : c.Owns q
  granted : ∀ f ∈ ((q.perform H).run c.machine).failure?, ¬ q.Refused f

instance (H : Host υ) (c : Client υ) (q : Request υ) : Decidable (c.Affordable H q) :=
  decidable_of_iff (c.Owns q ∧ ∀ f ∈ ((q.perform H).run c.machine).failure?, ¬ q.Refused f)
    ⟨fun h => ⟨h.1, h.2⟩, fun h => ⟨h.owns, h.granted⟩⟩

theorem serve_accounted (hH : H.Keeps .counting) (hc : c.machine.heap.Accounted c.owned)
    (hq : c.Affordable H q) (hserve : c.serve H q = .ok c') :
    c'.machine.heap.Accounted c'.owned := by
  have hkeeps := serve_keeps (D := .counting) hH hc hq.owns (fun _ _ _ _ _ => trivial) False.elim
    fun f hr hf => absurd hf (hq.granted f hr)
  exact hkeeps.1 c' hserve

theorem Reached.accounted (hH : H.Keeps .counting) (hc : Reached H (Affordable H) s c) :
    c.machine.heap.Accounted c.owned := by
  induction hc with
  | start => exact Heap.empty_accounted s.limits
  | step _ hq hserve ih => exact serve_accounted hH ih hq hserve

/-- After every run the objects in use are those with a reference, and each count is the number of
references that the host owns, that objects store, and that the store keeps. -/
theorem references_exact (hH : H.Keeps .counting) (hc : Reached H (Affordable H) s c) (r : Handle) :
    (c.machine.heap.isLive r = true ↔ 1 ≤ c.machine.heap.references r) ∧
      c.machine.heap.references r =
        c.owned.count r + c.machine.heap.stored r + c.machine.heap.kept r :=
  ⟨(hc.accounted hH).isLive_iff r, (hc.accounted hH).counts r⟩

/-- A one-byte string is read, stored in an instance and dropped; the list that it is looked up in
through a slot of the host is dropped with the items in it. -/
def sharingRun : List (Request HostSlot) :=
  [.newBytes [0x61, 0x62], .clone (.ref ⟨0⟩), .newList [.ref ⟨0⟩, .ref ⟨0⟩],
    .get (.ref ⟨1⟩) (.int (-1)), .get (.ref ⟨0⟩) (.int 1),
    .register { name := "Echo", mapping := some { get := some (.host .echoKey) } },
    .newInstance ⟨8⟩ [.ref ⟨2⟩], .get (.ref ⟨3⟩) (.ref ⟨1⟩), .get (.ref ⟨1⟩) (.int 7),
    .drop (.ref ⟨1⟩), .drop (.ref ⟨1⟩)]

theorem references_exact_sharingRun :
    ∃ c, Reached (HostSlot.host 1) (Affordable (HostSlot.host 1)) {} c ∧
      c.machine.heap.references ⟨2⟩ = 2 ∧ c.owned.count ⟨2⟩ = 0 ∧ c.machine.heap.stored ⟨2⟩ = 1 ∧
      (c.machine.heap.isLive ⟨2⟩ = true ↔ 1 ≤ c.machine.heap.references ⟨2⟩) ∧
      c.machine.heap.references ⟨2⟩ =
        c.owned.count ⟨2⟩ + c.machine.heap.stored ⟨2⟩ + c.machine.heap.kept ⟨2⟩ := by
  have hrun : ((follow (HostSlot.host 1) (Affordable (HostSlot.host 1)) (start {}) sharingRun).any
      fun c => c.machine.heap.references ⟨2⟩ = 2 ∧ c.owned.count ⟨2⟩ = 0 ∧
        c.machine.heap.stored ⟨2⟩ = 1) = true := by decide +kernel
  obtain ⟨c, hc, hreferences, howned, hstored⟩ := exists_reached hrun
  exact ⟨c, hc, hreferences, howned, hstored, references_exact (HostSlot.host_keeps id 1) hc ⟨2⟩⟩

/-- The reference that the store keeps is one that neither the host owns nor an object stores. -/
theorem references_ne_owned_add_stored :
    ∃ c, Reached (HostSlot.host 1) (Affordable (HostSlot.host 1)) {} c ∧
      c.machine.heap.references ⟨1⟩ ≠ c.owned.count ⟨1⟩ + c.machine.heap.stored ⟨1⟩ := by
  have hrun : ((follow (HostSlot.host 1) (Affordable (HostSlot.host 1)) (start {})
      [.newBytes [0x61], .get (.ref ⟨0⟩) (.int 0)]).any fun c => c.machine.heap.references ⟨1⟩ ≠
        c.owned.count ⟨1⟩ + c.machine.heap.stored ⟨1⟩) = true := by decide +kernel
  exact exists_reached hrun

end Client

end ItemAccess
