import ItemAccess.Proofs.Client
import ItemAccess.Proofs.Delegate

/-!
# Careful clients meet no fault

A client is careful if it uses only what it owns, accesses items when nothing is pending and asks for
types by numbers that were given out. Its store stays sound, whatever limits stand in the way, and no
request ends in a fault.
-/

namespace ItemAccess

open Machine

variable {υ : SlotKind → Type} {H : Host υ} {s : Settings} {c c' : Client υ} {q : Request υ}
  {calm : Pending → Prop} {hquiet : calm {}}

namespace Client

structure Careful (c : Client υ) (q : Request υ) : Prop where
  owns : c.Owns q
  timely : q.Timely c.machine

instance (c : Client υ) (q : Request υ) : Decidable (c.Careful q) :=
  decidable_of_iff (c.Owns q ∧ q.Timely c.machine) ⟨fun h => ⟨h.1, h.2⟩, fun h => ⟨h.owns, h.timely⟩⟩

/-- What a careful client relies on; references may have been lost to a limit. -/
def Sound (c : Client υ) : Prop :=
  c.machine.heap.Sound c.machine.registry c.owned

/-- One careful request: it comes to an end, and the store stays sound. -/
theorem Sound.serve (hH : H.Keeps (.careful calm hquiet)) (hc : c.Sound) (hq : c.Careful q) :
    (∀ c', c.serve H q = .ok c' → c'.Sound) ∧ ∃ c', c.serve H q = .ok c' := by
  have hkeeps := serve_keeps (D := .careful calm hquiet) hH hc hq.owns (fun _ _ _ _ _ => trivial)
    (fun _ => hq.timely)
    fun f _ _ h g lost hs => Heap.Sound.lose hs
  exact ⟨hkeeps.1, hkeeps.2 trivial⟩

theorem Reached.sound (hH : H.Keeps (.careful calm hquiet)) (hc : Reached H Careful s c) :
    c.Sound := by
  induction hc with
  | start => exact Heap.empty_sound s.limits s.textModel
  | step _ hq hserve ih => exact (ih.serve hH hq).1 _ hserve

/-- After every careful run, the next careful request comes to an end: it is done or it fails. -/
theorem careful_never_faults (hH : H.Keeps (.careful calm hquiet)) (hc : Reached H Careful s c)
    (hq : c.Careful q) : ∃ c', c.serve H q = .ok c' :=
  ((hc.sound hH).serve hH hq).2

/-- A key of a dict is also owned; a list is refused, so that a reference to the key is lost; and an
instance that hands reads on to a list comes to hold itself instead. -/
def tangledRun : List (Request DelegateSlot) :=
  [.newBytes [0x61, 0x62], .newInt (2 ^ 70), .newTuple [.ref ⟨0⟩, .ref ⟨1⟩], .clone (.ref ⟨2⟩),
    .newDict [(.ref ⟨2⟩, .int 1)], .newList [.ref ⟨3⟩],
    .register { name := "Delegate", mapping := some { get := some (.host .first) } },
    .newInstance ⟨8⟩ [.ref ⟨4⟩], .get (.ref ⟨5⟩) (.int (-1)), .get (.ref ⟨3⟩) (.ref ⟨2⟩),
    .clone (.ref ⟨2⟩), .newList [.ref ⟨2⟩], .setField (.ref ⟨5⟩) 0 (.ref ⟨5⟩), .drop (.ref ⟨3⟩)]

theorem careful_never_faults_tangledRun :
    ∃ c, Reached (DelegateSlot.host 2) Careful { limits := { allocations := some 6 } } c ∧
      c.machine.heap.live = 4 ∧ c.Careful (.get (.ref ⟨5⟩) (.int 0)) ∧
      ∃ c', c.serve (DelegateSlot.host 2) (.get (.ref ⟨5⟩) (.int 0)) = .ok c' := by
  have hrun : ((follow (DelegateSlot.host 2) Careful
      (start { limits := { allocations := some 6 } }) tangledRun).any fun c =>
        c.machine.heap.live = 4 ∧ c.Careful (.get (.ref ⟨5⟩) (.int 0))) = true := by decide +kernel
  obtain ⟨c, hc, hlive, hq⟩ := exists_reached hrun
  exact ⟨c, hc, hlive, hq, careful_never_faults (DelegateSlot.host_careful 2) hc hq⟩

end Client

end ItemAccess
