import ItemAccess.Proofs.Client

/-!
# Properties of the store that last

A property that no move of the store breaks holds after every run in which the host uses what it owns.
Containers that a limit stands in the way of are not excluded: what they strand is lost, but nothing is
freed too early.
-/

namespace ItemAccess

open Machine

variable {υ : SlotKind → Type} {H : Host υ} {s : Settings} {c c' : Client υ} {q : Request υ}
  {P : Heap → Prop}

/-- No move breaks the property, as long as every reference is counted. -/
def Heap.Lasting (P : Heap → Prop) : Prop :=
  ∀ {υ : SlotKind → Type} {g : Registry υ} {writes : Handle → Prop} {h h' : Heap}
    {owned taken given : Multiset Handle}, Move g writes h taken given h' →
      h.Accounted (owned + taken) → P h → P h'

/-- The discipline of a lasting property. References may be lost, and a fault ends a run. -/
def Discipline.upholding (hP : Heap.Lasting P) : Discipline υ where
  good := fun h _ owned => (∃ lost, h.Accounted (owned + lost)) ∧ P h
  safe := False
  calm := fun _ => True
  writes := fun _ => True
  keyed := False
  evolving := False
  moved := by
    rintro h h' g owned taken given hm ⟨⟨lost, ha⟩, hh⟩
    rw [add_right_comm] at ha
    have ha' := hm.accounted ha
    rw [add_right_comm] at ha'
    exact ⟨⟨lost, ha'⟩, hP hm ha hh⟩
  registered := fun _ h => h
  accounted := fun h => h.1
  sound := False.elim
  quiet := trivial

def Discipline.carefulUpholding (calm : Pending → Prop) (hquiet : calm {}) (hP : Heap.Lasting P) :
    Discipline υ where
  good := fun h g owned => h.Sound g owned ∧ P h
  safe := True
  calm := calm
  writes := fun _ => True
  keyed := False
  evolving := False
  moved := by
    rintro h h' g owned taken given hm ⟨hs, hh⟩
    obtain ⟨lost, ha⟩ := hs.accounted
    rw [add_right_comm] at ha
    exact ⟨hs.move hm, hP hm ha hh⟩
  registered := fun hspec h => ⟨h.1.register (hspec trivial), h.2⟩
  accounted := fun h => h.1.accounted
  sound := fun _ h => h.1
  quiet := hquiet

namespace Client

variable {hP : Heap.Lasting P}

/-- One request of a host that uses what it owns. -/
theorem serve_upholding (hH : H.Keeps (.upholding hP)) (hc : c.Good (.upholding hP))
    (hq : c.Owns q) (hserve : c.serve H q = .ok c') : c'.Good (.upholding hP) := by
  have hkeeps := serve_keeps hH hc hq (fun _ _ => .of_not_safe id) False.elim ?_
  · exact hkeeps.1 c' hserve
  · rintro f - - h g lost ⟨⟨more, ha⟩, hh⟩
    rw [add_assoc] at ha
    exact ⟨⟨lost + more, ha⟩, hh⟩

theorem Reached.upholding (hH : H.Keeps (.upholding hP)) (hempty : P (.empty s.limits))
    (hc : Reached H Owns s c) : c.Good (.upholding hP) := by
  induction hc with
  | start => exact ⟨⟨0, Heap.empty_accounted s.limits⟩, hempty⟩
  | step _ hq hserve ih => exact serve_upholding hH ih hq hserve

end Client

end ItemAccess
