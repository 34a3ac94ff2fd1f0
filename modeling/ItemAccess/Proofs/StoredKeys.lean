import ItemAccess.Proofs.Client
import ItemAccess.Proofs.Script.HostSlot

/-!
# The keys that dicts have recorded

A dict records the key of a key object when the object is put in. After every run in which the host
uses what it owns, the recorded key still is the key of the object, although objects have come and gone
in the slots that keys name. Containers that a limit stands in the way of are not excluded: what they
strand is lost, but nothing is freed too early.
-/

namespace ItemAccess

open Machine

variable {υ : SlotKind → Type} {H : Host υ} {s : Settings} {c c' : Client υ} {q : Request υ}

def Discipline.hashing : Discipline υ where
  good := fun h _ owned => (∃ lost, h.Accounted (owned + lost)) ∧ h.Keyed
  safe := False
  calm := fun _ => True
  writes := fun _ => True
  keyed := True
  evolving := False
  moved := by
    rintro h h' g owned taken given hm ⟨⟨lost, ha⟩, hk⟩
    rw [add_right_comm] at ha
    have ha' := hm.accounted ha
    rw [add_right_comm] at ha'
    exact ⟨⟨lost, ha'⟩, hm.keyed ha hk⟩
  registered := fun _ h => h
  accounted := fun h => h.1
  sound := False.elim
  quiet := trivial

namespace Client

theorem hashing_writable {v : Value} : Discipline.hashing.Writable (υ := υ) v :=
  .of_not_safe id

/-- One request of a host that uses what it owns. -/
theorem serve_hashing (hH : H.Keeps .hashing) (hc : c.Good .hashing) (hq : c.Owns q)
    (hserve : c.serve H q = .ok c') : c'.Good .hashing := by
  have hkeeps := serve_keeps hH hc hq (fun _ _ => hashing_writable) False.elim ?_
  · exact hkeeps.1 c' hserve
  · rintro f - - h g lost ⟨⟨more, ha⟩, hk⟩
    rw [add_assoc] at ha
    exact ⟨⟨lost + more, ha⟩, hk⟩

theorem Reached.hashing (hH : H.Keeps .hashing) (hc : Reached H Owns s c) : c.Good .hashing := by
  induction hc with
  | start => exact ⟨⟨0, Heap.empty_accounted s.limits⟩, Heap.empty_keyed s.limits⟩
  | step _ hq hserve ih => exact serve_hashing hH ih hq hserve

/-- A run, from `c` to the second client, of a host that uses what it owns and does not give up the
value `v`. -/
inductive Holding (H : Host υ) (v : Value) (c : Client υ) : Client υ → Prop
  | here : Holding H v c c
  | step {c₁ c₂ : Client υ} {q : Request υ} (hrun : Holding H v c c₁) (hq : c₁.Owns q)
    (hv : v.Within (c₁.owned - handles q.consumed)) (hserve : c₁.serve H q = .ok c₂) :
    Holding H v c c₂

theorem Holding.hash {v : Value} {k : Key} (hH : H.Keeps .hashing) (hc : c.Good .hashing)
    (hrun : Holding H v c c') (hk : (c.machine.heap.hash v).run = .ok (.ok k)) :
    c'.Good .hashing ∧ (c'.machine.heap.hash v).run = .ok (.ok k) := by
  induction hrun with
  | here => exact ⟨hc, hk⟩
  | step _ hq hv hserve ih =>
    obtain ⟨hg, hk₁⟩ := ih
    obtain ⟨more, ha⟩ := serve_after hH hg hq (fun _ _ => hashing_writable) False.elim hserve
    exact ⟨serve_hashing hH hg hq hserve, ha.hash trivial v k hv hk₁⟩

/-- In every dict that is there, no two entries have recorded equal keys, and the key of every key
object is the recorded one. An instance that a recorded key names, alone or within tuples, is there
and is held by the key object, so that its slot is given to no other object. What the host goes on
holding keeps its key. -/
theorem stored_keys_stay_current (hH : H.Keeps .hashing) (hc : Reached H Owns s c) :
    (∀ r entries, c.machine.heap.body r = .ok (.dict entries) →
      (entries.map (·.hash)).Nodup ∧
      ∀ e ∈ entries, (c.machine.heap.hash e.key).run = .ok (.ok e.hash) ∧
        ∀ x, e.hash.Names x →
          (∃ t type fields, e.key = .ref t ∧ Relation.ReflTransGen c.machine.heap.Nests x t ∧
            c.machine.heap.body x = .ok (.inst type fields)) ∧
          ∀ b r' h', c.machine.heap.allocate b = .ok (.ok (r', h')) → r' ≠ x) ∧
    ∀ v k c', Holding H v c c' → (c.machine.heap.hash v).run = .ok (.ok k) →
      (c'.machine.heap.hash v).run = .ok (.ok k) := by
  have hg := hc.hashing hH
  obtain ⟨⟨lost, ha⟩, hkeyed⟩ := hg
  constructor
  · intro r entries hb
    obtain ⟨hdistinct, hcurrent⟩ := hkeyed r entries hb
    refine ⟨hdistinct, fun e he => ⟨hcurrent e he, fun x hx => ?_⟩⟩
    obtain ⟨t, type, fields, hkey, hpath, hinst⟩ := Heap.hashWithin_names (hcurrent e he) hx
    refine ⟨⟨t, type, fields, hkey, hpath, hinst⟩, ?_⟩
    rintro b r' h' halloc rfl
    obtain ⟨e', he', -⟩ := Heap.body_eq_ok.1 hinst
    rw [Heap.lookup?_of_allocate ha.free halloc] at he'
    cases he'
  · intro v k c' hrun hk
    exact (hrun.hash hH (hc.hashing hH) hk).2

/-- A dict has an instance as a key within two tuples, and another one alone, which lives in a slot that
has been in use before. The host keeps none of the key objects, and a list that it wants to make of its
last byte string is refused. -/
def recycledRun : List (Request HostSlot) :=
  [.register { name := "Point" }, .newInstance ⟨8⟩ [], .newTuple [.ref ⟨0⟩, .int 7],
    .newTuple [.ref ⟨1⟩], .newDict [(.ref ⟨2⟩, .int 1)], .newInstance ⟨8⟩ [], .drop (.ref ⟨4⟩),
    .newInstance ⟨8⟩ [], .set (.int 2) (.ref ⟨3⟩) (.ref ⟨4⟩), .drop (.ref ⟨4⟩), .newBytes [0x61, 0x62],
    .clone (.ref ⟨5⟩), .newList [.ref ⟨5⟩]]

theorem stored_keys_stay_current_recycledRun :
    ∃ c, Reached (HostSlot.host 1) Owns { limits := { allocations := some 7 } } c ∧
      (c.machine.heap.hash (.ref ⟨2⟩)).run = .ok (.ok (.tuple [.tuple [.identity ⟨0⟩, .integer 7]])) ∧
      (c.machine.heap.hash (.ref ⟨4⟩)).run = .ok (.ok (.identity ⟨4⟩)) ∧
      (∀ b r h, c.machine.heap.allocate b = .ok (.ok (r, h)) → r ≠ ⟨0⟩) ∧
      ∃ c', Holding (HostSlot.host 1) (.ref ⟨5⟩) c c' ∧
        (c'.machine.heap.hash (.ref ⟨5⟩)).run = .ok (.ok (.bytes [0x61, 0x62])) := by
  have hrun : ((follow (HostSlot.host 1) Owns
      (start { limits := { allocations := some 7 } }) recycledRun).any fun c =>
        c.machine.heap.body ⟨3⟩ = .ok (.dict
          [⟨.tuple [.tuple [.identity ⟨0⟩, .integer 7]], .ref ⟨2⟩, .int 1⟩,
            ⟨.identity ⟨4⟩, .ref ⟨4⟩, .int 2⟩]) ∧
        (c.machine.heap.hash (.ref ⟨5⟩)).run = .ok (.ok (.bytes [0x61, 0x62])) ∧
        c.Owns (.drop (.ref ⟨3⟩)) ∧
        (Value.ref ⟨5⟩).Within (c.owned - handles (Request.drop (υ := HostSlot) (.ref ⟨3⟩)).consumed) ∧
        (c.serve (HostSlot.host 1) (.drop (.ref ⟨3⟩))).isOk = true) = true := by decide +kernel
  obtain ⟨c, hc, hdict, hbytes, hq, hv, hok⟩ := exists_reached hrun
  obtain ⟨hkeys, hheld⟩ := stored_keys_stay_current (HostSlot.host_keeps id 1) hc
  obtain ⟨-, hcurrent⟩ := hkeys ⟨3⟩ _ hdict
  obtain ⟨htuple, hnames⟩ := hcurrent _ List.mem_cons_self
  obtain ⟨hidentity, -⟩ := hcurrent _ (List.mem_cons_of_mem _ List.mem_cons_self)
  have hnested : Key.Names (.tuple [.tuple [.identity ⟨0⟩, .integer 7]]) ⟨0⟩ :=
    .item List.mem_cons_self (.item List.mem_cons_self (.identity ⟨0⟩))
  refine ⟨c, hc, htuple, hidentity, (hnames ⟨0⟩ hnested).2, ?_⟩
  cases hserve : c.serve (HostSlot.host 1) (.drop (.ref ⟨3⟩)) with
  | error f =>
    rw [hserve] at hok
    cases hok
  | ok c' =>
    have hholding : Holding (HostSlot.host 1) (.ref ⟨5⟩) c c' := .step .here hq hv hserve
    exact ⟨c', hholding, hheld _ _ c' hholding hbytes⟩

end Client

end ItemAccess
