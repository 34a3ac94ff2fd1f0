import ItemAccess.Proofs.Lasting
import ItemAccess.Proofs.Script.HostSlot
import ItemAccess.Proofs.Store.Walk

/-!
# Which values have a key

After every run in which the host uses what it owns, no tuple holds itself through tuples, although
slots are used again and lists, dicts and instances may hold the tuples that they are in. The walk that
gives a value its key therefore ends, and it ends without a key at the first list or dict.
-/

namespace ItemAccess

open Machine

variable {υ : SlotKind → Type} {H : Host υ} {s : Settings} {c : Client υ}

theorem Heap.grounded_lasting : Heap.Lasting Heap.Grounded :=
  fun hm ha hg => hm.grounded ha hg

namespace Client

/-- No tuple leads to itself from item to item. The walk through a value ends before its steps run out,
so that more of them change nothing. It gives no key just if a list or a dict occurs in the value, alone
or through tuples; the type that it gives then is that of the first of them, depth first and from the
left. -/
theorem hash_stops_at_first_container (hH : H.Keeps (.upholding Heap.grounded_lasting))
    (hc : Reached H Owns s c) :
    (∀ r, ¬ Relation.TransGen c.machine.heap.Nests r r) ∧
    (∀ v depth, c.machine.heap.slots.size < depth →
      (c.machine.heap.hash v).run ≠ .error .endless ∧
      (c.machine.heap.hashWithin depth v).run = (c.machine.heap.hash v).run) ∧
    ∀ v, c.machine.heap.Present v →
      ((∃ id, (c.machine.heap.hash v).run = .ok (.error id)) ↔
        ∃ w id, c.machine.heap.Occurs w v ∧ c.machine.heap.unhashable? w = some id) ∧
      ∃ leaves, (∀ ls, c.machine.heap.Leaves [v] ls ↔ ls = leaves) ∧
        (∀ id, (c.machine.heap.hash v).run = .ok (.error id) ↔
          leaves.findSome? c.machine.heap.unhashable? = some id) ∧
        ((∃ k, (c.machine.heap.hash v).run = .ok (.ok k)) ↔
          leaves.findSome? c.machine.heap.unhashable? = none) := by
  obtain ⟨⟨lost, ha⟩, hg⟩ := hc.upholding hH (Heap.empty_grounded s.limits)
  refine ⟨fun r hr => hg.transGen.irrefl.irrefl r hr, fun v depth hdepth => ?_, fun v hv => ?_⟩
  · have hends := ha.hash_ne_endless hg v
    exact ⟨hends, Heap.hashWithin_of_le hdepth hends⟩
  · obtain ⟨x, hx⟩ := ha.hash hg hv
    obtain ⟨leaves, hleaves⟩ := hg.exists_leaves [v]
    have hfirst := Heap.rejected?_hashWithin hg hleaves hx
    have herror (id : TypeId) : (c.machine.heap.hash v).run = .ok (.error id) ↔
        leaves.findSome? c.machine.heap.unhashable? = some id := by
      rw [hx, ← hfirst, Heap.rejected?_eq_some, Except.ok.injEq]
    refine ⟨?_, leaves, fun ls => ⟨fun hls => hls.unique hleaves, ?_⟩, herror, ?_⟩
    · simp only [herror, hleaves.findSome?_isSome_iff, List.mem_singleton, exists_eq_left]
    · rintro rfl
      exact hleaves
    · simp only [hx, ← hfirst, Heap.rejected?_eq_none, Except.ok.injEq]

/-- A tuple stands in a slot that has been in use before, and holds a tuple in a later slot, which holds
a dict, and a list, which comes to hold the tuple. -/
def knottedRun : List (Request HostSlot) :=
  [.newBytes [0x61], .newList [.int 0], .newDict [], .clone (.ref ⟨2⟩), .newTuple [.int 1, .ref ⟨2⟩],
    .drop (.ref ⟨0⟩), .clone (.ref ⟨1⟩), .newTuple [.ref ⟨3⟩, .ref ⟨1⟩],
    .set (.ref ⟨0⟩) (.ref ⟨1⟩) (.int 0)]

theorem hash_stops_at_first_container_knottedRun :
    ∃ c, Reached (HostSlot.host 1) Owns {} c ∧
      c.machine.heap.body ⟨0⟩ = .ok (.tuple [.ref ⟨3⟩, .ref ⟨1⟩]) ∧
      c.machine.heap.body ⟨1⟩ = .ok (.list [.ref ⟨0⟩]) ∧
      ¬ Relation.TransGen c.machine.heap.Nests ⟨0⟩ ⟨0⟩ ∧
      (c.machine.heap.hash (.ref ⟨0⟩)).run = .ok (.error BuiltinKind.dict.typeId) ∧
      ∃ k, (c.machine.heap.hash (.int 1)).run = .ok (.ok k) := by
  have hrun : ((follow (HostSlot.host 1) Owns (start {}) knottedRun).any fun c =>
      c.machine.heap.body ⟨0⟩ = .ok (.tuple [.ref ⟨3⟩, .ref ⟨1⟩]) ∧
      c.machine.heap.body ⟨1⟩ = .ok (.list [.ref ⟨0⟩]) ∧
      c.machine.heap.body ⟨2⟩ = .ok (.dict []) ∧
      c.machine.heap.body ⟨3⟩ = .ok (.tuple [.int 1, .ref ⟨2⟩])) = true := by decide +kernel
  obtain ⟨c, hc, htuple, hlist, hdict, hinner⟩ := exists_reached hrun
  obtain ⟨hacyclic, -, hkeys⟩ := hash_stops_at_first_container (HostSlot.host_keeps id 1) hc
  have hleaves : c.machine.heap.Leaves [.ref ⟨0⟩] [.int 1, .ref ⟨2⟩, .ref ⟨1⟩] :=
    .tuple (Heap.items?_eq_some.2 ⟨_, rfl, htuple⟩) (.tuple (Heap.items?_eq_some.2 ⟨_, rfl, hinner⟩)
      (.leaf rfl (.leaf (by simp [Heap.items?, hdict]) (.leaf (by simp [Heap.items?, hlist]) .nil))))
  obtain ⟨e, he, -⟩ := Heap.body_eq_ok.1 htuple
  obtain ⟨-, leaves, hunique, herror, -⟩ := hkeys (.ref ⟨0⟩) fun r hr => by
    cases hr
    exact ⟨e, he⟩
  obtain rfl := (hunique _).1 hleaves
  obtain ⟨-, ls, hint, -, hkey⟩ := hkeys (.int 1) fun r hr => by cases hr
  obtain rfl := (hint _).1 (.leaf rfl .nil)
  refine ⟨c, hc, htuple, hlist, hacyclic ⟨0⟩, (herror _).2 ?_, hkey.2 rfl⟩
  simp [List.findSome?, Heap.unhashable?, hdict]

end Client

end ItemAccess
