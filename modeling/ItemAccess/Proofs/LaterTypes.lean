import ItemAccess.Proofs.FailedAccess
import ItemAccess.Proofs.Machine.Inserted

/-!
# Later types disturb nothing

Types that are registered later neither change a type that is there nor what is done with its objects,
whatever their names are. The slots of the host may register types themselves and make instances of them;
then their types have other numbers after the registration than they had before it. Only what a name means
they must not ask for.
-/

namespace ItemAccess

open Attempt Machine

variable {υ : SlotKind → Type}

theorem Registry.Built.le_length {g : Registry υ} (hg : g.Built) : 8 ≤ g.types.length := by
  obtain ⟨model, hosts, htypes, -⟩ := hg
  rw [htypes, List.length_append]
  exact Nat.le_add_right 8 hosts.length

theorem Machine.Inserted.heap_eq {m m' : Machine υ} {plain : (k : SlotKind) → υ k → Prop}
    (hm : m.Inserted m.registry.types.length plain m') : m'.heap = m.heap := by
  rw [hm.heap, Heap.retype_past hm.typed le_rfl]

end ItemAccess
