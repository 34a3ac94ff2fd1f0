import ItemAccess.Proofs.Lasting
import ItemAccess.Proofs.Script.HostSlot
import ItemAccess.Proofs.Store.Equality

/-!
# A dict has one entry for equal values

After every run in which the host uses what it owns, integers are objects only if they do not fit an
index. So no number is held in two ways that differ in the key, and the keys of two values are equal just
if the values are.
-/

namespace ItemAccess

open Machine

variable {υ : SlotKind → Type} {H : Host υ} {s : Settings} {c : Client υ}

theorem Heap.large_lasting : Heap.Lasting Heap.Large :=
  fun hm ha hl => hm.large ha hl

namespace Client

/-- An integer that is an object lies beyond 64 bits. Of values that have a key, two have the same key
just if both are nothing, numbers that are the same extended real number, the same NaN, byte strings with
the same bytes, tuples of pairwise equal items or the same instance. -/
theorem keys_equal_iff_values_equal (hH : H.Keeps (.upholding Heap.large_lasting))
    (hc : Reached H Owns s c) :
    (∀ r n, c.machine.heap.body r = .ok (.bigInt n) → n < -2 ^ 63 ∨ 2 ^ 63 ≤ n) ∧
    ∀ v w k l, (c.machine.heap.hash v).run = .ok (.ok k) →
      (c.machine.heap.hash w).run = .ok (.ok l) → (k = l ↔ c.machine.heap.Equal v w) := by
  obtain ⟨-, hlarge⟩ := hc.upholding hH (Heap.empty_large s.limits)
  constructor
  · intro r n hr
    have hmin : Int64.minValue.toInt = -2 ^ 63 := rfl
    have hmax : Int64.maxValue.toInt = 2 ^ 63 - 1 := rfl
    have hfits := Position.ofInt?_eq_none.1 (hlarge r n hr)
    unfold Position.Fits at hfits
    omega
  · intro v w k l hk hl
    exact Heap.hashWithin_eq_iff hlarge hk hl

/-- Two to the power of 63 is held as an object and as a float, each in a tuple beside a zero. -/
def mixedRun : List (Request HostSlot) :=
  [.newInt (2 ^ 63), .newTuple [.ref ⟨0⟩, .bool false],
    .newTuple [.float ⟨0x43e0000000000000⟩, .float ⟨0x8000000000000000⟩]]

theorem keys_equal_iff_values_equal_mixedRun :
    ∃ c, Reached (HostSlot.host 1) Owns {} c ∧ c.machine.heap.body ⟨0⟩ = .ok (.bigInt (2 ^ 63)) ∧
      c.machine.heap.Equal (.ref ⟨1⟩) (.ref ⟨2⟩) ∧
      ¬ c.machine.heap.Equal (.int Int64.maxValue) (.float ⟨0x43e0000000000000⟩) := by
  have hrun : ((follow (HostSlot.host 1) Owns (start {}) mixedRun).any fun c =>
      c.machine.heap.body ⟨0⟩ = .ok (.bigInt (2 ^ 63)) ∧
      (c.machine.heap.hash (.ref ⟨1⟩)).run = .ok (.ok (.tuple [.bigInt (2 ^ 63), .integer 0])) ∧
      (c.machine.heap.hash (.ref ⟨2⟩)).run = .ok (.ok (.tuple [.bigInt (2 ^ 63), .integer 0])) ∧
      (c.machine.heap.hash (.float ⟨0x43e0000000000000⟩)).run = .ok (.ok (.bigInt (2 ^ 63)))) =
        true := by decide +kernel
  obtain ⟨c, hc, hbig, hobject, hfloat, hkey⟩ := exists_reached hrun
  obtain ⟨-, hkeys⟩ := keys_equal_iff_values_equal (HostSlot.host_keeps id 1) hc
  refine ⟨c, hc, hbig, (hkeys _ _ _ _ hobject hfloat).1 rfl, fun heq => ?_⟩
  cases (hkeys (.int Int64.maxValue) _ (.integer Int64.maxValue) _ rfl hkey).2 heq

end Client

end ItemAccess
