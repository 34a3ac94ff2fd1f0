import ItemAccess.Failure.Complaint
import ItemAccess.Settings

/-!
# The meter of the store

The meter counts allocations and the bytes in use, and refuses what would pass a limit. Bytes are
only counted where their number is limited.
-/

namespace ItemAccess

structure Meter where
  limits : Limits
  allocations : Nat := 0
  memory : Nat := 0
deriving DecidableEq

namespace Meter

/-- Takes `bytes` more into use and says how many of them are charged. -/
def grow (m : Meter) (bytes : Nat) : Except LimitError (Nat × Meter) :=
  match m.limits.memory with
  | none => .ok (0, m)
  | some limit =>
    if limit.toNat < m.memory + bytes then .error (.memory limit.toNat (m.memory + bytes))
    else .ok (bytes, { m with memory := m.memory + bytes })

/-- Counts one allocation of `bytes`. The number of allocations is looked at first. -/
def allocate (m : Meter) (bytes : Nat) : Except LimitError (Nat × Meter) :=
  let counted : Except LimitError (Nat × Meter) := do
    let (charge, m) ← m.grow bytes
    return (charge, { m with allocations := m.allocations + 1 })
  match m.limits.allocations with
  | none => counted
  | some limit =>
    if limit.toNat ≤ m.allocations then .error (.allocations limit.toNat (m.allocations + 1))
    else counted

def free (m : Meter) (bytes : Nat) : Meter :=
  { m with memory := m.memory - bytes }

end Meter

end ItemAccess
