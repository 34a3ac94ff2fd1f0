import ItemAccess.Proofs.Script.HostSlot

/-!
# A host that hands reads on

Its only slot reads in the first field of an instance what is read in the instance. The slot calls the
machine again, which may call the slot again; the nesting has a bound, beyond which the slot fails with
an exception. So this host never faults as long as it owns what it uses.
-/

namespace ItemAccess

open Attempt Machine

variable {υ : SlotKind → Type}

/-- The discipline of those who use only what they own: the store stays sound, and there are no
faults. -/
def Discipline.careful (calm : Pending → Prop) (hquiet : calm {}) : Discipline υ where
  good := fun h g owned => h.Sound g owned
  safe := True
  calm := calm
  writes := fun _ => True
  keyed := False
  evolving := False
  moved := fun hm hs => hs.move hm
  registered := fun hspec hs => hs.register (hspec trivial)
  accounted := fun hs => hs.accounted
  sound := fun _ hs => hs
  quiet := hquiet

inductive DelegateSlot : SlotKind → Type where
  | first : DelegateSlot .get

namespace DelegateSlot

def hostWith (get : (obj key : Value) → SlotAction DelegateSlot Value) : Host DelegateSlot where
  get := fun _ => get
  set := nofun
  del := nofun
  getAt := nofun
  setAt := nofun
  length := nofun
  asIndex := nofun

/-- The host that hands on no deeper than `depth`. -/
def host : Nat → Host DelegateSlot
  | 0 => hostWith fun _ _ => raise (.withMessage .systemError "handed on too often")
  | depth + 1 => hostWith fun obj key => HostSlot.withInner obj (getItem (host depth) · key)

theorem hostWith_keeps {D : Discipline DelegateSlot}
    {get : (obj key : Value) → SlotAction DelegateSlot Value}
    (hget : ∀ {obj key m owned}, D.Call m owned (.host first) obj [key] →
      D.Gives (get obj key) m owned Value.handles) : (hostWith get).Keeps D where
  get := fun {u} => by cases u; exact hget
  set := fun {u} => nomatch u
  del := fun {u} => nomatch u
  getAt := fun {u} => nomatch u
  setAt := fun {u} => nomatch u
  length := fun {u} => nomatch u
  asIndex := fun {u} => nomatch u

/-- The host keeps to every discipline under which slots are only called when nothing is pending. -/
theorem host_keeps {D : Discipline DelegateSlot} (hD : ∀ p, D.calm p → p.isSet = false)
    (depth : Nat) : (host depth).Keeps D := by
  induction depth with
  | zero => exact hostWith_keeps fun hc => hc.after.of_eq rfl rfl
  | succ depth ih =>
    refine hostWith_keeps fun {obj key m owned} hc => ?_
    refine HostSlot.withInner_keeps hc.good hc.receiver fun v m₁ hg₁ hp₁ => ?_
    have hkey := hc.operands key (by simp)
    refine Discipline.getItem_keeps ih hg₁ (fun r hr => by simp [hr]) (hkey.mono _) fun hs => ?_
    rw [hp₁]
    exact hD m.pending (hc.calm hs)

theorem host_careful (depth : Nat) :
    (host depth).Keeps (.careful (fun p => p.isSet = false) rfl) :=
  host_keeps (fun _ h => h) depth

end DelegateSlot

end ItemAccess
