import ItemAccess.Machine.State
import ItemAccess.Proofs.Slot.Registry

/-!
# Registering types

A registration adds one type behind the others and overwrites one entry of the table of names. So types are
numbered in the order in which they come, no number ever means another type, and after every registration
the table gives for each name the largest number of a type that has it.
-/

namespace ItemAccess

open Attempt

variable {υ : SlotKind → Type} {ε : Type}

namespace Registry

variable {g : Registry υ} {id : TypeId} {t : TypeObject υ}

def registerAll (g : Registry υ) (specs : List (TypeSpec υ)) : Registry υ :=
  specs.foldl (fun g spec => (g.register spec).2) g

theorem Built.registerAll (hg : g.Built) (specs : List (TypeSpec υ)) : (g.registerAll specs).Built := by
  induction specs generalizing g with
  | nil => exact hg
  | cons spec specs ih => exact ih (hg.register spec)

/-- What a name has to mean: the largest number of a type with that name. -/
def Meant (g : Registry υ) (name : String) : Option TypeId → Prop
  | some id => (∃ t, g.get? id = some t ∧ t.name = name) ∧
      ∀ id' t', g.get? id' = some t' → t'.name = name → id'.index ≤ id.index
  | none => ∀ id t, g.get? id = some t → t.name ≠ name

/-- The table of names is right about every name. -/
def Named (g : Registry υ) : Prop :=
  ∀ name, g.Meant name (g.find? name)

theorem lookup_filter_ne {names : List (String × TypeId)} {name other : String} (h : other ≠ name) :
    (names.filter (·.1 != other)).lookup name = names.lookup name := by
  induction names with
  | nil => rfl
  | cons entry names ih =>
    obtain ⟨key, id⟩ := entry
    by_cases hkey : key = other
    · subst hkey
      rw [List.filter_cons_of_neg (by simp), ih, List.lookup_cons, beq_false_of_ne h.symm]
    · rw [List.filter_cons_of_pos (by simpa using hkey), List.lookup_cons, List.lookup_cons, ih]

theorem find?_insert (g : Registry υ) (builtin : Option BuiltinKind) (spec : TypeSpec υ) (name : String) :
    (g.insert builtin spec).2.find? name =
      if spec.name = name then some ⟨g.types.length⟩ else g.find? name := by
  unfold find? insert
  rw [List.lookup_cons]
  split_ifs with hname
  · simp [hname]
  · rw [beq_false_of_ne (Ne.symm hname), lookup_filter_ne hname]

theorem get?_insert (g : Registry υ) (builtin : Option BuiltinKind) (spec : TypeSpec υ) (id : TypeId) :
    (g.insert builtin spec).2.get? id =
      if id.index = g.types.length then some (.ofSpec builtin spec) else g.get? id := by
  unfold get? insert
  rw [List.getElem?_append]
  split_ifs with hlt hid hid
  · omega
  · rfl
  · simp [hid]
  · rw [List.getElem?_eq_none (by simp; omega),
      List.getElem?_eq_none (show g.types.length ≤ id.index by omega)]

theorem index_lt_of_get? (ht : g.get? id = some t) : id.index < g.types.length :=
  (List.getElem?_eq_some_iff.1 ht).1

/-- The entry that is overwritten is the only one for which there is a new largest number. -/
theorem Named.insert (hg : g.Named) (builtin : Option BuiltinKind) (spec : TypeSpec υ) :
    (g.insert builtin spec).2.Named := by
  intro name
  rw [find?_insert]
  split_ifs with hname
  · refine ⟨⟨_, by rw [get?_insert, if_pos rfl], hname⟩, fun id t ht _ => ?_⟩
    rw [get?_insert] at ht
    split_ifs at ht with hid
    · exact hid.le
    · exact (index_lt_of_get? ht).le
  · -- a type of another name does not come into it
    have hold {id : TypeId} {t : TypeObject υ} (ht : (g.insert builtin spec).2.get? id = some t)
        (hnamed : t.name = name) : g.get? id = some t := by
      rw [get?_insert] at ht
      split_ifs at ht
      · cases ht
        exact absurd hnamed hname
      · exact ht
    have hmeant := hg name
    cases hfind : g.find? name with
    | none =>
      rw [hfind] at hmeant
      intro id t ht hnamed
      exact hmeant id t (hold ht hnamed) hnamed
    | some id =>
      rw [hfind] at hmeant
      obtain ⟨⟨t, ht, hnamed⟩, hlast⟩ := hmeant
      refine ⟨⟨t, ?_, hnamed⟩, fun id' t' ht' hnamed' => hlast id' t' (hold ht' hnamed') hnamed'⟩
      rw [get?_insert, if_neg (index_lt_of_get? ht).ne]
      exact ht

theorem Named.registerAll (hg : g.Named) (specs : List (TypeSpec υ)) : (g.registerAll specs).Named := by
  induction specs generalizing g with
  | nil => exact hg
  | cons spec specs ih => exact ih (hg.insert none spec)

end Registry

namespace Machine

variable {m : Machine υ}

end Machine

end ItemAccess
