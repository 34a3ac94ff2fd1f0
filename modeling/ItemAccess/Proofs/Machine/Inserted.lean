import ItemAccess.Proofs.Machine.Likeness
import ItemAccess.Proofs.Slot.Registration

/-!
# One more type

Of two machines the second has one type more, and the types behind it have numbers that are greater by one.
There is no object of the additional type. Otherwise the machines are the same, but nothing is said about
what names of types mean. This is a likeness that every access keeps, and so do slots that register types and
make instances of them, as long as they do not ask what a name means.
-/

namespace ItemAccess

open Attempt Machine

variable {υ : SlotKind → Type} {ε : Type} {n : Nat} {plain : (k : SlotKind) → υ k → Prop}

/-- The number of a type when there is one type more, which has the number `n`. -/
def TypeId.past (n : Nat) (id : TypeId) : TypeId :=
  if id.index < n then id else ⟨id.index + 1⟩

theorem Heap.retype_past {h : Heap} {g : Registry υ} (ht : h.TypedBy g) (hn : g.types.length ≤ n) :
    h.retype (.past n) = h := by
  apply Heap.retype_eq_self
  intro r e he
  obtain ⟨t, ht⟩ := ht r e he
  exact if_pos ((Registry.index_lt_of_get? ht).trans_le hn)

theorem insertIdx_concat {α : Type} {l : List α} (hn : n ≤ l.length) (x y : α) :
    (l ++ [y]).insertIdx n x = l.insertIdx n x ++ [y] := by
  induction l generalizing n with
  | nil =>
    obtain rfl := Nat.le_zero.1 hn
    rfl
  | cons a l ih =>
    cases n with
    | zero => rfl
    | succ n =>
      rw [List.cons_append, List.insertIdx_succ_cons, List.insertIdx_succ_cons,
        ih (Nat.le_of_succ_le_succ hn), List.cons_append]

/-- The second machine has one type more, with the number `n`. The slots that types of the first machine
have from the host are `plain`. -/
structure Machine.Inserted (n : Nat) (plain : (k : SlotKind) → υ k → Prop) (m m' : Machine υ) : Prop where
  heap : m'.heap = m.heap.retype (.past n)
  pending : m'.pending = m.pending
  tracer : m'.tracer = m.tracer
  settings : m'.settings = m.settings
  le_length : n ≤ m.registry.types.length
  types : ∃ t, m'.registry.types = m.registry.types.insertIdx n t
  typed : m.heap.TypedBy m.registry
  built : m.registry.Built
  plain : ∀ id t, m.registry.get? id = some t → t.Plain plain

namespace Machine.Inserted

variable {m m' : Machine υ}

theorem withHeap (hm : m.Inserted n plain m') {h : Heap} (ht : h.TypedBy m.registry) :
    { m with heap := h }.Inserted n plain { m' with heap := h.retype (.past n) } :=
  { hm with heap := rfl, typed := ht }

theorem withPending (hm : m.Inserted n plain m') (f : Pending → Pending) :
    { m with pending := f m.pending }.Inserted n plain { m' with pending := f m'.pending } :=
  { hm with pending := congrArg f hm.pending }

theorem get? (hm : m.Inserted n plain m') (id : TypeId) :
    m'.registry.get? (id.past n) = m.registry.get? id := by
  obtain ⟨t, ht⟩ := hm.types
  unfold Registry.get? TypeId.past
  rw [ht]
  split_ifs with hid
  · exact List.getElem?_insertIdx_of_lt hid
  · exact List.getElem?_insertIdx_of_gt (Nat.lt_succ_of_le (Nat.le_of_not_lt hid))

theorem length (hm : m.Inserted n plain m') :
    m'.registry.types.length = m.registry.types.length + 1 := by
  obtain ⟨t, ht⟩ := hm.types
  rw [ht, List.length_insertIdx_of_le_length hm.le_length]

/-- The same type is registered in both machines. -/
theorem register (hm : m.Inserted n plain m') {spec : TypeSpec υ}
    (hplain : (TypeObject.ofSpec none spec).Plain plain) :
    { m with registry := (m.registry.register spec).2 }.Inserted n plain
      { m' with registry := (m'.registry.register spec).2 } := by
  obtain ⟨t, ht⟩ := hm.types
  have hle := hm.le_length
  refine { hm with
    le_length := ?_, types := ⟨t, ?_⟩, typed := ?_, built := hm.built.register spec, plain := ?_ }
  · exact hle.trans (Registry.prefix_register m.registry spec).length_le
  · change m'.registry.types ++ [_] = (m.registry.types ++ [_]).insertIdx n t
    rw [ht, insertIdx_concat hle]
  · intro r e he
    obtain ⟨t, ht⟩ := hm.typed r e he
    exact ⟨t, Registry.get?_extend (Registry.prefix_register m.registry spec) ht⟩
  · intro id t ht
    rw [Registry.register, Registry.get?_insert] at ht
    split_ifs at ht
    · cases ht
      exact hplain
    · exact hm.plain id t ht

end Machine.Inserted

namespace Likeness

section

variable {S : Machine υ → Machine υ → Prop}

end

end Likeness

end ItemAccess
