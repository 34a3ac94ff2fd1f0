import ItemAccess.Store.Heap

/-!
# Giving references back

When the last reference to an object goes, its slot is emptied first and then the values that it
held are released in order, each with everything that hangs on it before the next. The values still
to be released form a stack, so the order is that of a depth-first walk. Every step takes a value off
the stack, and an object that is emptied onto the stack held all that it puts there; hence the walk
ends on every store, also where objects reach themselves.
-/

namespace ItemAccess.Heap

variable {h : Heap} {r : Handle} {e : Entry}

theorem lookup?_eq_some : h.lookup? r = some e ↔ h.slots[r.index]? = some (some e) :=
  Option.join_eq_some_iff

def total (h : Heap) (f : Entry → Nat) : Nat :=
  h.slots.toList.foldr (fun slot n => slot.elim 0 f + n) 0

theorem foldr_add_set {α : Type} {l : List α} {i : Nat} {a : α} (ha : l[i]? = some a) (f : α → Nat)
    (b : α) : (l.set i b).foldr (fun x n => f x + n) 0 + f a = l.foldr (fun x n => f x + n) 0 + f b := by
  induction l generalizing i with
  | nil => simp at ha
  | cons x l ih =>
    cases i with
    | zero =>
      obtain rfl : x = a := by simpa using ha
      simp only [List.set_cons_zero, List.foldr_cons]
      omega
    | succ i =>
      have := ih (i := i) (by simpa using ha)
      simp only [List.set_cons_succ, List.foldr_cons]
      omega

theorem total_put (he : h.lookup? r = some e) (f : Entry → Nat) (e' : Entry) :
    (h.put r e').total f + f e = h.total f + f e' := by
  have hs : h.slots.toList[r.index]? = some (some e) := by
    rw [Array.getElem?_toList]; exact lookup?_eq_some.1 he
  simpa [total, put] using foldr_add_set hs (fun slot => slot.elim 0 f) (some e')

theorem total_vacate (he : h.lookup? r = some e) (f : Entry → Nat) (charge : Nat) :
    (h.vacate r charge).total f + f e = h.total f := by
  have hs : h.slots.toList[r.index]? = some (some e) := by
    rw [Array.getElem?_toList]; exact lookup?_eq_some.1 he
  simpa [total, vacate] using foldr_add_set hs (fun slot => slot.elim 0 f) none

def weight (h : Heap) : Nat :=
  h.total fun e => e.body.children.length + 1

theorem weight_put (he : h.lookup? r = some e) (count : Nat) :
    (h.put r { e with count := count }).weight = h.weight :=
  Nat.add_right_cancel (total_put he (fun e => e.body.children.length + 1) { e with count := count })

theorem weight_vacate (he : h.lookup? r = some e) (charge : Nat) :
    (h.vacate r charge).weight + (e.body.children.length + 1) = h.weight :=
  total_vacate he _ charge

def releaseAll (h : Heap) : List Value → Except Fault Heap
  | [] => .ok h
  | .ref r :: rest =>
    match _hs : h.slots[r.index]? with
    | some (some e) =>
      if 1 < e.count then (h.put r { e with count := e.count - 1 }).releaseAll rest
      else (h.vacate r e.charge).releaseAll (e.body.children ++ rest)
    | some none => .error (.freed .release)
    | none => .error (.missing .release)
  | .none :: rest => h.releaseAll rest
  | .bool _ :: rest => h.releaseAll rest
  | .int _ :: rest => h.releaseAll rest
  | .float _ :: rest => h.releaseAll rest
termination_by work => h.weight + work.length
decreasing_by
  · rw [weight_put (lookup?_eq_some.2 _hs)]
    simp
  · have := weight_vacate (lookup?_eq_some.2 _hs) e.charge
    simp only [List.length_append, List.length_cons]
    omega
  all_goals simp

def release (h : Heap) (v : Value) : Except Fault Heap :=
  h.releaseAll [v]

end ItemAccess.Heap
