import ItemAccess.Object.Position
import ItemAccess.Proofs.Store.Nesting
import Mathlib.Tactic.Abel

/-!
# The references in lists and dicts

Storing, removing and replacing items moves references between the container and the one who changes
it; here is what comes in and what goes out.
-/

namespace ItemAccess

theorem Position.checked_lt {i : Int64} {len p : Nat} (h : checked i len = some p) : p < len := by
  unfold checked at h
  split at h
  case isTrue hneg =>
    have hneg : i.toInt < 0 := by simpa [Int64.lt_iff_toInt_lt] using hneg
    split at h
    · cases h
      omega
    · cases h
  case isFalse =>
    split at h
    · cases h
      assumption
    · cases h

theorem Position.absolute_lt {i : Int64} {len p : Nat} (h : absolute i len = some p) : p < len := by
  unfold absolute at h
  split at h
  · cases h
  · split at h
    · cases h
      assumption
    · cases h

theorem handles_eraseIdx {items : List Value} {p : Nat} {v : Value} (hv : items[p]? = some v) :
    handles (items.eraseIdx p) + v.handles = handles items := by
  obtain ⟨hp, rfl⟩ := List.getElem?_eq_some_iff.1 hv
  rw [← handles_perm (List.getElem_cons_eraseIdx_perm hp), handles_cons, add_comm]

theorem handles_set {items : List Value} {p : Nat} {old : Value} (hold : items[p]? = some old)
    (v : Value) : handles (items.set p v) + old.handles = handles items + v.handles := by
  obtain ⟨hp, -⟩ := List.getElem?_eq_some_iff.1 hold
  rw [handles_perm (List.set_perm_cons_eraseIdx hp v), handles_cons, add_assoc,
    handles_eraseIdx hold, add_comm]

namespace Dict

variable {entries rest : List DictEntry} {k : Key} {v : Value} {e : DictEntry}

@[simp] theorem children_nil : children [] = [] := rfl

@[simp] theorem children_cons (e : DictEntry) (entries : List DictEntry) :
    children (e :: entries) = e.key :: e.value :: children entries := rfl

theorem mem_children_of_get? (h : get? entries k = some v) : v ∈ children entries := by
  obtain ⟨e, he, rfl⟩ := Option.map_eq_some_iff.1 h
  exact List.mem_flatMap.2 ⟨e, List.mem_of_find?_eq_some he, by simp⟩

/-- What is put into a dict is there afterwards or left over. -/
theorem handles_insert (entries : List DictEntry) (k : Key) (key value : Value) :
    handles (children (insert entries k key value).1) + handles (insert entries k key value).2 =
      handles (children entries) + (key.handles + value.handles) := by
  induction entries with
  | nil => simp [insert]
  | cons e rest ih =>
    by_cases he : e.hash = k
    · simp only [insert, if_pos he, children_cons, handles_cons, handles_nil]
      abel
    · simp only [insert, if_neg he, children_cons, handles_cons]
      calc
        _ = e.key.handles + e.value.handles + (handles (children (insert rest k key value).1) +
            handles (insert rest k key value).2) := by abel
        _ = _ := by rw [ih]; abel

theorem handles_remove? (h : remove? entries k = some (e, rest)) :
    handles (children rest) + handles [e.key, e.value] = handles (children entries) := by
  obtain ⟨e', he', heq⟩ := Option.map_eq_some_iff.1 h
  obtain ⟨rfl, rfl⟩ := Prod.mk.inj heq
  clear h heq
  induction entries with
  | nil => cases he'
  | cons d rest ih =>
    by_cases hd : d.hash = k
    · obtain rfl : d = e' := by simpa [hd] using he'
      simp only [List.eraseP_cons, hd, decide_true, cond_true, children_cons, handles_cons,
        handles_nil]
      abel
    · have hfind : rest.find? (·.hash = k) = some e' := by simpa [hd] using he'
      simp only [List.eraseP_cons, hd, decide_false, cond_false, children_cons, handles_cons]
      calc
        _ = d.key.handles + d.value.handles + (handles (children (rest.eraseP (·.hash = k))) +
            handles [e'.key, e'.value]) := by simp only [handles_cons, handles_nil]; abel
        _ = _ := by rw [ih hfind]; abel

end Dict

namespace Heap

variable {h h' : Heap} {r s : Handle} {e e' : Entry} {v : Value}

theorem body_retain (hr : h.retain v = .ok h') (s : Handle) : h'.body s = h.body s := by
  cases v with
  | ref r =>
    obtain ⟨e, he, rfl⟩ := retainHandle_cases hr
    exact body_put he _ (by rfl) s
  | _ => cases hr; rfl

theorem body_grow {bytes : Nat} (hg : h.grow r bytes = .ok (.ok h')) (s : Handle) :
    h'.body s = h.body s := by
  obtain ⟨_, meter, _, -, he, rfl⟩ := grow_cases hg
  exact body_put (h := { h with meter := meter }) he _ (by rfl) s

end Heap

end ItemAccess
