import ItemAccess.Proofs.Machine.Lists
import ItemAccess.Proofs.SuccessfulRead

/-!
# Items by key and by position

A sequence of the machine has two families of slots. By key it takes any integer and looks itself
whether the integer stands for a position. By position it takes only what counts from the front, so a
negative index is raised by the length before, and what is still negative means nothing. Both ways lead
to the same item. The position slots of lists, tuples and byte strings are never asked by the dispatch,
which finds their slots by key first, so nothing else would tell if the two came apart.
-/

namespace ItemAccess

open Attempt

/-- Raising a negative index by the length finds the position that the index means. The length has to
be one that indices can count, since an index is raised to the largest one at most. -/
theorem Position.absolute_wrap {len : Nat} (hlen : (len : Int) ≤ Int64.maxValue.toInt) (i : Int64) :
    absolute (wrap i len) len = checked i len := by
  have hneg (j : Int64) : j < 0 ↔ j.toInt < 0 := by simp [Int64.lt_iff_toInt_lt]
  by_cases hi : i < 0
  · have hwrap : (wrap i len).toInt = i.toInt + len := by
      rw [toInt_wrap hi]
      have hlt := (hneg i).1 hi
      omega
    have hlt := (hneg i).1 hi
    rw [checked, if_pos hi]
    by_cases hle : i.toInt.natAbs ≤ len
    · have hposition : (wrap i len).toInt.toNat = len - i.toInt.natAbs := by omega
      have hfront : ¬ wrap i len < 0 := by
        rw [hneg]
        omega
      rw [if_pos hle, absolute, if_neg hfront, hposition, if_pos (by omega)]
    · have hback : wrap i len < 0 := by
        rw [hneg]
        omega
      rw [if_neg hle, absolute, if_pos hback]
  · rw [wrap, if_neg hi, checked, if_neg hi, absolute, if_neg hi]

theorem Position.exists_item {α : Type} {xs : List α} {n : Int} (hn : InRange n xs.length) :
    ∃ x, xs[ofInteger n xs.length]? = some x :=
  ⟨_, List.getElem?_eq_getElem (ofInteger_lt hn)⟩

/-- The sequences of the machine, with what they complain of and the number of their items. -/
inductive Body.Counts : Body → IndexUse → Nat → Prop
  | list (items : List Value) : Counts (.list items) .list items.length
  | tuple (items : List Value) : Counts (.tuple items) .tuple items.length
  | bytes (data : List UInt8) : Counts (.bytes data) .bytes data.length

variable {υ : SlotKind → Type} {ε : Type} {H : Host υ} {m : Machine υ} {r : Handle} {b : Body}
  {items : List Value} {data : List UInt8} {v old : Value} {u : IndexUse} {len p : Nat} {n : Int}
  {owned : Multiset Handle}

namespace TypeObject

structure Reads (t : TypeObject υ) (s : Slot υ .get) (table : SequenceTable υ) (s' : Slot υ .getAt) :
    Prop where
  byKey : t.capabilities.get? = some s
  sequence : t.capabilities.sequence? = some table
  byPosition : table.get = some s'

structure Stores (t : TypeObject υ) (s : Slot υ .set) (table : SequenceTable υ) (s' : Slot υ .setAt) :
    Prop where
  byKey : t.capabilities.set? = some s
  sequence : t.capabilities.sequence? = some table
  byPosition : table.set = some s'

end TypeObject

namespace Machine

def getWrapped (H : Host υ) (table : SequenceTable υ) (s : Slot υ .getAt) (obj : Value) (i : Int64) :
    SlotAction υ Value := do
  callGetAt H s obj (← wrapIndex H table obj i)

def setWrapped (H : Host υ) (table : SequenceTable υ) (s : Slot υ .setAt) (obj : Value) (i : Int64)
    (v : Value) : SlotAction υ Unit := do
  callSetAt H s obj (← wrapIndex H table obj i) v

/-- How a slot ends that is asked for the item of a sequence that an integer stands for. -/
inductive ItemRead (m : Machine υ) : Body → Int → Outcome (Machine υ) Raised Value → Prop
  | item {b : Body} {items : List Value} {n : Int} {v : Value} {h' : Heap}
    (hb : b = .list items ∨ b = .tuple items) (hn : Position.InRange n items.length)
    (hv : items[Position.ofInteger n items.length]? = some v) (hh : m.heap.OneMore v h') :
    ItemRead m b n (.done v { m with heap := h' })
  | knownByte {data : List UInt8} {n : Int} {c : UInt8} {s : Handle} {h' : Heap}
    (hn : Position.InRange n data.length)
    (hc : data[Position.ofInteger n data.length]? = some c)
    (hs : m.heap.byteStrings.lookup c = some s) (hh : m.heap.OneMore (.ref s) h') :
    ItemRead m (.bytes data) n (.done (.ref s) { m with heap := h' })
  /-- The string of a byte that was never read is made with two references, one of them the store's. -/
  | firstByte {data : List UInt8} {n : Int} {c : UInt8} {s : Handle} {h' : Heap}
    (hn : Position.InRange n data.length)
    (hc : data[Position.ofInteger n data.length]? = some c) (hh : m.heap.WithByte c s 2 h') :
    ItemRead m (.bytes data) n (.done (.ref s) { m with heap := h' })
  | refusedByte {data : List UInt8} {n : Int} {c : UInt8} {e : LimitError}
    (hn : Position.InRange n data.length)
    (hc : data[Position.ofInteger n data.length]? = some c)
    (hs : m.heap.byteStrings.lookup c = none)
    (he : m.heap.meter.allocate (Body.bytes [c]).size = .error e) :
    ItemRead m (.bytes data) n
      (.failed {} { m with pending := ⟨some (.withMessage .memoryError e.message)⟩ })
  | outside {b : Body} {u : IndexUse} {len : Nat} {n : Int} (hb : b.Counts u len)
    (hn : ¬ Position.InRange n len) :
    ItemRead m b n (.failed {} { m with pending := ⟨some (.withMessage .indexError u.message)⟩ })

inductive ItemStored (m : Machine υ) (r : Handle) (items : List Value) (n : Int) (v : Value) :
    Outcome (Machine υ) Raised Unit → Prop
  | stored {old : Value} {h₁ h₂ h' : Heap} (hn : Position.InRange n items.length)
    (hold : items[Position.ofInteger n items.length]? = some old) (hv : m.heap.OneMore v h₁)
    (hset : h₁.setBody r (.list (items.set (Position.ofInteger n items.length) v)) = .ok h₂)
    (hrelease : h₂.release old = .ok h') : ItemStored m r items n v (.done () { m with heap := h' })
  | outside (hn : ¬ Position.InRange n items.length) :
    ItemStored m r items n v (.failed {}
      { m with pending := ⟨some (.withMessage .indexError "list assignment index out of range")⟩ })

theorem run_wrapIndex_of_length {table : SequenceTable υ} {s : Slot υ .length}
    (hs : table.length = some s) (hlen : (callLength H s v : Action υ ε Nat).run m = .done len m)
    (i : Int64) : (wrapIndex H table v i : Action υ ε Int64).run m = .done (Position.wrap i len) m := by
  by_cases hi : i < 0
  · simp [wrapIndex, hs, hi, hlen]
  · simp [wrapIndex, hs, hi, Position.wrap]

theorem run_getWrapped {table : SequenceTable υ} {s : Slot υ .length} {s' : Slot υ .getAt}
    (hs : table.length = some s) (hlen : (callLength H s v : SlotAction υ Nat).run m = .done len m)
    (i : Int64) :
    (getWrapped H table s' v i).run m = (callGetAt H s' v (Position.wrap i len)).run m := by
  rw [getWrapped, run_bind, run_wrapIndex_of_length hs hlen]

theorem run_setWrapped {table : SequenceTable υ} {s : Slot υ .length} {s' : Slot υ .setAt} {obj : Value}
    (hs : table.length = some s) (hlen : (callLength H s obj : SlotAction υ Nat).run m = .done len m)
    (i : Int64) (v : Value) :
    (setWrapped H table s' obj i v).run m = (callSetAt H s' obj (Position.wrap i len) v).run m := by
  rw [setWrapped, run_bind, run_wrapIndex_of_length hs hlen]

theorem itemAt_reads (hs : m.heap.Sound m.registry owned) (hb : m.heap.body r = .ok b)
    (hitems : b = .list items ∨ b = .tuple items) (hu : b.Counts u items.length) (i : Int64) :
    m.ItemRead b i.toInt ((itemAt u items (Position.checked i items.length)).run m) := by
  by_cases hi : Position.InRange i.toInt items.length
  · obtain ⟨v, hv⟩ := Position.exists_item hi
    have hchild : v ∈ b.children := by
      obtain rfl | rfl := hitems <;> exact List.mem_of_getElem? hv
    obtain ⟨h', hretain⟩ := (hs.child hb hchild).retain
    have hrun : (itemAt u items (Position.checked i items.length)).run m =
        .done v { m with heap := h' } := by
      simp [Position.checked_of_inRange hi, itemAt, atPosition_eq_ok.2 hv, run_retain hretain]
    rw [hrun]
    exact .item hitems hi hv (.of_retain hretain)
  · rw [Position.checked_of_not_inRange hi]
    exact .outside hu hi

/-- The string of a byte that cannot be had is not there, and there is no room for it. -/
theorem refused_of_byteString {h : Heap} {c : UInt8} {e : LimitError}
    (hb : h.byteString c = .ok (.error e)) :
    h.byteStrings.lookup c = none ∧ h.meter.allocate (Body.bytes [c]).size = .error e := by
  unfold Heap.byteString at hb
  split at hb
  case h_1 r hr =>
    obtain ⟨_, -, hnot⟩ := except_bind_eq_ok.1 hb
    cases hnot
  case h_2 hnone =>
    obtain ⟨x, hallocate, hx⟩ := except_bind_eq_ok.1 hb
    cases x with
    | ok q =>
      obtain ⟨_, -, hnot⟩ := except_bind_eq_ok.1 hx
      cases hnot
    | error e' =>
      cases hx
      unfold Heap.allocate at hallocate
      split at hallocate
      case h_1 he =>
        cases hallocate
        exact ⟨hnone, he⟩
      case h_2 =>
        split at hallocate
        · split at hallocate <;> cases hallocate
        · cases hallocate

theorem byteAt_reads (hs : m.heap.Sound m.registry owned) (i : Int64) :
    m.ItemRead (.bytes data) i.toInt ((byteAt data (Position.checked i data.length)).run m) := by
  by_cases hi : Position.InRange i.toInt data.length
  · obtain ⟨c, hc⟩ := Position.exists_item hi
    obtain ⟨x, hx⟩ := hs.byteString c
    cases x with
    | error e =>
      have hrun : (byteAt data (Position.checked i data.length)).run m =
          .failed {} { m with pending := ⟨some (.withMessage .memoryError e.message)⟩ } := by
        simp only [Position.checked_of_inRange hi, byteAt, byteString, run_bind, run_handle, run_liftM,
          run_get, atPosition_eq_ok.2 hc, hx]
        rfl
      obtain ⟨hlookup, hallocate⟩ := refused_of_byteString hx
      rw [hrun]
      exact .refusedByte hi hc hlookup hallocate
    | ok q =>
      obtain ⟨s, h'⟩ := q
      have hrun : (byteAt data (Position.checked i data.length)).run m =
          .done (.ref s) { m with heap := h' } := by
        simp [Position.checked_of_inRange hi, byteAt, atPosition_eq_ok.2 hc, byteString, hx]
      rw [hrun]
      rcases Heap.withByte_of_byteString hs.free hx with ⟨hlookup, hretain⟩ | hw
      · exact .knownByte hi hc hlookup (.of_retain hretain)
      · exact .firstByte hi hc hw
  · rw [Position.checked_of_not_inRange hi]
    exact .outside (.bytes data) hi

/-- The contents of an object are replaced, whoever holds it, and what is left over is released. -/
theorem exists_replace {h : Heap} {g : Registry υ} {taken : Multiset Handle} {b' : Body}
    {vs : List Value} (hs : h.Sound g (owned + taken)) (hb : h.body r = .ok b) (hbb : b.Becomes h b')
    (hc : handles b'.children + handles vs = handles b.children + taken) :
    ∃ h₁ h₂, h.setBody r b' = .ok h₁ ∧ h₁.releaseAll vs = .ok h₂ := by
  obtain ⟨e, he, -⟩ := Heap.body_eq_ok.1 hb
  have hset : h.setBody r b' = .ok (h.put r { e with body := b' }) :=
    except_bind_eq_ok.2 ⟨e, Heap.entry_eq_ok.2 he, rfl⟩
  have hwrite : Heap.Moves g (fun _ => True) (h, taken) (h.put r { e with body := b' }, handles vs) :=
    Heap.setBody_moves g hb trivial hbb hc hset
  obtain ⟨h₂, hrelease⟩ := (hs.moves hwrite).releaseAll
  exact ⟨_, h₂, hset, hrelease⟩

/-- Storing at a position of any list, whoever holds it. -/
theorem exists_run_storeItem (hs : m.heap.Sound m.registry owned) (hv : m.heap.Present v)
    (hb : m.heap.body r = .ok (.list items)) (hold : items[p]? = some old) :
    ∃ h₁ h₂ h', m.heap.retain v = .ok h₁ ∧ h₁.setBody r (.list (items.set p v)) = .ok h₂ ∧
      h₂.release old = .ok h' ∧
      (storeItem (.ref r) p v : SlotAction υ Unit).run m = .done () { m with heap := h' } := by
  obtain ⟨h₁, hretain⟩ := hv.retain
  rw [← add_zero owned] at hs
  have hmoves : Heap.Moves m.registry (fun _ => False) (m.heap, 0) (h₁, v.handles) :=
    Heap.retain_moves _ hretain
  have hs₁ := hs.moves hmoves
  have hb₁ : h₁.body r = .ok (.list items) := by rw [Heap.body_retain hretain, hb]
  have hledger : handles (Body.list (items.set p v)).children + handles [old] =
      handles (Body.list items).children + v.handles := by
    rw [handles_cons, handles_nil, add_zero]
    exact handles_set hold v
  obtain ⟨h₂, h', hset, hrelease⟩ := exists_replace hs₁ hb₁ (.list _ _) hledger
  refine ⟨h₁, h₂, h', hretain, hset, hrelease, ?_⟩
  simp [storeItem, run_retain hretain, run_listToChange (m := { m with heap := h₁ }) hb₁,
    atPosition_eq_ok.2 hold, changeHeap, hset, release, Heap.release, hrelease]

def storeAt (obj v : Value) : Option Nat → SlotAction υ Unit
  | some position => storeItem obj position v
  | none => complain (.outOfRange .listAssignment)

theorem run_listSet (hg : m.registry.Built) (hb : m.heap.body r = .ok (.list items)) (i : Int64) :
    (listSet H (.ref r) (.int i) v).run m =
      (storeAt (.ref r) v (Position.checked i items.length)).run m := by
  have hindex : (ownIndex H .list (.int i)).run m = .done i m := run_ownIndex hg rfl .list
  simp only [listSet, run_bind, hindex, run_listItems hb]
  cases Position.checked i items.length <;> rfl

theorem run_listSetAt (hb : m.heap.body r = .ok (.list items)) (i : Int64) :
    (listSetAt (.ref r) i v : SlotAction υ Unit).run m =
      (storeAt (.ref r) v (Position.absolute i items.length)).run m := by
  simp only [listSetAt, run_bind, run_listItems hb]
  cases Position.absolute i items.length <;> rfl

theorem storeAt_stores (hs : m.heap.Sound m.registry owned) (hb : m.heap.body r = .ok (.list items))
    (hv : m.heap.Present v) (i : Int64) :
    m.ItemStored r items i.toInt v
      ((storeAt (.ref r) v (Position.checked i items.length) : SlotAction υ Unit).run m) := by
  by_cases hi : Position.InRange i.toInt items.length
  · obtain ⟨old, hold⟩ := Position.exists_item hi
    obtain ⟨h₁, h₂, h', hretain, hset, hrelease, hrun⟩ := exists_run_storeItem hs hv hb hold
    rw [Position.checked_of_inRange hi, storeAt, hrun]
    exact .stored hi hold (.of_retain hretain) hset hrelease
  · rw [Position.checked_of_not_inRange hi]
    exact .outside hi

section

variable {table : SequenceTable υ} {l : Slot υ .length} {i : Int64}

/-- Slots agree that go on in one way with the position that an index means. -/
theorem reads_of_next {s : Slot υ .get} {s' : Slot υ .getAt} {next : Option Nat → SlotAction υ Value}
    (hlen : (len : Int) ≤ Int64.maxValue.toInt) (hl : table.length = some l)
    (hlength : (callLength H l (.ref r) : SlotAction υ Nat).run m = .done len m)
    (hkey : (callGet H s (.ref r) (.int i)).run m = (next (Position.checked i len)).run m)
    (hat : ∀ j, (callGetAt H s' (.ref r) j).run m = (next (Position.absolute j len)).run m)
    (hread : m.ItemRead b i.toInt ((next (Position.checked i len)).run m)) :
    (callGet H s (.ref r) (.int i)).run m = (getWrapped H table s' (.ref r) i).run m ∧
      m.ItemRead b i.toInt ((callGet H s (.ref r) (.int i)).run m) := by
  rw [run_getWrapped hl hlength, hat, Position.absolute_wrap hlen, hkey]
  exact ⟨rfl, hread⟩

theorem run_listLength (hb : m.heap.body r = .ok (.list items)) :
    (callLength H (.builtin .listLength) (.ref r) : SlotAction υ Nat).run m = .done items.length m := by
  rw [callLength, run_bind, run_listItems hb]
  rfl

theorem list_reads (hs : m.heap.Sound m.registry owned) (hb : m.heap.body r = .ok (.list items))
    (hlen : (items.length : Int) ≤ Int64.maxValue.toInt) (hl : table.length = some (.builtin .listLength))
    (i : Int64) :
    (callGet H (.builtin .listGet) (.ref r) (.int i)).run m =
        (getWrapped H table (.builtin .listGetAt) (.ref r) i).run m ∧
      m.ItemRead (.list items) i.toInt ((callGet H (.builtin .listGet) (.ref r) (.int i)).run m) := by
  have hat (j : Int64) : (callGetAt H (.builtin .listGetAt) (.ref r) j).run m =
      (itemAt .list items (Position.absolute j items.length)).run m := by
    rw [callGetAt, listGetAt, run_bind, run_listItems hb]
  exact reads_of_next hlen hl (run_listLength hb) (run_listGet hs.built rfl hb) hat
    (itemAt_reads hs hb (.inl rfl) (.list items) i)

theorem tuple_reads (hs : m.heap.Sound m.registry owned) (hb : m.heap.body r = .ok (.tuple items))
    (hlen : (items.length : Int) ≤ Int64.maxValue.toInt) (hl : table.length = some (.builtin .tupleLength))
    (i : Int64) :
    (callGet H (.builtin .tupleGet) (.ref r) (.int i)).run m =
        (getWrapped H table (.builtin .tupleGetAt) (.ref r) i).run m ∧
      m.ItemRead (.tuple items) i.toInt ((callGet H (.builtin .tupleGet) (.ref r) (.int i)).run m) := by
  have hitems : (tupleItems (.ref r) : SlotAction υ (List Value)).run m = .done items m :=
    run_part hb rfl
  have hlength : (callLength H (.builtin .tupleLength) (.ref r) : SlotAction υ Nat).run m =
      .done items.length m := by
    rw [callLength, run_bind, hitems]
    rfl
  have hat (j : Int64) : (callGetAt H (.builtin .tupleGetAt) (.ref r) j).run m =
      (itemAt .tuple items (Position.absolute j items.length)).run m := by
    rw [callGetAt, tupleGetAt, run_bind, hitems]
  exact reads_of_next hlen hl hlength (run_tupleGet hs.built rfl hb) hat
    (itemAt_reads hs hb (.inr rfl) (.tuple items) i)

theorem bytes_reads (hs : m.heap.Sound m.registry owned) (hb : m.heap.body r = .ok (.bytes data))
    (hlen : (data.length : Int) ≤ Int64.maxValue.toInt) (hl : table.length = some (.builtin .bytesLength))
    (i : Int64) :
    (callGet H (.builtin .bytesGet) (.ref r) (.int i)).run m =
        (getWrapped H table (.builtin .bytesGetAt) (.ref r) i).run m ∧
      m.ItemRead (.bytes data) i.toInt ((callGet H (.builtin .bytesGet) (.ref r) (.int i)).run m) := by
  have hdata : (bytesData (.ref r) : SlotAction υ (List UInt8)).run m = .done data m := run_part hb rfl
  have hlength : (callLength H (.builtin .bytesLength) (.ref r) : SlotAction υ Nat).run m =
      .done data.length m := by
    rw [callLength, run_bind, hdata]
    rfl
  have hat (j : Int64) : (callGetAt H (.builtin .bytesGetAt) (.ref r) j).run m =
      (byteAt data (Position.absolute j data.length)).run m := by
    rw [callGetAt, bytesGetAt, run_bind, hdata]
  exact reads_of_next hlen hl hlength (run_bytesGet hs.built rfl hb) hat (byteAt_reads hs i)

theorem list_stores (hs : m.heap.Sound m.registry owned) (hb : m.heap.body r = .ok (.list items))
    (hlen : (items.length : Int) ≤ Int64.maxValue.toInt) (hl : table.length = some (.builtin .listLength))
    (i : Int64) (v : Value) :
    (callSet H (.builtin .listSet) (.ref r) (.int i) v).run m =
        (setWrapped H table (.builtin .listSetAt) (.ref r) i v).run m ∧
      (m.heap.Present v → m.ItemStored r items i.toInt v
        ((callSet H (.builtin .listSet) (.ref r) (.int i) v).run m)) := by
  rw [run_setWrapped hl (run_listLength hb), callSet, callSetAt, run_listSet hs.built hb, run_listSetAt hb,
    Position.absolute_wrap hlen]
  exact ⟨rfl, fun hv => storeAt_stores hs hb hv i⟩

end

end Machine

open Machine

/-- On a sequence of the machine, the slot by key and the slot by position end alike for every integer,
in the same item or in the same complaint; and so they do when they store in a list. -/
theorem key_and_position_agree (hm : m.WellFormed) (hb : m.heap.body r = .ok b) (hcounts : b.Counts u len)
    (hlen : (len : Int) ≤ Int64.maxValue.toInt) (n : Int64) :
    ∃ t, m.registry.get? b.typeId = some t ∧
      (∃ s table s', t.Reads s table s' ∧
        (callGet H s (.ref r) (.int n)).run m = (getWrapped H table s' (.ref r) n).run m ∧
        m.ItemRead b n.toInt ((callGet H s (.ref r) (.int n)).run m)) ∧
      ∀ items, b = .list items → ∃ s table s', t.Stores s table s' ∧ ∀ v,
        (callSet H s (.ref r) (.int n) v).run m = (setWrapped H table s' (.ref r) n v).run m ∧
        (m.heap.Present v → m.ItemStored r items n.toInt v ((callSet H s (.ref r) (.int n) v).run m)) := by
  obtain ⟨owned, hs⟩ := hm
  cases hcounts with
  | list items =>
    obtain ⟨model, ht⟩ := hs.built.get? .list
    refine ⟨_, ht, ⟨_, _, _, ⟨rfl, rfl, rfl⟩, list_reads hs hb hlen rfl n⟩, ?_⟩
    rintro _ ⟨⟩
    exact ⟨_, _, _, ⟨rfl, rfl, rfl⟩, list_stores hs hb hlen rfl n⟩
  | tuple items =>
    obtain ⟨model, ht⟩ := hs.built.get? .tuple
    exact ⟨_, ht, ⟨_, _, _, ⟨rfl, rfl, rfl⟩, tuple_reads hs hb hlen rfl n⟩, fun _ hb => by cases hb⟩
  | bytes data =>
    obtain ⟨model, ht⟩ := hs.built.get? .bytes
    exact ⟨_, ht, ⟨_, _, _, ⟨rfl, rfl, rfl⟩, bytes_reads hs hb hlen rfl n⟩, fun _ hb => by cases hb⟩

/-- A list whose first item, a string that it alone holds, is counted from the end. -/
theorem key_and_position_agree_fromEnd :
    ∃ m : Machine DelegateSlot, m.WellFormed ∧
      m.heap.body ⟨1⟩ = .ok (.list [.ref ⟨0⟩, .int 5]) ∧
      (Body.list [.ref ⟨0⟩, .int 5]).Counts .list 2 ∧ ((2 : Nat) : Int) ≤ Int64.maxValue.toInt ∧
      m.heap.count? ⟨0⟩ = some 1 ∧ Position.InRange (-2) 2 ∧
      ∃ t, m.registry.get? BuiltinKind.list.typeId = some t ∧
        (∃ s table s', t.Reads s table s' ∧
          (callGet (DelegateSlot.host 0) s (.ref ⟨1⟩) (.int (-2))).run m =
            (getWrapped (DelegateSlot.host 0) table s' (.ref ⟨1⟩) (-2)).run m ∧
          m.ItemRead (.list [.ref ⟨0⟩, .int 5]) (-2)
            ((callGet (DelegateSlot.host 0) s (.ref ⟨1⟩) (.int (-2))).run m)) ∧
        ∀ items, Body.list [.ref ⟨0⟩, .int 5] = .list items → ∃ s table s', t.Stores s table s' ∧ ∀ v,
          (callSet (DelegateSlot.host 0) s (.ref ⟨1⟩) (.int (-2)) v).run m =
            (setWrapped (DelegateSlot.host 0) table s' (.ref ⟨1⟩) (-2) v).run m ∧
          (m.heap.Present v → m.ItemStored ⟨1⟩ items (-2) v
            ((callSet (DelegateSlot.host 0) s (.ref ⟨1⟩) (.int (-2)) v).run m)) := by
  have hrun : ((Client.follow (DelegateSlot.host 0) Client.Careful
      (.start { limits := { memory := some 1000 } })
      [.newBytes [0x61, 0x62], .newList [.ref ⟨0⟩, .int 5]]).any fun c =>
        c.machine.heap.body ⟨1⟩ = .ok (.list [.ref ⟨0⟩, .int 5]) ∧
        c.machine.heap.count? ⟨0⟩ = some 1) = true := by decide +kernel
  obtain ⟨c, hc, hbody, hcount⟩ := Client.exists_reached hrun
  have hm : c.machine.WellFormed := ⟨c.owned, hc.sound (DelegateSlot.host_careful 0)⟩
  have hcounts : (Body.list [.ref ⟨0⟩, .int 5]).Counts .list 2 := .list [.ref ⟨0⟩, .int 5]
  have hlen : ((2 : Nat) : Int) ≤ Int64.maxValue.toInt := by decide
  exact ⟨c.machine, hm, hbody, hcounts, hlen, hcount, by decide,
    key_and_position_agree hm hbody hcounts hlen (-2)⟩

/-- A string of one byte takes all there is room for. The byte is in range, but there is no string of it,
and none can be made. -/
theorem refused_byte_has_no_item :
    ∃ m m' : Machine DelegateSlot, m.WellFormed ∧ m.heap.body ⟨0⟩ = .ok (.bytes [0x61]) ∧
      Position.InRange 0 [0x61].length ∧
      (callGet (DelegateSlot.host 0) (.builtin .bytesGet) (.ref ⟨0⟩) (.int 0)).run m = .failed {} m' ∧
      m'.pending = ⟨some (.withMessage .memoryError "allocation limit exceeded: 2 > 1")⟩ := by
  have hrun : ((Client.follow (DelegateSlot.host 0) Client.Careful
      (.start { limits := { allocations := some 1 } }) [.newBytes [0x61]]).any fun c =>
        c.machine.heap.body ⟨0⟩ = .ok (.bytes [0x61]) ∧
        (((callGet (DelegateSlot.host 0) (.builtin .bytesGet) (.ref ⟨0⟩) (.int 0)).run
          c.machine).failed?.any fun p =>
            p.2.pending = ⟨some (.withMessage .memoryError "allocation limit exceeded: 2 > 1")⟩)) =
      true := by decide +kernel
  obtain ⟨c, hc, hbody, hfailed⟩ := Client.exists_reached hrun
  obtain ⟨⟨_, m'⟩, hfailed, hpending⟩ := (Option.any_eq_true _ _).1 hfailed
  exact ⟨c.machine, m', ⟨c.owned, hc.sound (DelegateSlot.host_careful 0)⟩, hbody, by decide,
    Outcome.failed?_eq_some.1 hfailed, of_decide_eq_true hpending⟩

end ItemAccess
