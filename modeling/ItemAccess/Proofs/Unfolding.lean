import ItemAccess.Proofs.FaultFreedom
import ItemAccess.Proofs.Machine.Serving
import Mathlib.Data.List.Forall2
import Mathlib.Logic.Relation

/-!
# The text of a value shows its unfolding

Lists, tuples and dicts may hold each other and themselves in any way. Going down from a value, and
stopping at a container that one is in already, one goes through a finite tree, the unfolding of the
value. The text of a value is this tree written out. An object that occurs at several places is written
at each of them; only a container inside itself is left out. So dots stand in a text exactly if the value
leads to a container that leads to itself.
-/

namespace ItemAccess

open Attempt Relation

inductive Enclosure where
  | list
  | tuple
  | dict
deriving DecidableEq

namespace Enclosure

def opening : Enclosure → String
  | list => "["
  | tuple => "("
  | dict => "\x7b"

def closing : Enclosure → String
  | list => "]"
  | tuple => ")"
  | dict => "\x7d"

def enclose (k : Enclosure) (inner : String) : String :=
  k.opening ++ inner ++ k.closing

def pairUp : List String → List String
  | key :: value :: rest => (key ++ ": " ++ value) :: pairUp rest
  | _ => []

def inner : Enclosure → List String → String
  | list, parts => ", ".intercalate parts
  | tuple, parts => ", ".intercalate parts ++ if parts.length = 1 then "," else ""
  | dict, parts => ", ".intercalate (pairUp parts)

end Enclosure

def Body.enclosure? : Body → Option Enclosure
  | list _ => some .list
  | tuple _ => some .tuple
  | dict _ => some .dict
  | _ => none

/-- A value as it is written. A node has what the container holds, a dict its keys and values in turn. -/
inductive Unfolding where
  | leaf (text : String)
  | elided (k : Enclosure)
  | node (k : Enclosure) (held : List Unfolding)

namespace Unfolding

mutual

def text : Unfolding → String
  | leaf s => s
  | elided k => k.enclose "..."
  | node k held => k.enclose (k.inner (texts held))

def texts : List Unfolding → List String
  | [] => []
  | t :: ts => text t :: texts ts

end

theorem texts_eq_map (ts : List Unfolding) : texts ts = ts.map text := by
  induction ts with
  | nil => rfl
  | cons t ts ih => rw [texts, ih, List.map_cons]

inductive Elides : Unfolding → Prop
  | here (k : Enclosure) : Elides (.elided k)
  | within {k : Enclosure} {held : List Unfolding} {t : Unfolding} (ht : t ∈ held) (h : t.Elides) :
    Elides (.node k held)

end Unfolding

variable {υ : SlotKind → Type} {ε α β : Type} {m : Machine υ} {path : List Handle} {v : Value}
  {r : Handle} {b : Body} {s : String} {t t' : Unfolding} {depth : Nat}

namespace Machine

/-- What objects hold is there, and so are the types of instances. -/
structure Complete (m : Machine υ) : Prop where
  closed : m.heap.Closed
  typed : ∀ r type fields, m.heap.body r = .ok (.inst type fields) → ∃ t, m.registry.get? type = some t

theorem Complete.of_sound {owned : Multiset Handle} (hs : m.heap.Sound m.registry owned) : m.Complete where
  closed := hs.closed
  typed r _ _ hb := hs.typeObject (v := .ref r) (Heap.typeOf_ref hb)

/-- The text of a value that is not written with what it holds. -/
inductive Plain (m : Machine υ) : Value → String → Prop
  | none : Plain m .none "None"
  | bool (b : Bool) : Plain m (.bool b) (if b then "True" else "False")
  | int (i : Int64) : Plain m (.int i) (toString i.toInt)
  | float (x : Binary64) : Plain m (.float x) x.text
  | bytes {r : Handle} {data : List UInt8} (hb : m.heap.body r = .ok (.bytes data)) :
    Plain m (.ref r) (bytesMark m.settings.textModel ++ String.ofList (ByteLiteral.write data))
  | bigInt {r : Handle} {n : Int} (hb : m.heap.body r = .ok (.bigInt n)) :
    Plain m (.ref r) (toString n)
  | inst {r : Handle} {type : TypeId} {fields : List Value} {t : TypeObject υ}
    (hb : m.heap.body r = .ok (.inst type fields)) (ht : m.registry.get? type = some t) :
    Plain m (.ref r) ("<" ++ t.name ++ " object>")

/-- The unfolding of a value that stands inside the containers of a path. -/
inductive Unfolds (m : Machine υ) : List Handle → Value → Unfolding → Prop
  | leaf {path : List Handle} {v : Value} {s : String} (hv : m.Plain v s) : Unfolds m path v (.leaf s)
  | elided {path : List Handle} {r : Handle} {b : Body} {k : Enclosure} (hb : m.heap.body r = .ok b)
    (hk : b.enclosure? = some k) (hr : r ∈ path) : Unfolds m path (.ref r) (.elided k)
  | opened {path : List Handle} {r : Handle} {b : Body} {k : Enclosure} {held : List Unfolding}
    (hb : m.heap.body r = .ok b) (hk : b.enclosure? = some k) (hr : r ∉ path)
    (hlength : b.children.length = held.length)
    (hheld : ∀ v t, (v, t) ∈ b.children.zip held → Unfolds m (r :: path) v t) :
    Unfolds m path (.ref r) (.node k held)

structure Path (m : Machine υ) (path : List Handle) : Prop where
  nodup : path.Nodup
  live : ∀ r ∈ path, ∃ e, m.heap.lookup? r = some e

namespace Path

theorem nil : m.Path [] := ⟨List.nodup_nil, by simp⟩

theorem cons (hp : m.Path path) (hb : m.heap.body r = .ok b) (hr : r ∉ path) : m.Path (r :: path) := by
  obtain ⟨e, he, -⟩ := Heap.body_eq_ok.1 hb
  exact ⟨List.nodup_cons.2 ⟨hr, hp.nodup⟩, List.forall_mem_cons.2 ⟨⟨e, he⟩, hp.live⟩⟩

theorem length_le (hp : m.Path path) : path.length ≤ m.heap.slots.size :=
  Heap.length_le_size hp.nodup hp.live

end Path

theorem exists_forall₂ {R : α → β → Prop} {l : List α} (h : ∀ a ∈ l, ∃ b, R a b) :
    ∃ l', List.Forall₂ R l l' := by
  induction l with
  | nil => exact ⟨[], .nil⟩
  | cons a l ih =>
    obtain ⟨b, hb⟩ := h a List.mem_cons_self
    obtain ⟨l', hl'⟩ := ih fun a ha => h a (List.mem_cons_of_mem _ ha)
    exact ⟨b :: l', .cons hb hl'⟩

theorem Unfolds.of_forall₂ {k : Enclosure} {held : List Unfolding} (hb : m.heap.body r = .ok b)
    (hk : b.enclosure? = some k) (hr : r ∉ path)
    (h : List.Forall₂ (m.Unfolds (r :: path)) b.children held) : m.Unfolds path (.ref r) (.node k held) := by
  obtain ⟨hlength, hheld⟩ := List.forall₂_iff_zip.1 h
  exact .opened hb hk hr hlength fun v t hvt => hheld hvt

/-- The containers of a path are different slots, and each container that is gone into makes the path
longer: the induction is on the slots that are left. -/
theorem exists_unfolds (hm : m.Complete) (hp : m.Path path) (hv : m.heap.Present v) :
    ∃ t, m.Unfolds path v t := by
  induction hn : m.heap.slots.size - path.length using Nat.strong_induction_on generalizing path v with
  | _ n ih =>
    subst hn
    cases v with
    | none => exact ⟨_, .leaf .none⟩
    | bool b => exact ⟨_, .leaf (.bool b)⟩
    | int i => exact ⟨_, .leaf (.int i)⟩
    | float x => exact ⟨_, .leaf (.float x)⟩
    | ref r =>
      obtain ⟨b, hb⟩ := hv.body
      cases hk : b.enclosure? with
      | some k =>
        by_cases hr : r ∈ path
        · exact ⟨_, .elided hb hk hr⟩
        · have hinner := hp.cons hb hr
          have hle := hinner.length_le
          rw [List.length_cons] at hle
          have hchildren : ∀ w ∈ b.children, ∃ t, m.Unfolds (r :: path) w t := by
            intro w hw
            obtain ⟨e, he, rfl⟩ := Heap.body_eq_ok.1 hb
            apply ih _ _ hinner (hm.closed r e he w hw) rfl
            rw [List.length_cons]
            omega
          obtain ⟨held, hheld⟩ := exists_forall₂ hchildren
          exact ⟨_, .of_forall₂ hb hk hr hheld⟩
      | none =>
        cases b with
        | bytes data => exact ⟨_, .leaf (.bytes hb)⟩
        | bigInt n => exact ⟨_, .leaf (.bigInt hb)⟩
        | inst type fields =>
          obtain ⟨t, ht⟩ := hm.typed r type fields hb
          exact ⟨_, .leaf (.inst hb ht)⟩
        | _ => cases hk

/-- What is written with what it holds is not plain. -/
theorem Plain.not_enclosure {k : Enclosure} (hv : m.Plain (.ref r) s) (hb : m.heap.body r = .ok b) :
    b.enclosure? ≠ some k := by
  intro hk
  cases hv with
  | bytes h | bigInt h | inst h _ =>
    cases h.symm.trans hb
    cases hk

theorem Plain.unique {s' : String} (hs : m.Plain v s) (hs' : m.Plain v s') : s = s' := by
  cases hs with
  | none | bool | int | float =>
    cases hs'
    rfl
  | bytes hb =>
    cases hs' with
    | bytes hb' =>
      cases hb.symm.trans hb'
      rfl
    | bigInt hb' | inst hb' _ => cases hb.symm.trans hb'
  | bigInt hb =>
    cases hs' with
    | bigInt hb' =>
      cases hb.symm.trans hb'
      rfl
    | bytes hb' | inst hb' _ => cases hb.symm.trans hb'
  | inst hb ht =>
    cases hs' with
    | bytes hb' | bigInt hb' => cases hb.symm.trans hb'
    | inst hb' ht' =>
      cases hb.symm.trans hb'
      rw [Option.some.inj (ht.symm.trans ht')]

theorem mem_zip_getElem {l : List α} {bs : List β} {i : Nat} (hi : i < l.length) (hi' : i < bs.length) :
    (l[i], bs[i]) ∈ l.zip bs :=
  List.mem_iff_getElem.2 ⟨i, by simp [hi, hi'], by simp⟩

theorem eq_of_zip {l : List α} {bs bs' : List β} (hlength : l.length = bs.length)
    (hlength' : l.length = bs'.length)
    (h : ∀ a b b', (a, b) ∈ l.zip bs → (a, b') ∈ l.zip bs' → b = b') : bs = bs' := by
  apply List.ext_getElem (hlength.symm.trans hlength')
  intro i hi hi'
  have hil : i < l.length := by omega
  exact h _ _ _ (mem_zip_getElem hil hi) (mem_zip_getElem hil hi')

theorem Unfolds.unique (h : m.Unfolds path v t) (h' : m.Unfolds path v t') : t = t' := by
  induction h generalizing t' with
  | leaf hv =>
    cases h' with
    | leaf hv' => rw [hv.unique hv']
    | elided hb hk | opened hb hk => exact absurd hk (hv.not_enclosure hb)
  | elided hb hk hr =>
    cases h' with
    | leaf hv' => exact absurd hk (hv'.not_enclosure hb)
    | elided hb' hk' =>
      cases hb.symm.trans hb'
      cases hk.symm.trans hk'
      rfl
    | opened _ _ hr' => exact absurd hr hr'
  | opened hb hk hr hlength hheld ih =>
    cases h' with
    | leaf hv' => exact absurd hk (hv'.not_enclosure hb)
    | elided _ _ hr' => exact absurd hr' hr
    | opened hb' hk' _ hlength' hheld' =>
      cases hb.symm.trans hb'
      cases hk.symm.trans hk'
      rw [eq_of_zip hlength hlength' fun v t t' ht ht' => ih v t ht (hheld' v t' ht')]

theorem run_mapM_of_forall₂ {f : α → Action υ ε β} {l : List α} {bs : List β}
    (h : List.Forall₂ (fun a b => (f a).run m = .done b m) l bs) : (l.mapM f).run m = .done bs m := by
  induction h with
  | nil => rfl
  | cons ha _ ih => simp [List.mapM_cons, ha, ih]

/-- What a dict holds is written as pairs. -/
theorem run_mapM_entries {f : Value → Action υ ε String} {entries : List DictEntry} {ss : List String}
    (h : List.Forall₂ (fun v s => (f v).run m = .done s m) (Dict.children entries) ss) :
    (entries.mapM fun e => do
      let key ← f e.key
      let value ← f e.value
      return key ++ ": " ++ value : Action υ ε (List String)).run m =
      .done (Enclosure.pairUp ss) m := by
  induction entries generalizing ss with
  | nil =>
    cases h
    rfl
  | cons e entries ih =>
    rw [Dict.children_cons] at h
    cases h with
    | cons hkey h =>
      cases h with
      | cons hvalue h => simp only [List.mapM_cons, run_bind, run_pure, hkey, hvalue, ih h, Enclosure.pairUp]

theorem run_textWithin_plain (hv : m.Plain v s) :
    (textWithin (depth + 1) path v : Action υ ε String).run m = .done s m := by
  cases hv with
  | none => rfl
  | bool b => cases b <;> rfl
  | int i => rfl
  | float x => rfl
  | bytes hb => simp [textWithin, run_readHeap (f := (·.body _)) hb]
  | bigInt hb => simp [textWithin, run_readHeap (f := (·.body _)) hb]
  | inst hb ht => simp [textWithin, run_readHeap (f := (·.body _)) hb, run_typeName ht]

theorem run_textWithin_elided {k : Enclosure} (hb : m.heap.body r = .ok b) (hk : b.enclosure? = some k)
    (hr : r ∈ path) : (textWithin (depth + 1) path (.ref r) : Action υ ε String).run m =
      .done (k.enclose "...") m := by
  cases b <;> cases hk <;> simp [textWithin, run_readHeap (f := (·.body _)) hb, hr] <;> rfl

theorem run_textWithin_opened {k : Enclosure} {ss : List String} (hb : m.heap.body r = .ok b)
    (hk : b.enclosure? = some k) (hr : r ∉ path)
    (h : List.Forall₂ (fun v s => (textWithin depth (r :: path) v : Action υ ε String).run m = .done s m)
      b.children ss) :
    (textWithin (depth + 1) path (.ref r) : Action υ ε String).run m =
      .done (k.enclose (k.inner ss)) m := by
  cases b with
  | list items =>
    cases hk
    have hparts : (items.mapM (textWithin depth (r :: path)) : Action υ ε (List String)).run m =
        .done ss m := run_mapM_of_forall₂ h
    simp only [textWithin, run_bind, run_readHeap (f := (·.body r)) hb, if_neg hr, hparts, run_pure]
    rfl
  | tuple items =>
    cases hk
    have hparts : (items.mapM (textWithin depth (r :: path)) : Action υ ε (List String)).run m =
        .done ss m := run_mapM_of_forall₂ h
    have hlength : items.length = ss.length := h.length_eq
    simp only [textWithin, run_bind, run_readHeap (f := (·.body r)) hb, if_neg hr, hparts, run_pure,
      hlength, Enclosure.inner, Enclosure.enclose, Enclosure.opening, Enclosure.closing]
    by_cases hone : ss.length = 1
    · simp [hone, String.append_assoc]
    · simp [hone, String.append_assoc]
  | dict entries =>
    cases hk
    have hparts := run_mapM_entries h
    simp only [textWithin, run_bind, run_readHeap (f := (·.body r)) hb, if_neg hr, hparts, run_pure]
    rfl
  | _ => cases hk

/-- The induction is on the unfolding. Where a path is as long as there are slots, every container that
can come is in it, so the depth never runs out. -/
theorem Unfolds.run_textWithin (hu : m.Unfolds path v t) (hp : m.Path path)
    (hdepth : path.length + depth = m.heap.slots.size) :
    (textWithin (depth + 1) path v : Action υ ε String).run m = .done t.text m := by
  induction hu generalizing depth with
  | leaf hv => exact run_textWithin_plain hv
  | elided hb hk hr => exact run_textWithin_elided hb hk hr
  | @opened path r b k held hb hk hr hlength hheld ih =>
    have hinner := hp.cons hb hr
    have hle := hinner.length_le
    rw [List.length_cons] at hle
    obtain ⟨depth, rfl⟩ : ∃ d, depth = d + 1 := ⟨depth - 1, by omega⟩
    have hparts : List.Forall₂ (fun v s => (Machine.textWithin (depth + 1) (r :: path) v :
        Action υ ε String).run m = .done s m) b.children (held.map Unfolding.text) := by
      rw [List.forall₂_map_right_iff]
      apply List.forall₂_iff_zip.2 ⟨hlength, ?_⟩
      intro v t hvt
      apply ih v t hvt hinner
      rw [List.length_cons]
      omega
    rw [run_textWithin_opened hb hk hr hparts, Unfolding.text, Unfolding.texts_eq_map]

theorem Unfolds.run_textOf (hu : m.Unfolds [] v t) :
    (textOf v : Action υ ε String).run m = .done t.text m := by
  rw [textOf_eq, run_bind, run_get]
  exact hu.run_textWithin .nil (by simp)

theorem Unfolds.run_write (hu : m.Unfolds path v t) (hp : m.Path path)
    (hdepth : path.length + depth = m.heap.slots.size) :
    ((write (depth + 1) v : Writing υ ε String).run path).run m = .done (t.text, path) m := by
  have hwrite : _ = _ := write_restores (υ := υ) (ε := ε) (depth + 1) path v
  rw [hwrite, run_map, hu.run_textWithin hp hdepth]

end Machine

namespace Heap

variable {h : Heap} {x y : Handle}

def Encloses (h : Heap) (x r : Handle) : Prop :=
  ∃ b k, h.body x = .ok b ∧ b.enclosure? = some k ∧ .ref r ∈ b.children

/-- From a value one comes to a container that leads to itself. -/
def ReachesCycle (h : Heap) (v : Value) : Prop :=
  ∃ x y, v = .ref x ∧ ReflTransGen h.Encloses x y ∧ TransGen h.Encloses y y

/-- No way down that ends leads into a cycle. -/
theorem not_reachesCycle_of_acc (hx : Acc (Function.swap h.Encloses) x) : ¬ h.ReachesCycle (.ref x) := by
  rintro ⟨_, y, ⟨⟩, hxy, hcycle⟩
  have hy : Acc (Function.swap h.Encloses) y := by
    clear hcycle
    induction hxy with
    | refl => exact hx
    | tail _ hstep ih => exact ih.inv hstep
  have hloop : TransGen (Function.swap h.Encloses) y y := transGen_swap.2 hcycle
  have hself : ∀ z, Acc (TransGen (Function.swap h.Encloses)) z →
      ¬ TransGen (Function.swap h.Encloses) z z := by
    intro z hz
    induction hz with
    | intro z _ ih => exact fun hzz => ih z hzz hzz
  exact hself y hy.transGen hloop

end Heap

namespace Machine

/-- What is left out on the way down is a container that the way leads through. Every container of the
path leads to the value. -/
theorem Unfolds.reachesCycle (hu : m.Unfolds path v t) (hpath : ∀ x ∈ path, ∀ r, v = .ref r →
    TransGen m.heap.Encloses x r) (he : t.Elides) : m.heap.ReachesCycle v := by
  induction hu with
  | leaf _ => cases he
  | @elided path r b k hb hk hr => exact ⟨r, r, rfl, .refl, hpath r hr r rfl⟩
  | @opened path r b k held hb hk hr hlength hheld ih =>
    cases he with
    | @within k held t ht he =>
      obtain ⟨i, hi, rfl⟩ := List.mem_iff_getElem.1 ht
      have hil : i < b.children.length := by omega
      have hchild (s : Handle) (hs : b.children[i] = .ref s) : m.heap.Encloses r s :=
        ⟨b, k, hb, hk, hs ▸ List.getElem_mem hil⟩
      have hinner : ∀ x ∈ r :: path, ∀ s, b.children[i] = .ref s → TransGen m.heap.Encloses x s := by
        intro x hx s hs
        obtain rfl | hx := List.mem_cons.1 hx
        · exact .single (hchild s hs)
        · exact (hpath x hx r rfl).tail (hchild s hs)
      obtain ⟨x, y, hx, hxy, hcycle⟩ := ih _ _ (mem_zip_getElem hil hi) hinner he
      exact ⟨r, y, rfl, .head (hchild x hx) hxy, hcycle⟩

/-- Where nothing is left out, every way down comes to an end. -/
theorem Unfolds.acc (hu : m.Unfolds path v t) (he : ¬ t.Elides) (hv : v = .ref r) :
    Acc (Function.swap m.heap.Encloses) r := by
  induction hu generalizing r with
  | leaf hplain =>
    subst hv
    constructor
    rintro x ⟨b, k, hb, hk, -⟩
    exact absurd hk (hplain.not_enclosure hb)
  | elided => exact absurd (.here _) he
  | @opened path r' b k held hb hk hr hlength hheld ih =>
    cases hv
    constructor
    rintro x ⟨b', k', hb', -, hx⟩
    cases hb.symm.trans hb'
    obtain ⟨i, hi, hix⟩ := List.mem_iff_getElem.1 hx
    have hil : i < held.length := by omega
    exact ih _ _ (mem_zip_getElem hi hil) (fun hin => he (.within (List.getElem_mem hil) hin)) hix

theorem Unfolds.elides_iff (hu : m.Unfolds [] v t) : t.Elides ↔ m.heap.ReachesCycle v := by
  constructor
  · exact hu.reachesCycle (by simp)
  · intro hcycle
    by_contra he
    obtain ⟨x, y, rfl, hxy, hloop⟩ := hcycle
    exact Heap.not_reachesCycle_of_acc (hu.acc he rfl) ⟨x, y, rfl, hxy, hloop⟩

end Machine

open Machine

/-- Where all that objects refer to is there, every value has one unfolding, and the text of the value is
found and is that of the unfolding. Something is left out of it exactly if the value leads to a cycle.
On the way down, with the containers of a path open, every value that is there is written as its unfolding
inside them, and when that is done the same containers are open. -/
theorem text_shows_unfolding (hm : m.Complete) (hv : m.heap.Present v) :
    (∃ t, m.Unfolds [] v t ∧ (∀ t', m.Unfolds [] v t' → t' = t) ∧
      (textOf v : Action υ ε String).run m = .done t.text m ∧ (t.Elides ↔ m.heap.ReachesCycle v)) ∧
    ∀ path w depth, m.Path path → m.heap.Present w → path.length + depth = m.heap.slots.size →
      ∃ t, m.Unfolds path w t ∧
        ((write (depth + 1) w : Writing υ ε String).run path).run m = .done (t.text, path) m := by
  constructor
  · obtain ⟨t, ht⟩ := exists_unfolds hm .nil hv
    exact ⟨t, ht, fun t' ht' => ht'.unique ht, ht.run_textOf, ht.elides_iff⟩
  · intro path w depth hp hw hdepth
    obtain ⟨t, ht⟩ := exists_unfolds hm hp hw
    exact ⟨t, ht, ht.run_write hp hdepth⟩

/-- A string in a tuple that a list holds twice, and the list inside itself, as the value of a dict. -/
def loopRun : List (Request DelegateSlot) :=
  [.newBytes [0x61, 0x62], .newTuple [.ref ⟨0⟩], .clone (.ref ⟨1⟩), .newList [.ref ⟨1⟩, .ref ⟨1⟩, .none],
    .set (.ref ⟨2⟩) (.ref ⟨2⟩) (.int 2), .newDict [(.int 1, .ref ⟨2⟩)]]

/-- The tuple is written at both places, and only the list inside itself is left out. With the list open
the dict is written as well, and the list stays open. -/
theorem text_shows_unfolding_loopRun :
    ∃ (m : Machine DelegateSlot) (t : Unfolding), m.Complete ∧ m.heap.Present (.ref ⟨3⟩) ∧
      m.Unfolds [] (.ref ⟨3⟩) t ∧
      (textOf (.ref ⟨3⟩) : Action DelegateSlot Failure String).run m = .done t.text m ∧
      t.text = "\x7b1: [(b'ab',), (b'ab',), [...]]\x7d" ∧
      (t.Elides ↔ m.heap.ReachesCycle (.ref ⟨3⟩)) ∧ m.Path [⟨2⟩] ∧
      ∃ t', m.Unfolds [⟨2⟩] (.ref ⟨3⟩) t' ∧
        ((write 4 (.ref ⟨3⟩) : Writing DelegateSlot Failure String).run [⟨2⟩]).run m =
          .done (t'.text, [⟨2⟩]) m := by
  have hrun : ((Client.follow (DelegateSlot.host 0) Client.Careful
      (.start { limits := { memory := some 1000 } }) loopRun).any fun c =>
        c.machine.heap.typeOf (.ref ⟨3⟩) = .ok BuiltinKind.dict.typeId ∧
        c.machine.heap.typeOf (.ref ⟨2⟩) = .ok BuiltinKind.list.typeId ∧
        c.machine.heap.slots.size = 4 ∧
        (((textOf (.ref ⟨3⟩) : Action DelegateSlot Failure String).run c.machine).done?.any fun p =>
          p.1 = "\x7b1: [(b'ab',), (b'ab',), [...]]\x7d")) = true := by decide +kernel
  obtain ⟨c, hc, htype, hlist, hsize, hdone⟩ := Client.exists_reached hrun
  have hs := hc.sound (DelegateSlot.host_careful 0)
  have hm : c.machine.Complete := .of_sound hs
  have hv : c.machine.heap.Present (.ref ⟨3⟩) := Heap.present_of_typeOf htype
  obtain ⟨b, hb⟩ := (Heap.present_of_typeOf hlist).body
  have hp : c.machine.Path [⟨2⟩] := Path.nil.cons hb (by simp)
  obtain ⟨⟨t, ht, -, htext, hcycle⟩, hopen⟩ := text_shows_unfolding hm hv
  rw [htext] at hdone
  exact ⟨c.machine, t, hm, hv, ht, htext, of_decide_eq_true hdone, hcycle, hp,
    hopen [⟨2⟩] (.ref ⟨3⟩) 3 hp hv (by rw [hsize]; rfl)⟩

end ItemAccess
