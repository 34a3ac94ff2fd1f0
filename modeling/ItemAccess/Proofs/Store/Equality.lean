import ItemAccess.Proofs.Number.Truncation
import ItemAccess.Proofs.Store.Keys

/-!
# Equal values

Numbers are equal if they are the same number, whatever they are held as; byte strings by their bytes,
tuples by their items, instances and NaNs only if they are the same. The keys of two values are equal just
if the values are, provided that the integers among the objects are those that do not fit an index: every
number then has one key.
-/

namespace ItemAccess

namespace Key

variable {k l : Key} {a b : EReal} {x : Binary64}

/-- The number that a key stands for. A key that is made never stands for a number in two ways. -/
inductive Denotes : Key → EReal → Prop
  | integer (i : Int64) : Denotes (integer i) ((i.toInt : ℝ) : EReal)
  | bigInt {n : Int} (hn : Position.ofInt? n = Option.none) : Denotes (bigInt n) ((n : ℝ) : EReal)
  | float {x : Binary64} (hnan : x.isNaN = false) (hx : x.toInt? = Option.none) :
    Denotes (float x) x.toEReal

theorem Denotes.unique (hk : k.Denotes a) (hl : l.Denotes a) : k = l := by
  have hcast (m n : Int) (h : ((m : ℝ) : EReal) = ((n : ℝ) : EReal)) : m = n := by
    exact_mod_cast EReal.coe_injective h
  have hfloat {x : Binary64} {n : Int} (hx : x.toInt? = Option.none)
      (h : x.toEReal = ((n : ℝ) : EReal)) : False := by
    rw [Binary64.toEReal_eq_intCast.1 h] at hx
    cases hx
  generalize hab : a = b at hl
  cases hk with
  | integer i =>
    cases hl with
    | integer j => rw [Int64.toInt_inj.1 (hcast _ _ hab)]
    | bigInt hn =>
      rw [← hcast _ _ hab, Position.ofInt?_toInt] at hn
      cases hn
    | float _ hx => exact (hfloat hx hab.symm).elim
  | bigInt hm =>
    cases hl with
    | integer j =>
      rw [hcast _ _ hab, Position.ofInt?_toInt] at hm
      cases hm
    | bigInt _ => rw [hcast _ _ hab]
    | float _ hx => exact (hfloat hx hab.symm).elim
  | float hnan hx =>
    cases hl with
    | integer j => exact (hfloat hx hab).elim
    | bigInt _ => exact (hfloat hx hab).elim
    | float hnan' _ => rw [Binary64.toEReal_inj hnan hnan' hx hab]

theorem ofInt_denotes (n : Int) : (ofInt n).Denotes ((n : ℝ) : EReal) := by
  unfold ofInt
  cases hn : Position.ofInt? n with
  | none => exact .bigInt hn
  | some i =>
    rw [← Position.toInt_of_ofInt? hn]
    exact .integer i

theorem ofBinary64_denotes (hnan : x.isNaN = false) : (ofBinary64 x).Denotes x.toEReal := by
  rw [ofBinary64_eq]
  cases hx : x.toInt? with
  | none => exact .float hnan hx
  | some n =>
    rw [Binary64.toEReal_eq_intCast.2 hx]
    exact ofInt_denotes n

/-- Only a float that is no integer has a float for its key. -/
theorem eq_of_ofBinary64 {y : Binary64} (h : ofBinary64 x = float y) : x = y := by
  rw [ofBinary64_eq] at h
  cases hx : x.toInt? with
  | none =>
    rw [hx] at h
    exact float.inj h
  | some n =>
    rw [hx, Option.map_some, Option.getD_some, ofInt] at h
    split at h <;> cases h

theorem ofBinary64_of_isNaN (hnan : x.isNaN = true) : ofBinary64 x = float x := by
  have hfinite : x.isFinite = false := by
    simp only [Binary64.isNaN, Bool.and_eq_true, beq_iff_eq] at hnan
    simp [Binary64.isFinite, hnan.1]
  simp [ofBinary64, hfinite]

end Key

namespace Heap

variable {υ : SlotKind → Type} {g : Registry υ} {writes : Handle → Prop} {h h' : Heap}
  {owned taken given : Multiset Handle} {v w : Value} {k l : Key} {a : EReal} {r : Handle}

inductive Denotes (h : Heap) : Value → EReal → Prop
  | bool (b : Bool) : Denotes h (.bool b) (if b then 1 else 0)
  | int (i : Int64) : Denotes h (.int i) ((i.toInt : ℝ) : EReal)
  | bigInt {r : Handle} {n : Int} (hr : h.body r = .ok (.bigInt n)) :
    Denotes h (.ref r) ((n : ℝ) : EReal)
  | float {x : Binary64} (hnan : x.isNaN = false) : Denotes h (.float x) x.toEReal

inductive Equal (h : Heap) : Value → Value → Prop
  | none : Equal h .none .none
  | number {v w : Value} {a : EReal} (hv : h.Denotes v a) (hw : h.Denotes w a) : Equal h v w
  | nan {x : Binary64} (hx : x.isNaN = true) : Equal h (.float x) (.float x)
  | bytes {r s : Handle} {data : List UInt8} (hr : h.body r = .ok (.bytes data))
    (hs : h.body s = .ok (.bytes data)) : Equal h (.ref r) (.ref s)
  | tuple {r s : Handle} {vs ws : List Value} (hr : h.body r = .ok (.tuple vs))
    (hs : h.body s = .ok (.tuple ws)) (hitems : List.Forall₂ (Equal h) vs ws) :
    Equal h (.ref r) (.ref s)
  | inst {r : Handle} {type : TypeId} {fields : List Value}
    (hr : h.body r = .ok (.inst type fields)) : Equal h (.ref r) (.ref r)

/-- The integers among the objects do not fit an index. -/
def Large (h : Heap) : Prop :=
  ∀ r n, h.body r = .ok (.bigInt n) → Position.ofInt? n = Option.none

theorem empty_large (limits : Limits) : (empty limits).Large := by
  intro r n hr
  obtain ⟨e, he, -⟩ := body_eq_ok.1 hr
  simp [lookup?, empty] at he

theorem Move.large (hm : Move g writes h taken given h') (ha : h.Accounted (owned + taken))
    (hl : h.Large) : h'.Large := by
  intro r n hr
  obtain ⟨e', he', hbody⟩ := body_eq_ok.1 hr
  have hchange := hm.slotChange ha.free r
  rw [he'] at hchange
  generalize hold : h.lookup? r = slot at hchange
  cases hchange with
  | kept hb _ =>
    rw [hbody] at hb
    generalize hbefore : Entry.body _ = b at hb
    cases hb
    exact hl r n (body_eq_ok.2 ⟨_, hold, hbefore⟩)
  | made hb _ _ =>
    rw [hbody] at hb
    exact hb

theorem hashWithin_tuple {depth : Nat} {items : List Value} (hr : h.body r = .ok (.tuple items)) :
    (h.hashWithin (depth + 1) (.ref r)).run = .ok (.ok k) ↔
      ∃ ks, (items.mapM (h.hashWithin depth)).run = .ok (.ok ks) ∧ k = .tuple ks := by
  rw [hashWithin_ref depth hr]
  simp only [ExceptT.run_bind]
  constructor
  · intro hk
    obtain ⟨y, hy, hnext⟩ := except_bind_eq_ok.1 hk
    cases y with
    | error id => cases hnext
    | ok ks =>
      cases hnext
      exact ⟨ks, hy, rfl⟩
  · rintro ⟨ks, hks, rfl⟩
    rw [hks]
    rfl

def Stands (h : Heap) (depth : Nat) (v : Value) : Key → Prop
  | .none => v = .none
  | .integer i => h.Denotes v ((i.toInt : ℝ) : EReal)
  | .bigInt n => h.Denotes v ((n : ℝ) : EReal)
  | .float x => v = .float x
  | .bytes data => ∃ r, v = .ref r ∧ h.body r = .ok (.bytes data)
  | .tuple ks => ∃ r items, v = .ref r ∧ h.body r = .ok (.tuple items) ∧
    (items.mapM (h.hashWithin depth)).run = .ok (.ok ks)
  | .identity r => v = .ref r ∧ ∃ type fields, h.body r = .ok (.inst type fields)

theorem Denotes.stands {depth : Nat} (hv : h.Denotes v a) (hk : k.Denotes a)
    (hfloat : ∀ x, k = .float x → v = .float x) : h.Stands depth v k := by
  cases hk with
  | integer i => exact hv
  | bigInt _ => exact hv
  | float _ _ => exact hfloat _ rfl

theorem stands_of_hashWithin {depth : Nat} (hk : (h.hashWithin (depth + 1) v).run = .ok (.ok k)) :
    h.Stands depth v k := by
  cases v with
  | none =>
    cases hk
    rfl
  | bool b =>
    cases hk
    have hb := Denotes.bool (h := h) b
    cases b <;> simpa [Stands] using hb
  | int i =>
    cases hk
    exact .int i
  | float x =>
    cases hk
    cases hnan : x.isNaN with
    | false =>
      have hkey := Key.ofBinary64_denotes hnan
      exact (Denotes.float hnan).stands hkey fun y hy => congrArg Value.float (Key.eq_of_ofBinary64 hy)
    | true =>
      rw [Key.ofBinary64_of_isNaN hnan]
      rfl
  | ref r =>
    cases hb : h.body r with
    | error f =>
      rw [hashWithin, hb] at hk
      cases hk
    | ok b =>
      cases b with
      | tuple items =>
        obtain ⟨ks, hks, rfl⟩ := (hashWithin_tuple hb).1 hk
        exact ⟨r, items, rfl, hb, hks⟩
      | bytes data =>
        rw [hashWithin_ref depth hb] at hk
        cases hk
        exact ⟨r, rfl, hb⟩
      | bigInt n =>
        rw [hashWithin_ref depth hb] at hk
        cases hk
        exact .bigInt hb
      | inst type fields =>
        rw [hashWithin_ref depth hb] at hk
        cases hk
        exact ⟨rfl, type, fields, hb⟩
      | list items =>
        rw [hashWithin_ref depth hb] at hk
        cases hk
      | dict entries =>
        rw [hashWithin_ref depth hb] at hk
        cases hk

/-- The key of a number stands for the number. -/
theorem Denotes.key (hl : h.Large) {depth : Nat} (hv : h.Denotes v a)
    (hk : (h.hashWithin depth v).run = .ok (.ok k)) : k.Denotes a := by
  cases depth with
  | zero => cases hk
  | succ depth =>
    cases hv with
    | bool b =>
      cases hk
      have hkey := Key.Denotes.integer (if b then 1 else 0)
      cases b <;> simpa using hkey
    | int i =>
      cases hk
      exact .integer i
    | bigInt hr =>
      rw [hashWithin_ref depth hr] at hk
      cases hk
      exact .bigInt (hl _ _ hr)
    | float hnan =>
      cases hk
      exact Key.ofBinary64_denotes hnan

theorem mapM_eq_iff_forall₂ {f f' : Value → ExceptT TypeId (Except Fault) Key} {R : Value → Value → Prop}
    (hR : ∀ v w k l, (f v).run = .ok (.ok k) → (f' w).run = .ok (.ok l) → (k = l ↔ R v w))
    {vs ws : List Value} {ks ls : List Key} (hks : (vs.mapM f).run = .ok (.ok ks))
    (hls : (ws.mapM f').run = .ok (.ok ls)) : ks = ls ↔ List.Forall₂ R vs ws := by
  induction vs generalizing ws ks ls with
  | nil =>
    cases hks
    cases ws with
    | nil =>
      cases hls
      simp
    | cons w ws =>
      obtain ⟨l, ls, -, -, rfl⟩ := mapM_cons_eq_ok.1 hls
      simp
  | cons v vs ih =>
    obtain ⟨k, ks', hk, hrest, rfl⟩ := mapM_cons_eq_ok.1 hks
    cases ws with
    | nil =>
      cases hls
      simp
    | cons w ws =>
      obtain ⟨l, ls', hl, hrest', rfl⟩ := mapM_cons_eq_ok.1 hls
      rw [List.cons.injEq, List.forall₂_cons, hR v w k l hk hl, ih hrest hrest']

/-- Values have equal keys just if they are equal. -/
theorem hashWithin_eq_iff (hlarge : h.Large) {depth depth' : Nat}
    (hk : (h.hashWithin depth v).run = .ok (.ok k)) (hl : (h.hashWithin depth' w).run = .ok (.ok l)) :
    k = l ↔ h.Equal v w := by
  induction depth generalizing depth' v w k l with
  | zero => cases hk
  | succ depth ih =>
    cases depth' with
    | zero => cases hl
    | succ depth' =>
      constructor
      · rintro rfl
        have hv := stands_of_hashWithin hk
        have hw := stands_of_hashWithin hl
        cases k with
        | none =>
          obtain rfl := hv
          obtain rfl := hw
          exact .none
        | integer i => exact .number hv hw
        | bigInt n => exact .number hv hw
        | float x =>
          obtain rfl := hv
          obtain rfl := hw
          cases hnan : x.isNaN with
          | false => exact .number (.float hnan) (.float hnan)
          | true => exact .nan hnan
        | bytes data =>
          obtain ⟨r, rfl, hr⟩ := hv
          obtain ⟨s, rfl, hs⟩ := hw
          exact .bytes hr hs
        | tuple ks =>
          obtain ⟨r, vs, rfl, hr, hks⟩ := hv
          obtain ⟨s, ws, rfl, hs, hls⟩ := hw
          exact .tuple hr hs ((mapM_eq_iff_forall₂ (fun _ _ _ _ => ih) hks hls).1 rfl)
        | identity r =>
          obtain ⟨rfl, type, fields, hr⟩ := hv
          obtain ⟨rfl, -⟩ := hw
          exact .inst hr
      · intro heq
        cases heq with
        | none =>
          cases hk
          cases hl
          rfl
        | number hv hw => exact (hv.key hlarge hk).unique (hw.key hlarge hl)
        | nan hx =>
          cases hk
          cases hl
          rfl
        | bytes hr hs =>
          rw [hashWithin_ref depth hr] at hk
          rw [hashWithin_ref depth' hs] at hl
          cases hk
          cases hl
          rfl
        | tuple hr hs hitems =>
          obtain ⟨ks, hks, rfl⟩ := (hashWithin_tuple hr).1 hk
          obtain ⟨ls, hls, rfl⟩ := (hashWithin_tuple hs).1 hl
          rw [(mapM_eq_iff_forall₂ (fun _ _ _ _ => ih) hks hls).2 hitems]
        | inst hr =>
          rw [hashWithin_ref depth hr] at hk
          rw [hashWithin_ref depth' hr] at hl
          cases hk
          cases hl
          rfl

end Heap

end ItemAccess
