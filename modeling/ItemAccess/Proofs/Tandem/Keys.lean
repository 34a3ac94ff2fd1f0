import ItemAccess.Proofs.Tandem.Store
import Mathlib.Data.List.Forall2

/-!
# Keys in two stores

The walk that gives a value its key goes through both stores step by step. How far it may go depends on
the number of slots, which can differ; but where tuples are grounded it never gets that far.
-/

namespace ItemAccess

variable {T : Terms}

structure Key.Renamed (f : Handle → Handle) (known : Handle → Prop) (k k' : Key) : Prop where
  eq : k' = k.rename f
  known : ∀ r, k.Names r → known r

namespace Heap

variable {f : Equiv.Perm Handle} {known : Handle → Prop} {h₁ h₂ : Heap} {r : Handle} {v : Value}
  {n₁ n₂ : Nat}

inductive Hashed {α β : Type} (R : α → β → Prop) : Except TypeId α → Except TypeId β → Prop
  | ok {a : α} {b : β} (h : R a b) : Hashed R (.ok a) (.ok b)
  | error (id : TypeId) : Hashed R (.error id) (.error id)

theorem Hashed.mapM {F G : Value → ExceptT TypeId (Except Fault) Key} {R : Key → Key → Prop}
    {g : Value → Value} {l : List Value} (hl : ∀ v ∈ l, Both (Hashed R) (F v).run (G (g v)).run) :
    Both (Hashed (List.Forall₂ R)) (l.mapM F).run ((l.map g).mapM G).run := by
  induction l with
  | nil => exact .ok (.ok .nil)
  | cons v l ih =>
    rw [List.map_cons, List.mapM_cons, List.mapM_cons, ExceptT.run_bind, ExceptT.run_bind]
    apply (hl v (by simp)).bind
    rintro _ _ (⟨hk⟩ | id)
    · change Both _ (l.mapM F >>= fun ks => pure (_ :: ks)).run
        ((l.map g).mapM G >>= fun ks => pure (_ :: ks)).run
      rw [ExceptT.run_bind, ExceptT.run_bind]
      apply (ih fun w hw => hl w (by simp [hw])).bind
      rintro _ _ (⟨hks⟩ | id)
      · exact .ok (.ok (.cons hk hks))
      · exact .ok (.error id)
    · exact .ok (.error id)

theorem Hashed.tuple {x y : Except TypeId (List Key)}
    (hxy : Hashed (List.Forall₂ (Key.Renamed f known)) x y) :
    Hashed (Key.Renamed f known) (x.map .tuple) (y.map .tuple) := by
  cases hxy with
  | error id => exact .error id
  | @ok ks ks' h =>
    have hks : ks' = ks.map (Key.rename f) ∧ ∀ k ∈ ks, ∀ r, k.Names r → known r := by
      induction h with
      | nil => exact ⟨rfl, fun k hk => by cases hk⟩
      | cons hk _ ih =>
        exact ⟨by rw [List.map_cons, hk.eq, ih.1], List.forall_mem_cons.2 ⟨hk.known, ih.2⟩⟩
    refine .ok ⟨?_, fun r hr => ?_⟩
    · rw [Key.rename_tuple, hks.1]
    · cases hr with
      | item hmem hk => exact hks.2 _ hmem r hk

/-- Two walks through tuples have as many steps left; or they have come down the same path, on which
the tuples are grounded, and have as many steps left as there are slots beside the path. -/
inductive Descent (h₁ h₂ : Heap) (v : Value) : Nat → Nat → Prop
  | equal (n : Nat) : Descent h₁ h₂ v n n
  | path (hg : h₁.Grounded) {path : List Handle} {n₁ n₂ : Nat} (hnodup : path.Nodup)
    (hlive : ∀ p ∈ path, ∃ e, h₁.lookup? p = some e) (hn₁ : path.length + n₁ = h₁.slots.size + 1)
    (hn₂ : path.length + n₂ = h₂.slots.size + 1)
    (hpath : ∀ r, v = .ref r → ∀ p ∈ path, Relation.TransGen h₁.Nests r p) : Descent h₁ h₂ v n₁ n₂

theorem Descent.item {items : List Value} {w : Value} (hd : Descent h₁ h₂ (.ref r) (n₁ + 1) (n₂ + 1))
    (hb : h₁.body r = .ok (.tuple items)) (hw : w ∈ items) : Descent h₁ h₂ w n₁ n₂ := by
  obtain ⟨e, he, hbody⟩ := body_eq_ok.1 hb
  cases hd with
  | equal => exact .equal n₁
  | @path hg path _ _ hnodup hlive hn₁ hn₂ hpath =>
    have hr : r ∉ path := fun hr => hg.transGen.irrefl.irrefl r (hpath r rfl r hr)
    refine .path hg (List.nodup_cons.2 ⟨hr, hnodup⟩) (List.forall_mem_cons.2 ⟨⟨e, he⟩, hlive⟩) ?_ ?_ ?_
    · simp only [List.length_cons]
      omega
    · simp only [List.length_cons]
      omega
    · rintro s rfl
      have hs : Relation.TransGen h₁.Nests s r := .single ⟨e, items, he, hbody, hw⟩
      exact List.forall_mem_cons.2 ⟨hs, fun p hp => hs.trans (hpath r rfl p hp)⟩

namespace Mirrors

/-- Both walks are at their end, or neither is. -/
theorem descent_cases (hm : h₁.Mirrors T f known h₂) (hd : Descent h₁ h₂ v n₁ n₂) :
    n₁ = 0 ∧ n₂ = 0 ∨ ∃ k₁ k₂, n₁ = k₁ + 1 ∧ n₂ = k₂ + 1 := by
  cases hd with
  | equal =>
    cases n₁ with
    | zero => exact .inl ⟨rfl, rfl⟩
    | succ n => exact .inr ⟨n, n, rfl, rfl⟩
  | @path _ path _ _ hnodup hlive hn₁ hn₂ hpath =>
    have hle₁ := length_le_size hnodup hlive
    have hle₂ : (path.map f).length ≤ h₂.slots.size := by
      refine length_le_size (hnodup.map f.injective) fun p hp => ?_
      obtain ⟨r, hr, rfl⟩ := List.mem_map.1 hp
      obtain ⟨e, he⟩ := hlive r hr
      exact (hm.live he).imp fun _ h => h.1
    rw [List.length_map] at hle₂
    exact .inr ⟨n₁ - 1, n₂ - 1, by omega, by omega⟩

theorem hashWithin (hm : h₁.Mirrors T f known h₂) (hv : v.Among known)
    (hd : Descent h₁ h₂ v n₁ n₂) : Both (Hashed (Key.Renamed f known)) (h₁.hashWithin n₁ v).run
      (h₂.hashWithin n₂ (v.rename f)).run := by
  induction n₁ generalizing n₂ v with
  | zero =>
    obtain ⟨-, rfl⟩ | ⟨k₁, k₂, heq, -⟩ := hm.descent_cases hd
    · exact .error _
    · cases heq
  | succ n₁ ih =>
    obtain ⟨heq, -⟩ | ⟨_, n₂, -, rfl⟩ := hm.descent_cases hd
    · cases heq
    have hplain {k : Key} (hk : ∀ r, ¬ k.Names r) : Key.Renamed f known k k :=
      ⟨((Key.rename_congr fun r hr => absurd hr (hk r)).trans (Key.rename_id k)).symm,
        fun r hr => absurd hr (hk r)⟩
    cases v with
    | none => exact .ok (.ok (hplain fun r hr => by cases hr))
    | bool b => exact .ok (.ok (hplain fun r hr => by cases hr))
    | int i => exact .ok (.ok (hplain fun r hr => by cases hr))
    | float x => exact .ok (.ok (hplain (Key.not_names_ofBinary64 x)))
    | ref r =>
      have hbody := hm.body (hv r rfl)
      rw [Value.rename]
      cases hb₁ : h₁.body r with
      | error k =>
        rw [hb₁] at hbody
        generalize hb₂ : h₂.body (f r) = x at hbody
        cases hbody with
        | error =>
          rw [Heap.hashWithin, Heap.hashWithin, hb₁, hb₂]
          exact .error k
      | ok b =>
        rw [hb₁] at hbody
        generalize hb₂ : h₂.body (f r) = x at hbody
        cases hbody with
        | ok h =>
          obtain ⟨-, rfl⟩ := h
          rw [hashWithin_ref n₁ hb₁, hashWithin_ref n₂ hb₂]
          cases b with
          | bytes data => exact .ok (.ok (hplain fun r hr => by cases hr))
          | bigInt n => exact .ok (.ok (hplain fun r hr => by cases hr))
          | list items => exact .ok (.error _)
          | dict entries => exact .ok (.error _)
          | inst type fields =>
            refine .ok (.ok ⟨rfl, fun s hs => ?_⟩)
            cases hs
            exact hv r rfl
          | tuple items =>
            have hitems (w : Value) (hw : w ∈ items) := ih
              ((hm.among hb₁).children w hw) (hd.item hb₁ hw)
            simp only [Body.rename, ExceptT.run_bind]
            apply (Hashed.mapM hitems).bind
            rintro _ _ (⟨hks⟩ | id)
            · exact .ok (Hashed.tuple (.ok hks))
            · exact .ok (.error id)

/-- The key of a value does not depend on slots, nor on how many there are. -/
theorem hash (hm : h₁.Mirrors T f known h₂) (hg : ¬ T.aligned → h₁.Grounded)
    (hv : v.Among known) : Both (Hashed (Key.Renamed f known)) (h₁.hash v).run
      (h₂.hash (v.rename f)).run := by
  refine hm.hashWithin hv ?_
  by_cases hT : T.aligned
  · obtain ⟨-, hsize, -⟩ := hm.aligned hT
    rw [hsize]
    exact .equal _
  · exact .path (hg hT) List.nodup_nil (by simp) (by simp) (by simp) (by simp)

end Mirrors

end Heap

end ItemAccess
