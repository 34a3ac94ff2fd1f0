import ItemAccess.Machine.Text
import ItemAccess.Proofs.Machine.State

/-!
# The text of a value always comes to an end

While a text is written containers are opened and closed. Whatever is written, the containers that are open
at its end are those that were open at its start; so the open containers are at every point those on the
path to the place to write at. These are different slots in use, and there are no more of them than slots.
-/

namespace ItemAccess.Machine

open Attempt

variable {υ : SlotKind → Type} {ε : Type} {safe : Prop} {m : Machine υ} {v : Value}
  {owned : Multiset Handle}

/-- The text of a value at the end of the path `enclosing`. -/
def textWithin : Nat → List Handle → Value → Action υ ε String
  | 0, _, _ => Attempt.fault .endless
  | depth + 1, enclosing, v =>
    match v with
    | .none => return "None"
    | .bool true => return "True"
    | .bool false => return "False"
    | .int i => return toString i.toInt
    | .float x => return x.text
    | .ref r => do
      match ← readHeap (·.body r) with
      | .bytes data =>
        return bytesMark (← get).settings.textModel ++ String.ofList (ByteLiteral.write data)
      | .bigInt n => return toString n
      | .inst type _ => return "<" ++ (← typeName type) ++ " object>"
      | .list items =>
        if r ∈ enclosing then return "[...]"
        let parts ← items.mapM (textWithin depth (r :: enclosing))
        return "[" ++ ", ".intercalate parts ++ "]"
      | .tuple items =>
        if r ∈ enclosing then return "(...)"
        let parts ← items.mapM (textWithin depth (r :: enclosing))
        return "(" ++ ", ".intercalate parts ++ (if items.length = 1 then ",)" else ")")
      | .dict entries =>
        if r ∈ enclosing then return "\x7b...\x7d"
        let parts ← entries.mapM fun e => do
          let key ← textWithin depth (r :: enclosing) e.key
          let value ← textWithin depth (r :: enclosing) e.value
          return key ++ ": " ++ value
        return "\x7b" ++ ", ".intercalate parts ++ "\x7d"

section

variable {α β : Type} {opened : List Handle}

/-- With `opened` open, the writing computes what the action does and leaves the same containers open. -/
def Writing.Restores (opened : List Handle) (w : Writing υ ε α) (a : Action υ ε α) : Prop :=
  w.run opened = (·, opened) <$> a

namespace Writing.Restores

theorem pure (x : α) : Restores opened (pure x : Writing υ ε α) (pure x) := rfl

theorem lift (a : Action υ ε α) : Restores opened (StateT.lift a) a :=
  bind_pure_comp _ a

theorem bind {w : Writing υ ε α} {a : Action υ ε α} {f : α → Writing υ ε β} {g : α → Action υ ε β}
    (hw : Restores opened w a) (hf : ∀ x, Restores opened (f x) (g x)) :
    Restores opened (w >>= f) (a >>= g) := by
  unfold Restores at *
  rw [StateT.run_bind, hw, bind_map_left, map_bind]
  exact bind_congr hf

theorem mapM {f : α → Writing υ ε β} {g : α → Action υ ε β} (hf : ∀ x, Restores opened (f x) (g x))
    (l : List α) : Restores opened (l.mapM f) (l.mapM g) := by
  induction l with
  | nil => exact .pure []
  | cons x l ih =>
    rw [List.mapM_cons, List.mapM_cons]
    exact (hf x).bind fun _ => ih.bind fun _ => .pure _

/-- A container that was not open is open while it is written, and no longer. -/
theorem enclosed {r : Handle} {dots : String} {w : Writing υ ε String} {a : Action υ ε String}
    (hw : Restores (r :: opened) w a) :
    Restores opened (enclosed r dots w) (if r ∈ opened then Pure.pure dots else a) := by
  unfold Restores at *
  unfold Machine.enclosed
  simp only [StateT.run_bind, StateT.run_get, pure_bind]
  split
  · rfl
  · simp only [StateT.run_bind, StateT.run_modify, pure_bind, hw, bind_map_left, StateT.run_pure,
      List.erase_cons_head]
    exact bind_pure_comp _ a

end Writing.Restores

/-- The induction is on the depth: inside a container the path is longer by that container. -/
theorem write_restores (depth : Nat) (opened : List Handle) (v : Value) :
    Writing.Restores opened (write depth v : Writing υ ε String) (textWithin depth opened v) := by
  induction depth generalizing opened v with
  | zero => exact .lift _
  | succ depth ih =>
    cases v with
    | none => exact .pure _
    | bool b => cases b <;> exact .pure _
    | int i => exact .pure _
    | float x => exact .pure _
    | ref r =>
      simp only [write, textWithin]
      refine Writing.Restores.bind (.lift _) fun b => ?_
      cases b with
      | bytes data => exact .bind (.lift _) fun _ => .pure _
      | bigInt n => exact .pure _
      | inst type fields => exact .bind (.lift _) fun _ => .pure _
      | list items => exact .enclosed (.bind (.mapM (ih _) items) fun _ => .pure _)
      | tuple items => exact .enclosed (.bind (.mapM (ih _) items) fun _ => .pure _)
      | dict entries =>
        refine .enclosed (.bind (.mapM (fun e => ?_) entries) fun _ => .pure _)
        exact .bind (ih _ e.key) fun _ => .bind (ih _ e.value) fun _ => .pure _

theorem textOf_eq (v : Value) :
    (textOf v : Action υ ε String) = get >>= fun m => textWithin (m.heap.slots.size + 1) [] v := by
  unfold textOf
  refine bind_congr fun m => ?_
  have h := write_restores (υ := υ) (ε := ε) (m.heap.slots.size + 1) [] v
  rw [StateT.run'_eq, h, Functor.map_map, id_map']

end

/-- The text of a value inside the containers `enclosing` is found without a change, and also found
at all where the store is sound. -/
theorem textWithin_ends {Q : ε → Machine υ → Prop} {depth : Nat} {enclosing : List Handle}
    (hsound : safe → m.heap.Sound m.registry owned) (hv : safe → m.heap.Present v)
    (hpath : safe → enclosing.Nodup ∧ (∀ r ∈ enclosing, ∃ e, m.heap.lookup? r = some e) ∧
      enclosing.length + depth = m.heap.slots.size + 1) :
    (textWithin depth enclosing v : Action υ ε String).Ends m safe (fun _ m' => m' = m) Q := by
  induction depth generalizing enclosing v with
  | zero =>
    intro hs
    obtain ⟨hnodup, hlive, hlength⟩ := hpath hs
    have := Heap.length_le_size hnodup hlive
    omega
  | succ depth ih =>
    cases v with
    | none => rfl
    | bool b => cases b <;> rfl
    | int i => rfl
    | float x => rfl
    | ref r =>
      simp only [textWithin, ends_bind]
      refine readHeap_ends (fun hs => (hv hs).body) fun b hb => ?_
      have hchild (hr : r ∉ enclosing) (v : Value) (hmem : v ∈ b.children) :
          (textWithin depth (r :: enclosing) v : Action υ ε String).Ends m safe
            (fun _ m' => m' = m) Q := by
        obtain ⟨e, he, rfl⟩ := Heap.body_eq_ok.1 hb
        refine ih (fun hs => (hsound hs).closed r e he v hmem) fun hs => ?_
        obtain ⟨hnodup, hlive, hlength⟩ := hpath hs
        refine ⟨List.nodup_cons.2 ⟨hr, hnodup⟩, List.forall_mem_cons.2 ⟨⟨e, he⟩, hlive⟩, ?_⟩
        simp only [List.length_cons]
        omega
      cases b with
      | bytes data => rfl
      | bigInt n => rfl
      | inst type fields =>
        simp only [ends_bind, ends_pure]
        refine typeName_ends (fun hs => ?_) fun _ => rfl
        exact (hsound hs).typeObject (Heap.typeOf_ref hb)
      | list items =>
        refine ends_ite (fun _ => rfl) fun hr => ?_
        simp only [ends_bind, ends_pure]
        exact ends_mapM (hchild hr) fun _ => rfl
      | tuple items =>
        refine ends_ite (fun _ => rfl) fun hr => ?_
        simp only [ends_bind, ends_pure]
        exact ends_mapM (hchild hr) fun _ => rfl
      | dict entries =>
        refine ends_ite (fun _ => rfl) fun hr => ?_
        simp only [ends_bind, ends_pure]
        refine ends_mapM (fun e he => ?_) fun _ => rfl
        have hkey : e.key ∈ Dict.children entries :=
          List.mem_flatMap.2 ⟨e, he, by simp⟩
        have hvalue : e.value ∈ Dict.children entries :=
          List.mem_flatMap.2 ⟨e, he, by simp⟩
        simp only [ends_bind, ends_pure]
        refine (hchild hr e.key hkey).mono ?_ fun _ _ h => h
        rintro _ _ rfl
        exact hchild hr e.value hvalue

theorem textOf_ends {P : String → Machine υ → Prop} {Q : ε → Machine υ → Prop}
    (hsound : safe → m.heap.Sound m.registry owned) (hv : safe → m.heap.Present v)
    (h : ∀ s, P s m) : (textOf v : Action υ ε String).Ends m safe P Q := by
  simp only [textOf_eq, ends_bind, ends_get]
  refine (textWithin_ends hsound hv fun _ => ⟨List.nodup_nil, by simp, by simp⟩).mono ?_ fun _ _ h => h
  rintro s _ rfl
  exact h s

section

variable {ε' α β : Type} {m₂ : Machine υ}

/-- What a computation finds in the first machine, another one finds in the second. Neither changes its
machine. -/
def Concur (m m₂ : Machine υ) (a : Action υ ε α) (a' : Action υ ε' α) : Prop :=
  ∀ x m', a.run m = .done x m' → m' = m ∧ a'.run m₂ = .done x m₂

theorem Concur.pure (x : α) : Concur m m₂ (pure x : Action υ ε α) (pure x : Action υ ε' α) := by
  intro y m' hrun
  cases hrun
  exact ⟨rfl, rfl⟩

theorem Concur.bind {a : Action υ ε α} {a' : Action υ ε' α} {f : α → Action υ ε β}
    {f' : α → Action υ ε' β} (ha : Concur m m₂ a a') (hf : ∀ x, Concur m m₂ (f x) (f' x)) :
    Concur m m₂ (a >>= f) (a' >>= f') := by
  intro y m' hrun
  rw [run_bind] at hrun ⊢
  cases hx : a.run m with
  | done x m₁ =>
    obtain ⟨rfl, hx'⟩ := ha x m₁ hx
    rw [hx] at hrun
    rw [hx']
    exact hf x y m' hrun
  | failed _ _ =>
    rw [hx] at hrun
    cases hrun
  | fault _ =>
    rw [hx] at hrun
    cases hrun

theorem Concur.ite {c : Prop} [Decidable c] {a b : Action υ ε α} {a' b' : Action υ ε' α}
    (ha : Concur m m₂ a a') (hb : Concur m m₂ b b') :
    Concur m m₂ (if c then a else b) (if c then a' else b') := by
  split
  · exact ha
  · exact hb

theorem Concur.mapM {f : α → Action υ ε β} {f' : α → Action υ ε' β} {l : List α}
    (hf : ∀ a ∈ l, Concur m m₂ (f a) (f' a)) : Concur m m₂ (l.mapM f) (l.mapM f') := by
  induction l with
  | nil => exact .pure []
  | cons a l ih =>
    rw [List.mapM_cons, List.mapM_cons]
    apply Concur.bind (hf a (by simp))
    exact fun _ => .bind (ih fun b hb => hf b (by simp [hb])) fun _ => .pure _

theorem Concur.readHeap (f : Heap → Except Fault α) (hh : m₂.heap = m.heap) :
    Concur m m₂ (readHeap f : Action υ ε α) (readHeap f : Action υ ε' α) := by
  intro x m' hrun
  cases hf : f m.heap with
  | ok y =>
    have hrun' : (Machine.readHeap f : Action υ ε α).run m = .done y m := by simp [Machine.readHeap, hf]
    cases hrun'.symm.trans hrun
    exact ⟨rfl, by simp [Machine.readHeap, hh, hf]⟩
  | error _ => simp [Machine.readHeap, hf] at hrun

theorem Concur.typeName (type : TypeId) (hg : m₂.registry = m.registry) :
    Concur m m₂ (typeName type : Action υ ε String) (typeName type : Action υ ε' String) := by
  intro x m' hrun
  cases ht : m.registry.get? type with
  | none => simp [Machine.typeName, typeObject, ht] at hrun
  | some t =>
    have hrun' : (Machine.typeName type : Action υ ε String).run m = .done t.name m := by
      simp [Machine.typeName, typeObject, ht]
    cases hrun'.symm.trans hrun
    exact ⟨rfl, by simp [Machine.typeName, typeObject, hg, ht]⟩

/-- The text of a value depends neither on the tracer, nor on the failures of what asks for it. -/
theorem textWithin_concur (tracer : Tracer) (depth : Nat) (enclosing : List Handle) (v : Value) :
    Concur m { m with tracer := tracer } (textWithin depth enclosing v : Action υ ε String)
      (textWithin depth enclosing v : Action υ ε' String) := by
  induction depth generalizing enclosing v with
  | zero =>
    intro x m' hrun
    cases hrun
  | succ depth ih =>
    cases v with
    | none => exact .pure _
    | bool b => cases b <;> exact .pure _
    | int i => exact .pure _
    | float x => exact .pure _
    | ref r =>
      simp only [textWithin]
      apply Concur.bind (.readHeap (·.body r) (by rfl))
      intro b
      cases b with
      | bytes data =>
        intro x m' hrun
        cases hrun
        exact ⟨rfl, rfl⟩
      | bigInt n => exact .pure _
      | inst type fields => exact .bind (.typeName type rfl) fun _ => .pure _
      | list items => exact .ite (.pure _) (.bind (.mapM fun v _ => ih _ v) fun _ => .pure _)
      | tuple items => exact .ite (.pure _) (.bind (.mapM fun v _ => ih _ v) fun _ => .pure _)
      | dict entries =>
        apply Concur.ite (.pure _)
        apply Concur.bind (.mapM fun e _ => ?_) fun _ => .pure _
        exact .bind (ih _ e.key) fun _ => .bind (ih _ e.value) fun _ => .pure _

/-- A value that is there has a text. -/
theorem exists_text (hs : m.heap.Sound m.registry owned) (hv : m.heap.Present v) :
    ∃ shown, (textOf v : Action υ ε String).run m = .done shown m ∧ ∀ tracer,
      (textOf v : Action υ ε' String).run { m with tracer := tracer } =
        .done shown { m with tracer := tracer } := by
  have hends : (textOf v : Action υ ε String).Ends m True (fun _ m' => m' = m) fun _ _ => False :=
    textOf_ends (fun _ => hs) (fun _ => hv) fun _ => rfl
  obtain ⟨shown, m', hrun, rfl⟩ | ⟨_, _, _, hfalse⟩ := hends.cases
  · refine ⟨shown, hrun, fun tracer => ?_⟩
    rw [textOf_eq] at hrun ⊢
    exact (textWithin_concur tracer (m'.heap.slots.size + 1) [] v shown m' hrun).2
  · exact hfalse.elim

end

end ItemAccess.Machine
