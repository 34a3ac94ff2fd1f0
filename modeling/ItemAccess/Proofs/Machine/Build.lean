import ItemAccess.Machine.Build
import ItemAccess.Proofs.Machine.Items

/-!
# Building objects keeps to every discipline

A builder takes over the references it is given. Whether it succeeds or fails, they are accounted
for: in the new object, given back to the store, or, where a limit stands in the way, still there as
if the one who gave them owned them.
-/

namespace ItemAccess.Discipline

open Attempt Machine

variable {υ : SlotKind → Type} {ε : Type} {D : Discipline υ} {m m₁ : Machine υ}
  {owned more : Multiset Handle} {obj v : Value}

/-- What becomes of the references that a builder was given when it fails: only a limit leaves any
of them behind. -/
def Leaves (D : Discipline υ) (owned : Multiset Handle) (m : Machine υ) (f : Failure)
    (m' : Machine υ) : Prop :=
  ∃ lost, D.After owned m m' lost ∧ (f.kind = .resourceExhausted ∨ lost = 0)

theorem allocate_keeps {b : Body} (ha : D.After owned m m₁ (handles b.children))
    (hb : b.Allowed m₁.registry)
    (hk : ∀ entries, b = .dict entries → Dict.Keyed m₁.heap entries) :
    (Machine.allocate b).Ends m₁ D.safe (fun v m' => D.After owned m m' v.handles)
      fun f m' => f.kind = .resourceExhausted ∧ D.After owned m m' (handles b.children) := by
  simp only [Machine.allocate, ends_bind, ends_get]
  refine ends_liftM (fun hs => Heap.allocate_ok (ha.sound hs).free b) fun x hx => ?_
  cases x with
  | error e => exact ⟨rfl, ha⟩
  | ok p =>
    obtain ⟨r, h'⟩ := p
    simp only [ends_bind, ends_set, ends_pure]
    rw [← zero_add (handles _)] at ha
    simpa using ha.moves (Heap.allocate_moves hx hb hk)

/-- An object made of references that were given. -/
theorem allocate_leaves {b : Body} (ha : D.After owned m m₁ (handles b.children))
    (hb : b.Allowed m₁.registry)
    (hk : ∀ entries, b = .dict entries → Dict.Keyed m₁.heap entries) :
    (Machine.allocate b).Ends m₁ D.safe (fun v m' => D.After owned m m' v.handles)
      (D.Leaves owned m) :=
  (allocate_keeps ha hb hk).mono (fun _ _ h => h) fun _ _ h => ⟨_, h.2, .inl h.1⟩

theorem newList_keeps {items : List Value}
    (hg : D.good m.heap m.registry (owned + handles items)) :
    (newList items).Ends m D.safe (fun v m' => D.After owned m m' v.handles)
      (D.Leaves owned m) :=
  allocate_leaves (b := .list items) (.now hg) trivial nofun

theorem newTuple_keeps {items : List Value}
    (hg : D.good m.heap m.registry (owned + handles items)) :
    (newTuple items).Ends m D.safe (fun v m' => D.After owned m m' v.handles)
      (D.Leaves owned m) :=
  allocate_leaves (b := .tuple items) (.now hg) trivial nofun

theorem newBytes_keeps {data : List UInt8} (hg : D.good m.heap m.registry owned) :
    D.Gives (newBytes data) m owned Value.handles :=
  (allocate_keeps (b := .bytes data) (.refl hg) trivial nofun).mono (fun _ _ h => h) fun _ _ h => h.2

theorem newInt_keeps {n : Int} (hg : D.good m.heap m.registry owned) :
    D.Gives (newInt n) m owned Value.handles := by
  have ha : D.After owned m m 0 := .refl hg
  unfold newInt
  cases hn : Position.ofInt? n with
  | some i => exact ha
  | none =>
    have hk (entries : List DictEntry) (hb : Body.bigInt n = .dict entries) :
      Dict.Keyed m.heap entries := by cases hb
    exact (allocate_keeps (b := .bigInt n) ha hn hk).mono (fun _ _ h => h) fun _ _ h => h.2

theorem newInstance_keeps {type : TypeId} {fields : List Value}
    (hg : D.good m.heap m.registry (owned + handles fields)) :
    (newInstance type fields).Ends m D.safe (fun v m' => D.After owned m m' v.handles)
      (D.Leaves owned m) := by
  have ha : D.After owned m m (handles fields) := .now hg
  have hreturn (c : Complaint) : (do Machine.releaseAll fields; refuse c : Action υ Failure Value).Ends
      m D.safe (fun v m' => D.After owned m m' v.handles) (D.Leaves owned m) := by
    simp only [ends_bind, ends_refuse]
    refine (release_keeps (by rwa [zero_add])).mono ?_ fun _ _ h => h
    exact fun _ m' h => ⟨0, h, .inr rfl⟩
  simp only [newInstance, ends_bind, ends_get]
  cases ht : m.registry.get? type with
  | none => exact hreturn _
  | some t =>
    refine ends_ite (fun _ => hreturn _) fun hb => ?_
    have hk (entries : List DictEntry) (hb : Body.inst type fields = .dict entries) :
      Dict.Keyed m.heap entries := by cases hb
    exact allocate_leaves (b := .inst type fields) ha ⟨t, ht, by simpa using hb⟩ hk

theorem handles_flattenPairs_cons (key value : Value) (rest : List (Value × Value)) :
    handles (flattenPairs ((key, value) :: rest)) =
      key.handles + value.handles + handles (flattenPairs rest) := by
  simp [flattenPairs, add_assoc]

/-- The references of the entries made so far and of the pairs still to come are owned together. -/
theorem fillDict_keeps {entries : List DictEntry} {pairs : List (Value × Value)}
    (ha : D.After owned m m₁ (handles (Dict.children entries) + handles (flattenPairs pairs)))
    (hkeyed : Dict.Keyed m₁.heap entries) :
    (fillDict entries pairs).Ends m₁ D.safe
      (fun entries m' => D.After owned m m' (handles (Dict.children entries)) ∧
        Dict.Keyed m'.heap entries)
      fun _ m' => D.After owned m m' 0 := by
  induction pairs generalizing entries m₁ with
  | nil => exact ⟨by simpa [flattenPairs] using ha, hkeyed⟩
  | cons pair rest ih =>
    obtain ⟨key, value⟩ := pair
    rw [handles_flattenPairs_cons] at ha
    have hkey : key.Within (owned + (handles (Dict.children entries) +
        (key.handles + value.handles + handles (flattenPairs rest)))) := by
      rintro r rfl
      simp
    simp only [fillDict, ends_bind]
    refine readHeap_ends (fun hs => (ha.sound hs).hash (ha.present hkey hs)) fun x hx => ?_
    cases x with
    | ok k =>
      simp only [ends_bind]
      have hinsert := Dict.handles_insert entries k key value
      have ha' : D.After owned m m₁ (handles (Dict.children (Dict.insert entries k key value).1) +
          handles (flattenPairs rest) + handles (Dict.insert entries k key value).2) := by
        rw [add_right_comm, hinsert]
        simpa only [add_assoc] using ha
      have hkeyed' := hkeyed.insert hx value
      refine releaseAll_ends (fun hs => ?_) fun h' hh => ?_
      · have hsound := ha'.sound hs
        rw [← add_assoc] at hsound
        exact hsound.releaseAll
      · refine ih (ha'.spend (Heap.releaseAll_moves _ hh)) (hkeyed'.mono fun e he hk => ?_)
        refine ha'.hash_moves (Heap.releaseAll_moves _ hh) ?_ hk
        intro r hr
        have hmem : Value.ref r ∈ Dict.children (Dict.insert entries k key value).1 :=
          List.mem_flatMap.2 ⟨e, he, by simp [hr]⟩
        simp [mem_handles.2 hmem]
    | error type =>
      simp only [ends_bind, ends_refuse]
      refine typeName_ends (fun hs => ?_) fun name => ?_
      · have hbuilt := (ha.sound hs).built
        obtain rfl | rfl := Heap.hashWithin_error hx
        · exact (hbuilt.get? .list).imp' _ fun _ hk => hk
        · exact (hbuilt.get? .dict).imp' _ fun _ hk => hk
      · refine release_keeps ?_
        simp only [handles_append, handles_cons, zero_add]
        simpa only [add_assoc, add_comm, add_left_comm] using ha

theorem newDict_keeps {pairs : List (Value × Value)}
    (hg : D.good m.heap m.registry (owned + handles (flattenPairs pairs))) :
    (newDict pairs).Ends m D.safe (fun v m' => D.After owned m m' v.handles) (D.Leaves owned m) := by
  have ha : D.After owned m m (handles (Dict.children []) + handles (flattenPairs pairs)) :=
    .now (by simpa using hg)
  simp only [newDict, ends_bind]
  refine (fillDict_keeps ha .nil).mono ?_ fun f m' h => ⟨0, h, .inr rfl⟩
  rintro entries m₁ ⟨ha₁, hkeyed⟩
  refine allocate_leaves (b := .dict entries) ha₁ trivial fun entries' heq => ?_
  cases heq
  exact hkeyed

theorem field_keeps {Q : ε → Machine υ → Prop} (hg : D.good m.heap m.registry owned)
    (hobj : obj.Within owned) (i : Nat) :
    (field obj i : Action υ ε (Option Value)).Ends m D.safe
      (fun x m' => D.After owned m m' (handles x.toList) ∧ m'.pending = m.pending) Q := by
  have ha : D.After owned m m 0 := .refl hg
  cases obj with
  | ref r =>
    simp only [field, ends_bind]
    refine readHeap_ends (fun hs => (ha.present (hobj.mono 0) hs).body) fun b hb => ?_
    cases b with
    | inst type fields =>
      dsimp only
      cases hv : fields[i]? with
      | none => exact ⟨ha, rfl⟩
      | some v =>
        simp only [ends_bind, ends_pure]
        have hmem : v ∈ (Body.inst type fields).children := List.mem_of_getElem? hv
        refine retain_ends (fun hs => (ha.sound hs).child hb hmem) fun h' hh => ⟨?_, rfl⟩
        simpa using ha.gain (Heap.retain_moves _ hh)
    | _ => exact ⟨ha, rfl⟩
  | _ => exact ⟨ha, rfl⟩

theorem setField_keeps {Q : ε → Machine υ → Prop} (hg : D.good m.heap m.registry owned)
    (hobj : obj.Within owned) (hv : v.Within owned) (hw : D.Writable obj) (i : Nat) :
    (setField obj i v : Action υ ε Bool).Ends m D.safe (fun _ m' => D.After owned m m' 0) Q := by
  have ha : D.After owned m m 0 := .refl hg
  cases obj with
  | ref r =>
    simp only [setField, ends_bind]
    refine retain_ends (ha.present (hv.mono 0)) fun h₂ hh => ?_
    have ha₂ := ha.gain (Heap.retain_moves _ hh)
    refine readHeap_ends (fun hs => (ha₂.present (hobj.mono _) hs).entry .change) fun e he => ?_
    have hback : (Machine.releaseAll [v] : Action υ ε Unit).Ends { m with heap := h₂ } D.safe
        (fun _ m' => D.After owned m m' 0) Q :=
      release_keeps (by simpa using ha₂)
    have hb := Heap.body_of_lookup? (Heap.entry_eq_ok.1 he)
    cases hbody : e.body with
    | inst type fields =>
      dsimp only
      cases hold : fields[i]? with
      | none =>
        simp only [ends_bind, ends_pure]
        exact hback
      | some old =>
        rw [hbody] at hb
        simp only [ends_bind, ends_pure]
        refine (setBody_keeps ha₂ hb (hw r rfl) (.inst type _ _) (handles_set hold v)).mono ?_ fun _ _ h => h
        exact fun _ m₃ ha₃ => release_keeps (by simpa using ha₃)
    | _ =>
      simp only [ends_bind, ends_pure]
      exact hback
  | _ => exact ha

end ItemAccess.Discipline
