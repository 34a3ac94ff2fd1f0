import ItemAccess.Machine.Build
import ItemAccess.Proofs.Tandem.Access

/-!
# Building objects in tandem

Builders put what they are given into slots that are then matched. On the way to a dict references may
be released, but no tuple is made, so keys can be found throughout.
-/

namespace ItemAccess

open Attempt

variable {υ : SlotKind → Type} {T : Terms} {f : Equiv.Perm Handle} {known : Handle → Prop}
  {ε : Type} {m₁ m₂ : Machine υ} {R : ε → Machine υ → Prop} {obj v : Value} {b : Body}
  {items fields : List Value}

/-- Releasing leaves no tuple that was not there before. -/
theorem Heap.Grounded.releaseAll {h h' : Heap} {vs : List Value} (hg : h.Grounded)
    (hr : h.releaseAll vs = .ok h') : h'.Grounded := by
  induction hr using Heap.releaseAll_induction with
  | nil h => exact hg
  | @step h v h₁ cs ws h' hd hr ih =>
    refine ih (Subrelation.wf ?_ hg)
    rintro s t ⟨e', items, he', hbody, hmem⟩
    cases hd with
    | immediate _ => exact ⟨e', items, he', hbody, hmem⟩
    | @fewer r e he _ =>
      rw [Heap.lookup?_put he] at he'
      by_cases ht : t = r
      · rw [if_pos ht] at he'
        cases he'
        exact ⟨e, items, ht ▸ he, hbody, hmem⟩
      · rw [if_neg ht] at he'
        exact ⟨e', items, he', hbody, hmem⟩
    | @last r e he _ =>
      rw [Heap.lookup?_vacate he] at he'
      by_cases ht : t = r
      · rw [if_pos ht] at he'
        cases he'
      · rw [if_neg ht] at he'
        exact ⟨e', items, he', hbody, hmem⟩

namespace Machine

theorem allocate_yields (hb : b.Among known) :
    Yields T f known FailedRefusal (allocate b : Action υ Failure Value) (allocate (b.rename f)) := by
  intro m₁ m₂ hm
  have hserved := hm.heap.allocate hb
  simp only [InStep, allocate, run_bind, run_get, run_liftM]
  generalize m₁.heap.allocate b = x₁ at hserved ⊢
  generalize m₂.heap.allocate (b.rename f) = x₂ at hserved ⊢
  cases hserved with
  | ok hp => exact .done (.placed hm hp)
  | error e => exact .failed _ hm
  | fault k => exact .fault k
  | refused hne e y =>
    have hrefusal : FailedRefusal (.ofLimit e) m₁ := rfl
    exact .refused hne hrefusal _

theorem newList_yields (hitems : ∀ v ∈ items, v.Among known) :
    Yields T f known FailedRefusal (newList items : Action υ Failure Value)
      (newList (items.map (Value.rename f))) :=
  allocate_yields (b := .list items) (Body.among_of_children rfl hitems)

theorem newTuple_yields (hitems : ∀ v ∈ items, v.Among known) :
    Yields T f known FailedRefusal (newTuple items : Action υ Failure Value)
      (newTuple (items.map (Value.rename f))) :=
  allocate_yields (b := .tuple items) (Body.among_of_children rfl hitems)

theorem newBytes_yields (data : List UInt8) :
    Yields T f known FailedRefusal (newBytes data : Action υ Failure Value) (newBytes data) :=
  allocate_yields (b := .bytes data) (Body.among_of_children rfl (by simp [Body.children]))

theorem newInt_yields (n : Int) :
    Yields T f known FailedRefusal (newInt n : Action υ Failure Value) (newInt n) := by
  unfold newInt
  cases Position.ofInt? n with
  | some i => exact Tandem.yields (.pure rfl)
  | none =>
    exact allocate_yields (b := .bigInt n) (Body.among_of_children rfl (by simp [Body.children]))

theorem newInstance_yields (type : TypeId) (hfields : ∀ v ∈ fields, v.Among known) :
    Yields T f known FailedRefusal (newInstance type fields : Action υ Failure Value)
      (newInstance type (fields.map (Value.rename f))) := by
  intro m₁ m₂ hm
  have hrefuse (c : Complaint) : InStep T f known FailedRefusal
      (releaseAll fields >>= fun _ => refuse c : Action υ Failure Value)
      (releaseAll (fields.map (Value.rename f)) >>= fun _ => refuse c) m₁ m₂
      (Gives T f known Value.rename) :=
    Tandem.yields ((releaseAll_tandem hfields).bind fun _ _ _ => refuse_tandem c) m₁ m₂ hm
  have hmake : Yields T f known FailedRefusal (allocate (.inst type fields) : Action υ Failure Value)
      (allocate (.inst type (fields.map (Value.rename f)))) :=
    allocate_yields (b := .inst type fields) (Body.among_of_children rfl hfields)
  simp only [InStep, newInstance, run_bind, run_get, hm.registry]
  cases m₁.registry.get? type with
  | some t => exact InStep.ite Iff.rfl (fun _ => hrefuse _) fun _ => hmake m₁ m₂ hm
  | none => exact hrefuse _

def Entered (f : Handle → Handle) (known : Handle → Prop) (entries entries' : List DictEntry) : Prop :=
  entries' = entries.map (DictEntry.rename f) ∧ (Body.dict entries).Among known

def renamePair (f : Handle → Handle) (p : Value × Value) : Value × Value :=
  (p.1.rename f, p.2.rename f)

theorem flattenPairs_rename (f : Handle → Handle) (pairs : List (Value × Value)) :
    flattenPairs (pairs.map (renamePair f)) = (flattenPairs pairs).map (Value.rename f) := by
  simp only [flattenPairs, List.flatMap_map, List.map_flatMap]
  rfl

/-- What is released in the first store is known, so that one can see what becomes of its tuples. -/
theorem releaseAll_inStep {vs : List Value} {k₁ k₂ : Unit → Action υ ε (List DictEntry)}
    {P : List DictEntry → Machine υ → List DictEntry → Machine υ → Prop} (hm : m₁.Mirrors T f known m₂)
    (hvs : ∀ v ∈ vs, v.Among known)
    (h : ∀ h₁ n₂, m₁.heap.releaseAll vs = .ok h₁ → { m₁ with heap := h₁ }.Mirrors T f known n₂ →
      InStep T f known R (k₁ ()) (k₂ ()) { m₁ with heap := h₁ } n₂ P) :
    InStep T f known R (releaseAll vs >>= k₁) (releaseAll (vs.map (Value.rename f)) >>= k₂) m₁ m₂ P := by
  have hboth := hm.heap.releaseAll hvs
  simp only [InStep, releaseAll, changeHeap, run_bind, run_get, run_liftM, run_set]
  generalize hx₁ : m₁.heap.releaseAll vs = x₁ at hboth ⊢
  generalize m₂.heap.releaseAll (vs.map (Value.rename f)) = x₂ at hboth ⊢
  cases hboth with
  | ok hh => exact h _ _ hx₁ (hm.withHeap hh)
  | error k => exact .fault k

/-- Releasing on the way keeps tuples grounded, so every key can be found; what is left of the pairs is
treated by induction. -/
theorem fillDict_inStep {entries entries' : List DictEntry} {pairs : List (Value × Value)}
    (hm : m₁.Mirrors T f known m₂) (hg : ¬ T.aligned → m₁.heap.Grounded)
    (hentries : Entered f known entries entries')
    (hpairs : ∀ v ∈ flattenPairs pairs, v.Among known) :
    InStep T f known FailedRefusal (fillDict entries pairs)
      (fillDict entries' (pairs.map (renamePair f))) m₁ m₂
      fun es n₁ es' n₂ => Entered f known es es' ∧ n₁.Mirrors T f known n₂ := by
  induction pairs generalizing entries entries' m₁ m₂ with
  | nil => exact .done ⟨hentries, hm⟩
  | cons p rest ih =>
    obtain ⟨key, value⟩ := p
    obtain ⟨rfl, hknown⟩ := hentries
    have hsplit : flattenPairs ((key, value) :: rest) = key :: value :: flattenPairs rest := rfl
    rw [hsplit, List.forall_mem_cons, List.forall_mem_cons] at hpairs
    obtain ⟨hkey, hvalue, hrest⟩ := hpairs
    apply (readHash_found hm hg hkey).bind
    rintro _ _ _ _ ⟨⟨hk⟩ | id, rfl, rfl⟩
    case ok k _ =>
      obtain ⟨rfl, hnames⟩ := hk
      dsimp only
      rw [Dict.insert_rename]
      apply releaseAll_inStep hm (hknown.leftOver hkey)
      intro h₁ n₂ hreleased hn
      apply ih hn
      · exact fun hT => (hg hT).releaseAll hreleased
      · exact ⟨rfl, hknown.insert hnames hkey hvalue⟩
      · exact hrest
    case error =>
      -- everything that was handed over is given back, in the same order on both sides
      have hchildren : Dict.children (entries.map (DictEntry.rename f)) =
          (Dict.children entries).map (Value.rename f) := Body.children_rename f (.dict entries)
      have hback : (key :: value :: flattenPairs rest ++ Dict.children entries).map (Value.rename f) =
          key.rename f :: value.rename f :: flattenPairs (rest.map (renamePair f)) ++
            Dict.children (entries.map (DictEntry.rename f)) := by
        rw [flattenPairs_rename, hchildren, List.map_append, List.map_cons, List.map_cons]
      have hgiven : ∀ w ∈ key :: value :: flattenPairs rest ++ Dict.children entries, w.Among known :=
        List.forall_mem_append.2 ⟨List.forall_mem_cons.2 ⟨hkey, List.forall_mem_cons.2 ⟨hvalue, hrest⟩⟩,
          hknown.children⟩
      apply (typeName_found hm id).bind
      rintro name _ _ _ ⟨rfl, rfl, rfl⟩
      have hreleased : Tandem T f known FailedRefusal
          (releaseAll (key :: value :: flattenPairs rest ++ Dict.children entries) >>= fun _ =>
            refuse (.unhashable name) : Action υ Failure (List DictEntry))
          (releaseAll ((key :: value :: flattenPairs rest ++ Dict.children entries).map
            (Value.rename f)) >>= fun _ => refuse (.unhashable name)) (Entered f known) :=
        (releaseAll_tandem hgiven).bind fun _ _ _ => refuse_tandem _
      rw [hback] at hreleased
      exact hreleased m₁ m₂ hm

theorem newDict_inStep {pairs : List (Value × Value)} (hm : m₁.Mirrors T f known m₂)
    (hg : ¬ T.aligned → m₁.heap.Grounded) (hpairs : ∀ v ∈ flattenPairs pairs, v.Among known) :
    InStep T f known FailedRefusal (newDict pairs) (newDict (pairs.map (renamePair f))) m₁ m₂
      (Gives T f known Value.rename) := by
  have hempty : Entered f known [] [] := ⟨rfl, Body.among_dict.2 (List.forall_mem_nil _)⟩
  apply (fillDict_inStep hm hg hempty hpairs).bind
  rintro entries n₁ _ n₂ ⟨⟨rfl, hknown⟩, hn⟩
  exact allocate_yields hknown n₁ n₂ hn

theorem bytesOf_tandem (hv : v.Among known) :
    Tandem T f known R (bytesOf v) (bytesOf (v.rename f)) Eq := by
  cases v with
  | ref r =>
    apply (readBody_tandem (hv r rfl)).bind
    rintro b _ ⟨rfl, -⟩
    rw [Body.bytes?_rename]
    exact .pure rfl
  | _ => exact .pure rfl

theorem field_tandem (hobj : obj.Among known) (i : Nat) :
    Tandem T f known R (field obj i) (field (obj.rename f) i)
      fun x y => y = x.map (Value.rename f) := by
  cases obj with
  | ref r =>
    apply (readBody_tandem (hobj r rfl)).bind
    rintro b _ ⟨rfl, hb⟩
    cases b with
    | inst type fields =>
      simp only [Body.rename, List.getElem?_map]
      cases hfield : fields[i]? with
      | none => exact .pure rfl
      | some v =>
        have hv := hb.children v (List.mem_of_getElem? hfield)
        apply (retain_renamed hv).bind
        rintro x _ rfl
        exact .pure rfl
    | _ => exact .pure rfl
  | _ => exact .pure rfl

theorem setField_tandem (hobj : obj.Among known) (i : Nat) (hv : v.Among known) :
    Tandem T f known R (setField obj i v) (setField (obj.rename f) i (v.rename f)) Eq := by
  cases obj with
  | ref r =>
    apply (retain_tandem hv).bind
    rintro _ _ ⟨rfl, rfl⟩
    apply (readEntry_tandem (hobj r rfl)).bind
    rintro e e' ⟨hbody, hknown⟩
    have hback : Tandem T f known R (release v >>= fun _ => pure false : Action υ ε Bool)
        (release (v.rename f) >>= fun _ => pure false) Eq :=
      (release_tandem hv).bind fun _ _ _ => .pure rfl
    rw [hbody]
    cases hb : e.body with
    | inst type fields =>
      rw [hb] at hknown
      simp only [Body.rename, List.getElem?_map]
      cases hfield : fields[i]? with
      | none => exact hback
      | some old =>
        have hold := hknown.children old (List.mem_of_getElem? hfield)
        refine (setBody_tandem (hobj r rfl) ?_ ?_).bind fun _ _ _ =>
          (release_tandem hold).bind fun _ _ _ => .pure rfl
        · exact Body.among_of_children rfl (Value.among_set hknown.children hv i)
        · rw [Body.rename, List.map_set]
    | _ => exact hback
  | _ => exact .pure rfl

end Machine

end ItemAccess
