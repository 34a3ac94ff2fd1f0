import ItemAccess.Proofs.Store.Keys
import Mathlib.Logic.Function.Basic

/-!
# Naming slots anew

Values, keys and objects name slots of the store. To rename them is to put another slot in the place of
each. What a dict does with its keys, and what an object holds, is then renamed as well, as long as
different slots keep different names; sizes and types do not depend on names at all.
-/

namespace ItemAccess

variable {f g : Handle → Handle}

namespace Value

def rename (f : Handle → Handle) : Value → Value
  | ref r => ref (f r)
  | v => v

@[simp] theorem rename_id (v : Value) : v.rename id = v := by
  cases v <;> rfl

theorem rename_congr {v : Value} (h : ∀ r, v = .ref r → f r = g r) : v.rename f = v.rename g := by
  cases v with
  | ref r => exact congrArg ref (h r rfl)
  | _ => rfl

theorem handle?_rename (f : Handle → Handle) (v : Value) :
    (v.rename f).handle? = v.handle?.map f := by
  cases v <;> rfl

end Value

namespace Key

/-- A key is a tuple of keys or has no items. -/
theorem induction {P : Key → Prop} (none : P none) (integer : ∀ i, P (integer i))
    (bigInt : ∀ n, P (bigInt n)) (float : ∀ x, P (float x)) (bytes : ∀ data, P (bytes data))
    (tuple : ∀ ks, (∀ k ∈ ks, P k) → P (tuple ks)) (identity : ∀ r, P (identity r)) (k : Key) : P k :=
  @Key.rec P (fun ks => ∀ k ∈ ks, P k) none integer bigInt float bytes tuple identity
    (fun k hk => by cases hk) (fun k ks hk hks => List.forall_mem_cons.2 ⟨hk, hks⟩) k

mutual

def rename (f : Handle → Handle) : Key → Key
  | tuple items => tuple (renameItems f items)
  | identity r => identity (f r)
  | none => none
  | integer i => integer i
  | bigInt n => bigInt n
  | float x => float x
  | bytes data => bytes data

def renameItems (f : Handle → Handle) : List Key → List Key
  | [] => []
  | k :: ks => rename f k :: renameItems f ks

end

theorem rename_tuple (f : Handle → Handle) (ks : List Key) :
    (tuple ks).rename f = tuple (ks.map (rename f)) := by
  have hitems : renameItems f ks = ks.map (rename f) := by
    induction ks with
    | nil => rfl
    | cons k ks ih => rw [renameItems, ih, List.map_cons]
  rw [rename, hitems]

theorem rename_id (k : Key) : k.rename id = k := by
  induction k using Key.induction with
  | tuple ks ih => rw [rename_tuple, List.map_congr_left ih, List.map_id']
  | _ => rfl

theorem rename_rename (f g : Handle → Handle) (k : Key) :
    (k.rename f).rename g = k.rename (g ∘ f) := by
  induction k using Key.induction with
  | tuple ks ih =>
    rw [rename_tuple, rename_tuple, rename_tuple, List.map_map]
    exact congrArg tuple (List.map_congr_left ih)
  | _ => rfl

theorem rename_congr {k : Key} (h : ∀ r, k.Names r → f r = g r) : k.rename f = k.rename g := by
  induction k using Key.induction with
  | tuple ks ih =>
    rw [rename_tuple, rename_tuple]
    exact congrArg tuple (List.map_congr_left fun k hk => ih k hk fun r hr => h r (.item hk hr))
  | identity r => exact congrArg identity (h r (.identity r))
  | _ => rfl

/-- Different keys have different names. -/
theorem rename_injective (f : Equiv.Perm Handle) : Function.Injective (rename f) := by
  apply Function.LeftInverse.injective (g := rename f.symm)
  intro k
  rw [rename_rename, Equiv.symm_comp_self, rename_id]

end Key

namespace DictEntry

def rename (f : Handle → Handle) (e : DictEntry) : DictEntry :=
  ⟨e.hash.rename f, e.key.rename f, e.value.rename f⟩

end DictEntry

namespace Body

def rename (f : Handle → Handle) : Body → Body
  | list items => list (items.map (Value.rename f))
  | tuple items => tuple (items.map (Value.rename f))
  | dict entries => dict (entries.map (DictEntry.rename f))
  | bytes data => bytes data
  | bigInt n => bigInt n
  | inst type fields => inst type (fields.map (Value.rename f))

/-- The object holds the slot, or a dict has recorded a key that names it. -/
def Mentions (b : Body) (r : Handle) : Prop :=
  .ref r ∈ b.children ∨ ∃ entries, b = dict entries ∧ ∃ e ∈ entries, e.hash.Names r

@[simp] theorem typeId_rename (f : Handle → Handle) (b : Body) : (b.rename f).typeId = b.typeId := by
  cases b <;> rfl

@[simp] theorem size_rename (f : Handle → Handle) (b : Body) : (b.rename f).size = b.size := by
  cases b <;> simp [rename, size]

theorem children_rename (f : Handle → Handle) (b : Body) :
    (b.rename f).children = b.children.map (Value.rename f) := by
  cases b with
  | dict entries =>
    simp only [rename, children, Dict.children, List.flatMap_map, List.map_flatMap]
    rfl
  | _ => simp [rename, children]

theorem rename_id (b : Body) : b.rename id = b := by
  have hvalues (vs : List Value) : vs.map (Value.rename id) = vs :=
    (List.map_congr_left fun v _ => Value.rename_id v).trans (List.map_id' vs)
  have hentries (entries : List DictEntry) : entries.map (DictEntry.rename id) = entries := by
    have hentry (e : DictEntry) : e.rename id = e := by
      rw [DictEntry.rename, Key.rename_id, Value.rename_id, Value.rename_id]
    exact (List.map_congr_left fun e _ => hentry e).trans (List.map_id' entries)
  cases b <;> simp [rename, hvalues, hentries]

theorem rename_congr {b : Body} (h : ∀ r, b.Mentions r → f r = g r) : b.rename f = b.rename g := by
  have hvalues (vs : List Value) (hvs : ∀ r, .ref r ∈ vs → f r = g r) :
      vs.map (Value.rename f) = vs.map (Value.rename g) := by
    apply List.map_congr_left
    intro v hv
    exact Value.rename_congr fun r hr => hvs r (hr ▸ hv)
  cases b with
  | list items => exact congrArg list (hvalues items fun r hr => h r (.inl hr))
  | tuple items => exact congrArg tuple (hvalues items fun r hr => h r (.inl hr))
  | inst type fields => exact congrArg (inst type) (hvalues fields fun r hr => h r (.inl hr))
  | dict entries =>
    apply congrArg dict
    apply List.map_congr_left
    intro e he
    have hchild (v : Value) (hv : v ∈ [e.key, e.value]) : v.rename f = v.rename g :=
      Value.rename_congr fun r hr => h r (.inl (List.mem_flatMap.2 ⟨e, he, hr ▸ hv⟩))
    have hkey : e.hash.rename f = e.hash.rename g :=
      Key.rename_congr fun r hr => h r (.inr ⟨entries, rfl, e, he, hr⟩)
    rw [DictEntry.rename, DictEntry.rename, hkey, hchild e.key (by simp), hchild e.value (by simp)]
  | _ => rfl

theorem list?_rename (f : Handle → Handle) (b : Body) :
    (b.rename f).list? = b.list?.map (List.map (Value.rename f)) := by
  cases b <;> rfl

theorem tuple?_rename (f : Handle → Handle) (b : Body) :
    (b.rename f).tuple? = b.tuple?.map (List.map (Value.rename f)) := by
  cases b <;> rfl

theorem dict?_rename (f : Handle → Handle) (b : Body) :
    (b.rename f).dict? = b.dict?.map (List.map (DictEntry.rename f)) := by
  cases b <;> rfl

theorem bytes?_rename (f : Handle → Handle) (b : Body) : (b.rename f).bytes? = b.bytes? := by
  cases b <;> rfl

end Body

namespace Dict

variable (f : Equiv.Perm Handle)

theorem hash_rename (e : DictEntry) (k : Key) :
    decide ((e.rename f).hash = k.rename f) = decide (e.hash = k) :=
  decide_eq_decide.2 (Key.rename_injective f).eq_iff

theorem find?_rename (entries : List DictEntry) (k : Key) :
    (entries.map (DictEntry.rename f)).find? (·.hash = k.rename f) =
      (entries.find? (·.hash = k)).map (DictEntry.rename f) := by
  rw [List.find?_map]
  congr 2
  funext e
  exact hash_rename f e k

theorem get?_rename (entries : List DictEntry) (k : Key) :
    get? (entries.map (DictEntry.rename f)) (k.rename f) = (get? entries k).map (Value.rename f) := by
  rw [get?, get?, find?_rename, Option.map_map, Option.map_map]
  rfl

theorem insert_rename (entries : List DictEntry) (k : Key) (key value : Value) :
    insert (entries.map (DictEntry.rename f)) (k.rename f) (key.rename f) (value.rename f) =
      ((insert entries k key value).1.map (DictEntry.rename f),
        (insert entries k key value).2.map (Value.rename f)) := by
  induction entries with
  | nil => rfl
  | cons e rest ih =>
    have hhash : (e.rename f).hash = k.rename f ↔ e.hash = k := (Key.rename_injective f).eq_iff
    by_cases hk : e.hash = k
    · simp only [List.map_cons, insert, if_pos (hhash.2 hk), if_pos hk]
      rfl
    · simp only [List.map_cons, insert, if_neg (mt hhash.1 hk), if_neg hk, ih]

theorem remove?_rename (entries : List DictEntry) (k : Key) :
    remove? (entries.map (DictEntry.rename f)) (k.rename f) =
      (remove? entries k).map fun p => (p.1.rename f, p.2.map (DictEntry.rename f)) := by
  have herase : (entries.map (DictEntry.rename f)).eraseP (·.hash = k.rename f) =
      (entries.eraseP (·.hash = k)).map (DictEntry.rename f) := by
    rw [List.eraseP_map]
    congr 2
    funext e
    exact hash_rename f e k
  rw [remove?, remove?, find?_rename, herase, Option.map_map, Option.map_map]
  rfl

end Dict

section

variable {known : Handle → Prop} {b : Body} {entries rest : List DictEntry} {k : Key}
  {key value v : Value} {e : DictEntry} {vs : List Value}

def Value.Among (known : Handle → Prop) (v : Value) : Prop :=
  ∀ r, v = .ref r → known r

structure DictEntry.Among (known : Handle → Prop) (e : DictEntry) : Prop where
  hash : ∀ r, e.hash.Names r → known r
  key : e.key.Among known
  value : e.value.Among known

def Body.Among (known : Handle → Prop) (b : Body) : Prop :=
  ∀ r, b.Mentions r → known r

theorem Value.among_set (hvs : ∀ w ∈ vs, w.Among known) (hv : v.Among known) (i : Nat) :
    ∀ w ∈ vs.set i v, w.Among known := by
  intro w hw
  rcases List.mem_or_eq_of_mem_set hw with hw | rfl
  · exact hvs w hw
  · exact hv

theorem Body.Among.children (hb : b.Among known) : ∀ v ∈ b.children, v.Among known := by
  rintro v hv r rfl
  exact hb r (.inl hv)

/-- Objects other than dicts mention what they hold. -/
theorem Body.among_of_children (hb : b.dict? = none) (h : ∀ v ∈ b.children, v.Among known) :
    b.Among known := by
  rintro r (hr | ⟨entries, rfl, -⟩)
  · exact h _ hr r rfl
  · cases hb

theorem Body.among_dict : (dict entries).Among known ↔ ∀ e ∈ entries, e.Among known := by
  constructor
  · intro h e he
    have hchild (v : Value) (hv : v ∈ [e.key, e.value]) : v.Among known :=
      fun r hr => h r (.inl (List.mem_flatMap.2 ⟨e, he, hr ▸ hv⟩))
    exact ⟨fun r hr => h r (.inr ⟨entries, rfl, e, he, hr⟩), hchild e.key (by simp),
      hchild e.value (by simp)⟩
  · rintro h r (hr | ⟨_, heq, e, he, hr⟩)
    · obtain ⟨e, he, hmem⟩ := List.mem_flatMap.1 hr
      rcases List.mem_pair.1 hmem with hr | hr
      · exact (h e he).key r hr.symm
      · exact (h e he).value r hr.symm
    · cases heq
      exact (h e he).hash r hr

theorem Body.Among.insert (hb : (dict entries).Among known) (hk : ∀ r, k.Names r → known r)
    (hkey : key.Among known) (hvalue : value.Among known) :
    (dict (Dict.insert entries k key value).1).Among known := by
  rw [among_dict] at hb ⊢
  induction entries with
  | nil => exact List.forall_mem_singleton.2 ⟨hk, hkey, hvalue⟩
  | cons e rest ih =>
    obtain ⟨he, hrest⟩ := List.forall_mem_cons.1 hb
    by_cases hsame : e.hash = k
    · rw [Dict.insert, if_pos hsame]
      exact List.forall_mem_cons.2 ⟨⟨he.hash, he.key, hvalue⟩, hrest⟩
    · rw [Dict.insert, if_neg hsame]
      exact List.forall_mem_cons.2 ⟨he, ih hrest⟩

theorem Body.Among.leftOver (hb : (dict entries).Among known) (hkey : key.Among known) :
    ∀ w ∈ (Dict.insert entries k key value).2, w.Among known := by
  rw [among_dict] at hb
  induction entries with
  | nil => exact List.forall_mem_nil _
  | cons e rest ih =>
    obtain ⟨he, hrest⟩ := List.forall_mem_cons.1 hb
    by_cases hsame : e.hash = k
    · rw [Dict.insert, if_pos hsame]
      exact List.forall_mem_cons.2 ⟨hkey, List.forall_mem_singleton.2 he.value⟩
    · rw [Dict.insert, if_neg hsame]
      exact ih hrest

theorem Body.Among.remove? (hb : (dict entries).Among known)
    (he : Dict.remove? entries k = some (e, rest)) :
    (dict rest).Among known ∧ ∀ w ∈ [e.key, e.value], w.Among known := by
  rw [among_dict] at hb ⊢
  obtain ⟨d, hd, hpair⟩ := Option.map_eq_some_iff.1 he
  obtain ⟨rfl, rfl⟩ := Prod.mk.inj hpair
  have hremoved := hb d (List.mem_of_find?_eq_some hd)
  exact ⟨fun x hx => hb x (List.mem_of_mem_eraseP hx),
    List.forall_mem_cons.2 ⟨hremoved.key, List.forall_mem_singleton.2 hremoved.value⟩⟩

end

end ItemAccess
