import ItemAccess.Proofs.FailedAccess
import ItemAccess.Proofs.Tandem.Build

/-!
# Requests in tandem

A request is answered with a reply, which is all that the host gets to see of it. Of mirrored machines,
corresponding requests get corresponding replies, as long as the host's own slots are not called.
-/

namespace ItemAccess

open Attempt Machine

variable {υ : SlotKind → Type}

inductive Reply (υ : SlotKind → Type) where
  | nothing
  | value (v : Value)
  | field (v : Option Value)
  | flag (b : Bool)
  | typeId (id : TypeId)
  | typeObject (t : TypeObject υ)
  | text (shown : String)
  | bytes (data : Option (List UInt8))
  | exception (e : Option Exception)

namespace Reply

def values : Reply υ → List Value
  | value v => [v]
  | field v => v.toList
  | _ => []

def rename (f : Handle → Handle) : Reply υ → Reply υ
  | value v => value (v.rename f)
  | field v => field (v.map (Value.rename f))
  | a => a

theorem rename_id (a : Reply υ) : a.rename id = a := by
  cases a <;> simp [rename, funext Value.rename_id]

end Reply

namespace Request

def respond (H : Host υ) : Request υ → Action υ Failure (Reply υ)
  | newList items => .value <$> Machine.newList items
  | newTuple items => .value <$> Machine.newTuple items
  | newDict pairs => .value <$> Machine.newDict pairs
  | newInstance type fields => .value <$> Machine.newInstance type fields
  | newBytes data => .value <$> Machine.newBytes data
  | newInt n => .value <$> Machine.newInt n
  | clone v => .value <$> retain v
  | drop v => (fun _ => .nothing) <$> (release v : Action υ Failure Unit)
  | get source key => .value <$> getItem H source key
  | getConst source key i => .value <$> getItemConst H source key i
  | set v target key => (fun _ => .nothing) <$> setItem H v target key
  | del target key => (fun _ => .nothing) <$> delItem H target key
  | field obj i => .field <$> Machine.field obj i
  | setField obj i v => .flag <$> Machine.setField obj i v
  | register spec => .typeId <$> Machine.register spec
  | typeObject id => .typeObject <$> Machine.typeObject id
  | typeOf v => .typeId <$> Machine.typeOf v
  | nameOfType v => .text <$> Machine.nameOfType v
  | text v => .text <$> textOf v
  | bytesOf v => .bytes <$> Machine.bytesOf v
  | raise e => (fun _ => .nothing) <$> (recordPending e : Action υ Failure Unit)
  | fetch => .exception <$> fetchPending
  | trace t => (fun _ => .nothing) <$> (setTracer t : Action υ Failure Unit)

/-- The values handed over are those of the reply. -/
theorem perform_eq_respond (H : Host υ) (q : Request υ) :
    q.perform H = Reply.values <$> q.respond H := by
  cases q <;> simp only [perform, respond, Functor.map_map, Reply.values, bind_pure_comp]

def rename (f : Handle → Handle) : Request υ → Request υ
  | newList items => newList (items.map (Value.rename f))
  | newTuple items => newTuple (items.map (Value.rename f))
  | newDict pairs => newDict (pairs.map (renamePair f))
  | newInstance type fields => newInstance type (fields.map (Value.rename f))
  | newBytes data => newBytes data
  | newInt n => newInt n
  | clone v => clone (v.rename f)
  | drop v => drop (v.rename f)
  | get source key => get (source.rename f) (key.rename f)
  | getConst source key i => getConst (source.rename f) (key.rename f) i
  | set v target key => set (v.rename f) (target.rename f) (key.rename f)
  | del target key => del (target.rename f) (key.rename f)
  | field obj i => field (obj.rename f) i
  | setField obj i v => setField (obj.rename f) i (v.rename f)
  | register spec => register spec
  | typeObject id => typeObject id
  | typeOf v => typeOf (v.rename f)
  | nameOfType v => nameOfType (v.rename f)
  | text v => text (v.rename f)
  | bytesOf v => bytesOf (v.rename f)
  | raise e => raise e
  | fetch => fetch
  | trace t => trace t

def operands (q : Request υ) : List Value :=
  q.consumed ++ q.borrowed

theorem rename_id (q : Request υ) : q.rename id = q := by
  have hvalue : Value.rename id = id := funext Value.rename_id
  have hpair : renamePair id = id := funext fun p => by simp [renamePair]
  cases q <;> simp only [rename, hvalue, hpair, List.map_id, id]

/-- Only the operands are renamed. -/
theorem rename_congr {q : Request υ} {f g : Handle → Handle}
    (h : ∀ v ∈ q.operands, v.rename f = v.rename g) : q.rename f = q.rename g := by
  have hmap {vs : List Value} (hvs : ∀ v ∈ vs, v ∈ q.operands) :
      vs.map (Value.rename f) = vs.map (Value.rename g) :=
    List.map_congr_left fun v hv => h v (hvs v hv)
  cases q with
  | newList items => exact congrArg newList (hmap fun v hv => by simp [operands, consumed, hv])
  | newTuple items => exact congrArg newTuple (hmap fun v hv => by simp [operands, consumed, hv])
  | newInstance type fields =>
    exact congrArg (newInstance type) (hmap fun v hv => by simp [operands, consumed, hv])
  | newDict pairs =>
    apply congrArg newDict
    apply List.map_congr_left
    intro p hp
    have hchild (v : Value) (hv : v ∈ [p.1, p.2]) : v.rename f = v.rename g :=
      h v (by simpa [operands, consumed, flattenPairs] using .inl ⟨p.1, p.2, hp, by simpa using hv⟩)
    rw [renamePair, renamePair, hchild p.1 (by simp), hchild p.2 (by simp)]
  | _ => simp_all [rename, operands, consumed, borrowed]

end Request

variable {T : Terms} {f : Equiv.Perm Handle} {known : Handle → Prop} {α : Type} {m₁ m₂ : Machine υ}
  {H₁ H₂ : Host υ} {q : Request υ}

/-- A value that is given is a reply. -/
theorem InStep.value {a₁ a₂ : Action υ Failure Value}
    (ha : InStep T f known FailedRefusal a₁ a₂ m₁ m₂ (Gives T f known Value.rename)) :
    InStep T f known FailedRefusal (Reply.value <$> a₁ : Action υ Failure (Reply υ))
      (Reply.value <$> a₂) m₁ m₂ (Gives T f known Reply.rename) := by
  rw [← bind_pure_comp, ← bind_pure_comp]
  apply ha.bind
  rintro v n₁ _ n₂ ⟨f', known', hagree, rfl, hn⟩
  exact .done ⟨f', known', hagree, rfl, hn⟩

/-- So is any result that does not depend on the names of new objects. -/
theorem InStep.reply {a₁ a₂ : Action υ Failure α} {rep : α → Reply υ} {rel : α → α → Prop}
    (ha : InStep T f known FailedRefusal a₁ a₂ m₁ m₂
      fun x n₁ y n₂ => rel x y ∧ n₁.Mirrors T f known n₂)
    (h : ∀ x y, rel x y → rep y = (rep x).rename f) :
    InStep T f known FailedRefusal (rep <$> a₁) (rep <$> a₂) m₁ m₂ (Gives T f known Reply.rename) := by
  rw [← bind_pure_comp, ← bind_pure_comp]
  apply ha.bind
  rintro x n₁ y n₂ ⟨hxy, hn⟩
  exact .done ⟨f, known, fun r hr => ⟨rfl, hr⟩, h x y hxy, hn⟩

namespace Machine

theorem register_tandem (hnative : ¬ T.native) (spec : TypeSpec υ) :
    Tandem T f known FailedRefusal (register spec : Action υ Failure TypeId) (register spec) Eq := by
  intro m₁ m₂ hm
  simp only [InStep, register, run_bind, run_get, run_set, run_pure, hm.registry]
  exact .done ⟨rfl, { hm with
    registry := rfl
    types := hm.types.register spec
    native := fun h => absurd h hnative }⟩

theorem fetchPending_tandem :
    Tandem T f known FailedRefusal (fetchPending : Action υ Failure (Option Exception)) fetchPending
      Eq := by
  intro m₁ m₂ hm
  simp only [InStep, fetchPending, run_bind, run_get, run_set, run_pure, hm.pending]
  exact .done ⟨rfl, hm.withPending _⟩

end Machine

namespace Request

/-- Corresponding requests to mirrored machines. In the first machine tuples are grounded and operands are
in use, unless the slots are the same on both sides; the host is not called; types are registered only
where there may be other types than the built-in ones. -/
theorem respond_inStep (hm : m₁.Mirrors T f known m₂) (hg : ¬ T.aligned → m₁.heap.Grounded)
    (hlive : ¬ T.aligned → ∀ v ∈ q.operands, v.Among (m₁.heap.isLive · = true))
    (hknown : ∀ v ∈ q.operands, v.Among known) (hregister : T.native → ∀ spec, q ≠ .register spec)
    (hfree : ∀ target key jobs, q.Access target key jobs →
      m₁.HostFree target jobs ∧ m₁.HostFree key [.asIndex]) :
    InStep T f known FailedRefusal (q.respond H₁) ((q.rename f).respond H₂) m₁ m₂
      (Gives T f known Reply.rename) := by
  have hsame {x y : Reply υ} (hxy : x = y) (hx : x.rename f = x) : y = x.rename f :=
    hxy.symm.trans hx.symm
  have hconsumed (v : Value) (hv : v ∈ q.consumed) : v.Among known :=
    hknown v (List.mem_append_left _ hv)
  have hborrowed (v : Value) (hv : v ∈ q.borrowed) : v.Among known :=
    hknown v (List.mem_append_right _ hv)
  have hready {target key : Value} {jobs : List SlotKind} (hq : q.Access target key jobs)
      (hkey : key ∈ q.borrowed) : Ready T f known m₁ m₂ key :=
    ⟨hm, hg, (hfree target key jobs hq).2, hborrowed key hkey⟩
  cases q with
  | newList items => exact .value (newList_yields hconsumed m₁ m₂ hm)
  | newTuple items => exact .value (newTuple_yields hconsumed m₁ m₂ hm)
  | newDict pairs => exact .value (newDict_inStep hm hg hconsumed)
  | newInstance type fields => exact .value (newInstance_yields type hconsumed m₁ m₂ hm)
  | newBytes data => exact .value (newBytes_yields data m₁ m₂ hm)
  | newInt n => exact .value (newInt_yields n m₁ m₂ hm)
  | clone v => exact .value ((retain_renamed (hborrowed v (.head _))).yields m₁ m₂ hm)
  | drop v => exact .reply (release_tandem (hconsumed v (.head _)) m₁ m₂ hm) fun _ _ _ => rfl
  | get source key =>
    have hr := hready .get (by simp [borrowed])
    have hsource := hborrowed source (.head _)
    exact .value (enter_inStep hm hlive
      (finish_inStep .get (lookup_inStep hr hsource (hfree _ _ _ .get).1 .get)))
  | getConst source key i =>
    have hr := hready (.getConst i) (by simp [borrowed])
    have hsource := hborrowed source (.head _)
    exact .value (enter_inStep hm hlive
      (finish_inStep .getConst (lookupConst_inStep hr hsource (hfree _ _ _ (.getConst i)).1 i)))
  | set v target key =>
    have hr := hready (.set v) (by simp [borrowed])
    have htarget := hborrowed target (by simp [borrowed])
    have hv := hborrowed v (.head _)
    exact .reply (enter_inStep hm hlive
      (finish_inStep .set (assign_inStep hr htarget (hfree _ _ _ (.set v)).1 hv))) fun _ _ _ => rfl
  | del target key =>
    have hr := hready .del (by simp [borrowed])
    have htarget := hborrowed target (.head _)
    exact .reply (enter_inStep hm hlive
      (finish_inStep .del (delete_inStep hr htarget (hfree _ _ _ .del).1))) fun _ _ _ => rfl
  | field obj i =>
    exact .reply (field_tandem (hborrowed obj (.head _)) i m₁ m₂ hm) fun x y hxy =>
      congrArg Reply.field hxy
  | setField obj i v =>
    have hv := hborrowed v (by simp [borrowed])
    exact .reply (setField_tandem (hborrowed obj (.head _)) i hv m₁ m₂ hm) fun x y hxy =>
      hsame (congrArg _ hxy) rfl
  | register spec =>
    have hnative : ¬ T.native := fun h => hregister h spec rfl
    exact .reply (register_tandem hnative spec m₁ m₂ hm) fun x y hxy => hsame (congrArg _ hxy) rfl
  | typeObject id =>
    exact .reply (typeObject_tandem id m₁ m₂ hm) fun x y hxy => hsame (congrArg _ hxy) rfl
  | typeOf v =>
    exact .reply (typeOf_tandem (hborrowed v (.head _)) m₁ m₂ hm) fun x y hxy =>
      hsame (congrArg _ hxy) rfl
  | nameOfType v =>
    exact .reply (nameOfType_tandem (hborrowed v (.head _)) m₁ m₂ hm) fun x y hxy =>
      hsame (congrArg _ hxy) rfl
  | text v =>
    exact .reply (textOf_tandem (hborrowed v (.head _)) m₁ m₂ hm) fun x y hxy =>
      hsame (congrArg _ hxy) rfl
  | bytesOf v =>
    exact .reply (bytesOf_tandem (hborrowed v (.head _)) m₁ m₂ hm) fun x y hxy =>
      hsame (congrArg _ hxy) rfl
  | raise e => exact .done (.of_mirrors (hm.withPending ⟨some e⟩))
  | fetch => exact .reply (fetchPending_tandem m₁ m₂ hm) fun x y hxy => hsame (congrArg _ hxy) rfl
  | trace t => exact .done (.of_mirrors (hm.withTracer fun _ => rfl))

end Request

end ItemAccess
