import ItemAccess.Proofs.FaultFreedom
import ItemAccess.Proofs.OrderedDict
import ItemAccess.Proofs.PendingErrors
import ItemAccess.Proofs.Store.Reach
import ItemAccess.Proofs.Tandem.Requests
import Mathlib.SetTheory.Cardinal.Arithmetic

/-!
# Layout does not show

Two machines correspond if a bijection between their live slots carries the one to the other: the same
objects with the same counts and charges, wherever they are kept and whatever slots are free. A request
that is made to both, with corresponding operands, ends alike on both sides: with the same failure, or
with replies that correspond. The machines correspond afterwards, and the bijection is as before on what
was live.
-/

namespace ItemAccess

open Attempt Machine

variable {υ : SlotKind → Type} {m m₁ m₂ n₁ n₂ : Machine υ} {f : Handle → Handle} {q : Request υ}
  {H : Host υ} {owned : Multiset Handle}

/-- The bijection `f` between live slots carries the first machine to the second. -/
structure Machine.Corresponds (f : Handle → Handle) (m₁ m₂ : Machine υ) : Prop where
  settings : m₂.settings = m₁.settings
  registry : m₂.registry = m₁.registry
  pending : m₂.pending = m₁.pending
  meter : m₂.heap.meter = m₁.heap.meter
  bijective : Set.BijOn f {r | m₁.heap.isLive r = true} {r | m₂.heap.isLive r = true}
  entries : ∀ r e, m₁.heap.lookup? r = some e →
    m₂.heap.lookup? (f r) = some { e with body := e.body.rename f }
  byteStrings : ∀ b, m₂.heap.byteStrings.lookup b = (m₁.heap.byteStrings.lookup b).map f

/-- The same failure or fault, or replies that correspond, in machines that are related. -/
inductive Outcome.Renamed (f : Handle → Handle) (R : Machine υ → Machine υ → Prop) :
    Outcome (Machine υ) Failure (Reply υ) → Outcome (Machine υ) Failure (Reply υ) → Prop
  | done {n₁ n₂ : Machine υ} (a : Reply υ) (h : R n₁ n₂) :
    Renamed f R (.done a n₁) (.done (a.rename f) n₂)
  | failed {n₁ n₂ : Machine υ} (e : Failure) (h : R n₁ n₂) : Renamed f R (.failed e n₁) (.failed e n₂)
  | fault (k : Fault) : Renamed f R (.fault k) (.fault k)

/-- A bijection between finitely many slots is part of one of all slots. -/
theorem exists_perm_of_injOn {s : Set Handle} (hs : s.Finite) (hf : Set.InjOn f s) :
    ∃ g : Equiv.Perm Handle, ∀ r ∈ s, g r = f r := by
  have hinfinite : Infinite Handle := .of_injective Handle.mk fun i j hij => congrArg Handle.index hij
  have hcard : Cardinal.mk s < Cardinal.mk Handle :=
    (Cardinal.lt_aleph0_iff_set_finite.2 hs).trans_le (Cardinal.aleph0_le_mk Handle)
  have hinjective : Function.Injective fun r : s => f r := fun r r' h => Subtype.ext (hf r.2 r'.2 h)
  obtain ⟨g, hg⟩ := Cardinal.extend_function_of_lt ⟨_, hinjective⟩ hcard ⟨Equiv.refl Handle⟩
  exact ⟨g, fun r hr => hg ⟨r, hr⟩⟩

/-- What a live object of a sound store mentions is live. -/
theorem Heap.Sound.isLive_of_mentions {h : Heap} {g : Registry υ} (hs : h.Sound g owned)
    (hk : h.Keyed) {r s : Handle} {e : Entry} (he : h.lookup? r = some e) (hmentions : e.body.Mentions s) :
    h.isLive s = true := by
  obtain ⟨lost, ha⟩ := hs.accounted
  rcases hmentions with hmem | ⟨entries, hbody, d, hd, hnames⟩
  · exact Heap.isLive_iff.2 (ha.exists_of_stored he hmem)
  · have hdict : h.body r = .ok (.dict entries) := by rw [Heap.body_of_lookup? he, hbody]
    obtain ⟨t, type, fields, -, -, hinst⟩ :=
      Heap.hashWithin_names ((hk r entries hdict).current d hd) hnames
    obtain ⟨e', he', -⟩ := Heap.body_eq_ok.1 hinst
    exact Heap.isLive_iff.2 ⟨e', he'⟩

def Machine.layoutTerms (m₁ m₂ : Machine υ) : Terms where
  strict := m₁.heap.meter.limits
  loose := m₁.heap.meter.limits
  within := .refl _
  aligned := False
  traced := m₂.tracer = m₁.tracer
  native := False

theorem Machine.Corresponds.lookup? (hc : m₁.Corresponds f m₂) {T : Terms} {g : Equiv.Perm Handle}
    (hg : ∀ r, m₁.heap.isLive r = true → g r = f r)
    (hclosed : ∀ r e, m₁.heap.lookup? r = some e → ∀ s, e.body.Mentions s → m₁.heap.isLive s = true)
    (r : Handle) : Entry.Match T g (m₁.heap.lookup? r) (m₂.heap.lookup? (g r)) := by
  cases he : m₁.heap.lookup? r with
  | some e =>
    rw [hg r (Heap.isLive_iff.2 ⟨e, he⟩), hc.entries r e he]
    exact .used ⟨rfl, Body.rename_congr fun s hs => (hg s (hclosed r e he s hs)).symm, fun _ => rfl⟩
  | none =>
    -- a live slot of the second store is the image of a live one, and of no other
    have hempty : m₂.heap.lookup? (g r) = none := by
      by_contra hne
      have hlive : m₂.heap.isLive (g r) = true := Option.isSome_iff_ne_none.2 hne
      obtain ⟨s, hs, hfs⟩ := hc.bijective.surjOn hlive
      obtain rfl : s = r := g.injective ((hg s hs).trans hfs)
      obtain ⟨e, he'⟩ := Heap.isLive_iff.1 hs
      rw [he] at he'
      cases he'
    rw [hempty]
    exact .empty

theorem Machine.Corresponds.mirrors (hc : m₁.Corresponds f m₂)
    (hs : m₁.heap.Sound m₁.registry owned) (hk : m₁.heap.Keyed) (hfree : m₂.heap.FreeListed)
    {g : Equiv.Perm Handle} (hg : ∀ r, m₁.heap.isLive r = true → g r = f r) :
    m₁.Mirrors (m₁.layoutTerms m₂) g (m₁.heap.isLive · = true) m₂ := by
  obtain ⟨lost, ha⟩ := hs.accounted
  have hclosed (r : Handle) (e : Entry) (he : m₁.heap.lookup? r = some e) (s : Handle)
      (hmentions : e.body.Mentions s) : m₁.heap.isLive s = true :=
    hs.isLive_of_mentions hk he hmentions
  have hkept (b : UInt8) (r : Handle) (hr : m₁.heap.byteStrings.lookup b = some r) :
      m₁.heap.isLive r = true := by
    obtain ⟨l₁, l₂, heq, -⟩ := List.lookup_eq_some_iff.1 hr
    exact Heap.isLive_iff.2 (ha.exists_of_kept (b := b) (by simp [heq]))
  have hbytes (b : UInt8) :
      m₂.heap.byteStrings.lookup b = (m₁.heap.byteStrings.lookup b).map g := by
    rw [hc.byteStrings]
    exact Option.map_congr fun r hr => (hg r (hkept b r hr)).symm
  have hheap : m₁.heap.Mirrors (m₁.layoutTerms m₂) g (m₁.heap.isLive · = true) m₂.heap :=
    { slots := hc.lookup? hg hclosed
      closed := fun r e he => ⟨Heap.isLive_iff.2 ⟨e, he⟩, hclosed r e he⟩
      byteStrings := hbytes
      kept := hkept
      meter := ⟨rfl, congrArg Meter.limits hc.meter, congrArg Meter.allocations hc.meter,
        fun _ => congrArg Meter.memory hc.meter⟩
      listed₁ := ha.free
      listed₂ := hfree
      free := ⟨[], m₁.heap.free, m₂.heap.free, rfl, rfl, False.elim, fun _ _ hr => .inl hr⟩
      aligned := False.elim }
  exact
    { heap := hheap
      registry := hc.registry
      pending := hc.pending
      tracer := id
      textModel := congrArg Settings.textModel hc.settings
      trace := congrArg Settings.trace hc.settings
      limits := fun _ => congrArg Settings.limits hc.settings
      types := hs.built
      native := False.elim }

theorem Machine.Mirrors.corresponds {T : Terms} {g : Equiv.Perm Handle} {known : Handle → Prop}
    (hm : m₁.Mirrors T g known m₂) (hT : T.strict = T.loose) : m₁.Corresponds g m₂ := by
  have hcharged : T.Charged := by rw [Terms.Charged, hT]
  have hmeter := hm.heap.meter
  refine ⟨?_, hm.registry, hm.pending, ?_, ?_, ?_, hm.heap.byteStrings⟩
  · calc m₂.settings
      _ = ⟨m₂.settings.textModel, m₂.settings.limits, m₂.settings.trace⟩ := rfl
      _ = ⟨m₁.settings.textModel, m₁.settings.limits, m₁.settings.trace⟩ := by
        rw [hm.textModel, hm.limits hT, hm.trace]
  · calc m₂.heap.meter
      _ = ⟨m₂.heap.meter.limits, m₂.heap.meter.allocations, m₂.heap.meter.memory⟩ := rfl
      _ = ⟨m₁.heap.meter.limits, m₁.heap.meter.allocations, m₁.heap.meter.memory⟩ := by
        rw [hmeter.loose, ← hT, ← hmeter.strict, hmeter.allocations, hmeter.memory hcharged]
  · apply g.bijOn
    intro r
    rw [Set.mem_ofPred_eq, Set.mem_ofPred_eq, hm.heap.isLive]
  · intro r e he
    obtain ⟨e', he', hmirror⟩ := hm.heap.live he
    rw [he']
    exact congrArg some (by rw [← hmirror.count, ← hmirror.body, ← hmirror.charge hcharged])

theorem Request.respond_renamed (H₁ H₂ : Host υ) (hs : m₁.heap.Sound m₁.registry owned) (hk : m₁.heap.Keyed)
    (hfree₂ : m₂.heap.FreeListed) (hc : m₁.Corresponds f m₂)
    (hlive : ∀ v ∈ q.operands, v.Among (m₁.heap.isLive · = true))
    (hfree : ∀ target key jobs, q.Access target key jobs →
      m₁.HostFree target jobs ∧ m₁.HostFree key [.asIndex]) :
    ∃ f' : Handle → Handle, (∀ r, m₁.heap.isLive r = true → f' r = f r) ∧
      Outcome.Renamed f' (fun n₁ n₂ => n₁.Corresponds f' n₂ ∧
          (m₂.tracer = m₁.tracer → n₂.tracer = n₁.tracer))
        ((q.respond H₁).run m₁) (((q.rename f).respond H₂).run m₂) := by
  obtain ⟨g, hg⟩ := exists_perm_of_injOn m₁.heap.finite_live hc.bijective.injOn
  have hm := hc.mirrors hs hk hfree₂ hg
  have hrename : q.rename f = q.rename g :=
    rename_congr fun v hv => Value.rename_congr fun r hr => (hg r (hlive v hv r hr)).symm
  have hstep : InStep (m₁.layoutTerms m₂) g (m₁.heap.isLive · = true) FailedRefusal (q.respond H₁)
      ((q.rename g).respond H₂) m₁ m₂
      (Gives (m₁.layoutTerms m₂) g (m₁.heap.isLive · = true) Reply.rename) :=
    respond_inStep hm (fun _ => hs.grounded) (fun _ => hlive) hlive False.elim hfree
  rw [hrename]
  unfold InStep at hstep
  generalize (q.respond H₁).run m₁ = o₁ at hstep
  generalize ((q.rename g).respond H₂).run m₂ = o₂ at hstep
  cases hstep with
  | done hgives =>
    obtain ⟨f', known', hagree, rfl, hn⟩ := hgives
    exact ⟨f', fun r hr => (hagree r hr).1.trans (hg r hr), .done _ ⟨hn.corresponds rfl, hn.tracer⟩⟩
  | failed e hn => exact ⟨g, hg, .failed e ⟨hn.corresponds rfl, hn.tracer⟩⟩
  | fault k => exact ⟨g, hg, .fault k⟩
  | refused hne => exact absurd rfl hne

theorem Machine.Corresponds.refl (m : Machine υ) : m.Corresponds id m where
  settings := rfl
  registry := rfl
  pending := rfl
  meter := rfl
  bijective := Set.bijOn_id _
  entries := fun r e he => he.trans (by rw [Body.rename_id])
  byteStrings := fun b => by rw [Option.map_id, id]

theorem Host.raising_careful (e : Exception) :
    (raising e : Host υ).Keeps (.careful (fun _ => True) trivial) where
  get hc := hc.after.of_eq rfl rfl
  set hc := hc.after.of_eq rfl rfl
  del hc := hc.after.of_eq rfl rfl
  getAt hc := hc.after.of_eq rfl rfl
  setAt hc := hc.after.of_eq rfl rfl
  length _ _ := ⟨0, rfl⟩
  asIndex hc := hc.after.of_eq rfl rfl

/-- A careful request meets no fault, whatever the host is like that is not asked: with a host whose slots
are careful themselves it would meet the same fault. -/
theorem Request.respond_ne_fault (hs : m.heap.Sound m.registry owned) (hk : m.heap.Keyed)
    (hlive : ∀ v ∈ q.operands, v.Among (m.heap.isLive · = true))
    (hfree : ∀ target key jobs, q.Access target key jobs →
      m.HostFree target jobs ∧ m.HostFree key [.asIndex])
    (hq : Client.Careful ⟨m, owned⟩ q) (k : Fault) : (q.respond H).run m ≠ .fault k := by
  intro hfault
  obtain ⟨lost, ha⟩ := hs.accounted
  let H' : Host υ := .raising Pending.forgotten
  have hother : (q.respond H').run m = .fault k := by
    obtain ⟨f', -, hrenamed⟩ := respond_renamed H H' hs hk ha.free (Corresponds.refl m) hlive hfree
    rw [rename_id, hfault] at hrenamed
    generalize (q.respond H').run m = o at hrenamed
    cases hrenamed
    rfl
  have hc : Client.Sound ⟨m, owned⟩ := hs
  obtain ⟨c', hserve⟩ := (hc.serve (Host.raising_careful Pending.forgotten) hq).2
  rw [Client.serve, perform_eq_respond, run_map, hother] at hserve
  cases hserve

/-- Layout does not show. The hosts play no part, since they are not asked. -/
theorem Request.respond_independent_of_layout (H₁ H₂ : Host υ) (hm₁ : m₁.WellFormed) (hkeyed : m₁.heap.Keyed)
    (hm₂ : m₂.WellFormed) (hc : m₁.Corresponds f m₂)
    (hlive : ∀ v ∈ q.operands, v.Among (m₁.heap.isLive · = true))
    (hfree : ∀ target key jobs, q.Access target key jobs →
      m₁.HostFree target jobs ∧ m₁.HostFree key [.asIndex]) :
    (∃ f' : Handle → Handle, (∀ r, m₁.heap.isLive r = true → f' r = f r) ∧
      Outcome.Renamed f' (fun n₁ n₂ => n₁.Corresponds f' n₂ ∧
          (m₂.tracer = m₁.tracer → n₂.tracer = n₁.tracer))
        ((q.respond H₁).run m₁) (((q.rename f).respond H₂).run m₂)) ∧
    ∀ owned, m₁.heap.Sound m₁.registry owned → Client.Careful ⟨m₁, owned⟩ q →
      ∀ k, (q.respond H₁).run m₁ ≠ .fault k := by
  obtain ⟨owned₁, hs₁⟩ := hm₁
  obtain ⟨owned₂, hs₂⟩ := hm₂
  obtain ⟨lost, ha₂⟩ := hs₂.accounted
  refine ⟨respond_renamed H₁ H₂ hs₁ hkeyed ha₂.free hc hlive hfree, ?_⟩
  intro owned hs hq
  exact respond_ne_fault hs hkeyed hlive hfree hq

theorem Client.types_of_follow {s : Settings} {c c' : Client υ} {calm : Pending → Prop}
    {hquiet : calm {}} (hH : H.Keeps (.careful calm hquiet)) (hc : Reached H Careful s c)
    {qs : List (Request υ)} (hf : follow H Careful c qs = some c') :
    c.machine.registry.types <+: c'.machine.registry.types := by
  induction qs generalizing c with
  | nil =>
    cases hf
    exact List.prefix_rfl
  | cons q qs ih =>
    unfold follow at hf
    split at hf
    case isTrue hq =>
      obtain ⟨c₁, hserve⟩ := careful_never_faults hH hc hq
      rw [hserve] at hf
      obtain ⟨more, hafter⟩ := serve_after (D := .careful calm hquiet) hH (hc.sound hH) hq.owns
        (fun _ _ _ _ _ => trivial) (fun _ => hq.timely) hserve
      exact (hafter.steady trivial).types.trans (ih (hc.step hq hserve) hf)
    case isFalse => cases hf

/-- What a bijection between live slots has to satisfy, slot by slot. -/
structure Heap.Relocates (f : Handle → Handle) (h₁ h₂ : Heap) : Prop where
  meter : h₂.meter = h₁.meter
  entries : ∀ i ∈ List.range h₁.slots.size, ∀ e ∈ h₁.lookup? ⟨i⟩,
    h₂.lookup? (f ⟨i⟩) = some { e with body := e.body.rename f }
  injective : ∀ i ∈ List.range h₁.slots.size, ∀ j ∈ List.range h₁.slots.size,
    h₁.isLive ⟨i⟩ = true → h₁.isLive ⟨j⟩ = true → f ⟨i⟩ = f ⟨j⟩ → i = j
  surjective : ∀ i ∈ List.range h₂.slots.size, h₂.isLive ⟨i⟩ = true →
    ∃ j ∈ List.range h₁.slots.size, h₁.isLive ⟨j⟩ = true ∧ f ⟨j⟩ = ⟨i⟩
  byteStrings : h₂.byteStrings = h₁.byteStrings.map fun p => (p.1, f p.2)

instance (f : Handle → Handle) (h₁ h₂ : Heap) : Decidable (h₁.Relocates f h₂) :=
  decidable_of_iff (_ ∧ _ ∧ _ ∧ _ ∧ _)
    ⟨fun h => ⟨h.1, h.2.1, h.2.2.1, h.2.2.2.1, h.2.2.2.2⟩,
      fun h => ⟨h.meter, h.entries, h.injective, h.surjective, h.byteStrings⟩⟩

theorem Machine.Corresponds.of_relocates (hh : m₁.heap.Relocates f m₂.heap)
    (hsettings : m₂.settings = m₁.settings) (hregistry : m₂.registry = m₁.registry)
    (hpending : m₂.pending = m₁.pending) : m₁.Corresponds f m₂ := by
  have hrange {h : Heap} {r : Handle} (hr : h.isLive r = true) : r.index ∈ List.range h.slots.size :=
    List.mem_range.2 (Heap.lt_size_of_isLive hr)
  have hentry (r : Handle) (e : Entry) (he : m₁.heap.lookup? r = some e) :
      m₂.heap.lookup? (f r) = some { e with body := e.body.rename f } :=
    hh.entries r.index (hrange (Heap.isLive_iff.2 ⟨e, he⟩)) e he
  refine ⟨hsettings, hregistry, hpending, hh.meter, ⟨?_, ?_, ?_⟩, hentry, ?_⟩
  · intro r hr
    obtain ⟨e, he⟩ := Heap.isLive_iff.1 hr
    exact Heap.isLive_iff.2 ⟨_, hentry r e he⟩
  · intro r hr s hs heq
    exact congrArg Handle.mk (hh.injective r.index (hrange hr) s.index (hrange hs) hr hs heq)
  · intro r hr
    obtain ⟨j, -, hj, heq⟩ := hh.surjective r.index (hrange hr) hr
    exact ⟨⟨j⟩, hj, heq⟩
  · intro b
    rw [hh.byteStrings]
    induction m₁.heap.byteStrings with
    | nil => rfl
    | cons p rest ih =>
      rw [List.map_cons, List.lookup_cons, List.lookup_cons]
      split
      · rfl
      · exact ih

namespace Client

def pointRun : List (Request DelegateSlot) :=
  [.register { name := "Point" }, .newInt (2 ^ 70), .newBytes [0x61, 0x62]]

def spreadRun : List (Request DelegateSlot) :=
  [.newInstance ⟨8⟩ [], .newDict [(.ref ⟨2⟩, .int 5)], .drop (.ref ⟨0⟩)]

def packedRun : List (Request DelegateSlot) :=
  [.drop (.ref ⟨0⟩), .newInstance ⟨8⟩ [], .newDict [(.ref ⟨0⟩, .int 5)]]

/-- From the slots after `spreadRun` to those after `packedRun`. -/
def pack (r : Handle) : Handle :=
  if r = ⟨2⟩ then ⟨0⟩ else if r = ⟨3⟩ then ⟨2⟩ else r

def lastByte : Request DelegateSlot := .get (.ref ⟨1⟩) (.int (-1))

end Client

/-- The last byte of the string is made a string, which goes into the slot of the integer on one side and
into a new one on the other. -/
theorem Request.respond_independent_of_layout_packed :
    ∃ m₁ m₂ : Machine DelegateSlot, m₁.WellFormed ∧ m₁.heap.Keyed ∧ m₂.WellFormed ∧
      m₁.Corresponds Client.pack m₂ ∧ m₁.heap.free ≠ m₂.heap.free ∧
      (∃ f' : Handle → Handle, (∀ r, m₁.heap.isLive r = true → f' r = Client.pack r) ∧
        Outcome.Renamed f' (fun n₁ n₂ => n₁.Corresponds f' n₂ ∧
            (m₂.tracer = m₁.tracer → n₂.tracer = n₁.tracer))
          ((Client.lastByte.respond (DelegateSlot.host 2)).run m₁)
          (((Client.lastByte.rename Client.pack).respond (DelegateSlot.host 2)).run m₂)) ∧
      ∀ k, (Client.lastByte.respond (DelegateSlot.host 2)).run m₁ ≠ .fault k := by
  let H := DelegateSlot.host 2
  have hrun : ((Client.follow H Client.Careful (.start { limits := ⟨none, some 1000⟩ })
      Client.pointRun).any fun c =>
      (Client.follow H Client.Careful c Client.spreadRun).any fun c₁ =>
      (Client.follow H Client.Careful c Client.packedRun).any fun c₂ =>
        c.machine.registry.types.length = c₁.machine.registry.types.length ∧
        c.machine.registry.types.length = c₂.machine.registry.types.length ∧
        c₂.machine.registry.names = c₁.machine.registry.names ∧
        c₂.machine.settings = c₁.machine.settings ∧ c₂.machine.pending = c₁.machine.pending ∧
        c₁.machine.heap.Relocates Client.pack c₂.machine.heap ∧
        c₁.machine.heap.free ≠ c₂.machine.heap.free ∧ c₁.Careful Client.lastByte ∧
        c₁.machine.heap.isLive ⟨1⟩ = true ∧
        c₁.machine.heap.typeOf (.ref ⟨1⟩) = .ok BuiltinKind.bytes.typeId) = true := by
    decide +kernel
  obtain ⟨c, hf, hrun⟩ := (Option.any_eq_true _ _).1 hrun
  obtain ⟨c₁, hf₁, hrun⟩ := (Option.any_eq_true _ _).1 hrun
  obtain ⟨c₂, hf₂, hfacts⟩ := (Option.any_eq_true _ _).1 hrun
  obtain ⟨hlength₁, hlength₂, hnames, hsettings, hpending, hheap, hfree, hq, hlive, htype⟩ :=
    of_decide_eq_true hfacts
  have hkeeps : H.Keeps (.sparing (·.isSet = false) rfl fun _ => False) :=
    DelegateSlot.host_keeps (fun _ h => h) 2
  have hcareful := DelegateSlot.host_careful 2
  have hc := Client.Reached.start.follow hf
  have hregistry : c₂.machine.registry = c₁.machine.registry := by
    have h₁ := (Client.types_of_follow hcareful hc hf₁).eq_of_length hlength₁
    have h₂ := (Client.types_of_follow hcareful hc hf₂).eq_of_length hlength₂
    exact Registry.ext (h₂.symm.trans h₁) hnames
  have hcorr : c₁.machine.Corresponds Client.pack c₂.machine :=
    .of_relocates hheap hsettings hregistry hpending
  obtain ⟨hs₁, hkeyed⟩ := (hc.follow hf₁).sparing hkeeps
  have hs₂ := (hc.follow hf₂).sound hcareful
  have hoperands : ∀ v ∈ Client.lastByte.operands, v.Among (c₁.machine.heap.isLive · = true) := by
    rintro v hv r rfl
    obtain rfl : r = ⟨1⟩ := by simpa [Client.lastByte, operands, consumed, borrowed] using hv
    exact hlive
  have hhost : ∀ target key jobs, Client.lastByte.Access target key jobs →
      c₁.machine.HostFree target jobs ∧ c₁.machine.HostFree key [.asIndex] := by
    have hindex : c₁.machine.heap.typeOf (.int (-1)) = .ok BuiltinKind.int.typeId := rfl
    unfold Client.lastByte
    rintro _ _ _ ⟨⟩
    exact ⟨.of_builtin hs₁.built htype _, .of_builtin hs₁.built hindex _⟩
  have hshow := respond_independent_of_layout H H ⟨_, hs₁⟩ hkeyed ⟨_, hs₂⟩ hcorr hoperands hhost
  exact ⟨c₁.machine, c₂.machine, ⟨_, hs₁⟩, hkeyed, ⟨_, hs₂⟩, hcorr, hfree, hshow.1, hshow.2 _ hs₁ hq⟩

end ItemAccess
