import ItemAccess.Proofs.ByteReads
import ItemAccess.Proofs.Lasting
import ItemAccess.Proofs.Store.SharedBytes
import ItemAccess.Proofs.SuccessfulRead

/-!
# The string of a byte is shared forever

Whoever reads a byte of a byte string is given the one string that the store has for this byte. The
store made it when the byte was first read and never gives it up. So later reads of this byte, from
whatever byte string and on whatever way, make no object; and all reads of bytes together make no more
objects than there are bytes.
-/

namespace ItemAccess

open Attempt Machine

variable {υ : SlotKind → Type} {H : Host υ} {c c' c₁ : Client υ} {d : Deed υ} {s : Settings} {n k : Nat}
  {m₁ m' : Machine υ} {b : UInt8} {r : Handle} {vs : List Value} {calm : Pending → Prop}
  {hquiet : calm {}} {known : List (UInt8 × Handle)}

theorem Heap.shares_lasting (known : List (UInt8 × Handle)) : Heap.Lasting (Heap.Shares known) :=
  fun hm ha hs => hm.shares ha hs

abbrev Discipline.sharing (calm : Pending → Prop) (hquiet : calm {})
    (known : List (UInt8 × Handle)) : Discipline υ :=
  .carefulUpholding calm hquiet (Heap.shares_lasting known)

/-- The deed reads a byte, and the string that it is given is in a slot that was not in use. -/
def Deed.Makes (H : Host υ) (m : Machine υ) (d : Deed υ) : Prop :=
  ∃ m₁ b r m', d.ReadsByte H m m₁ b ∧ (d.perform H).run m = .done [.ref r] m' ∧
    m₁.heap.lookup? r = none

namespace Client

inductive Does (H : Host υ) (c : Client υ) (d : Deed υ) : Client υ → Prop
  | done {vs : List Value} {m' : Machine υ} (hrun : (d.perform H).run c.machine = .done vs m') :
    Does H c d ⟨m', c.owned - handles d.consumed + handles vs⟩
  | failed {f : Failure} {m' : Machine υ} (hrun : (d.perform H).run c.machine = .failed f m') :
    Does H c d ⟨m', c.owned - handles d.consumed⟩

/-- A run of deeds, of which `n` are counted. Any read of a byte that made an object may be. -/
inductive Deeds (H : Host υ) (c : Client υ) : Nat → Client υ → Prop
  | nil : Deeds H c 0 c
  | next {n : Nat} {c₁ c₂ : Client υ} {d : Deed υ} (hrun : Deeds H c n c₁) (hd : d.Admitted c₁)
    (hdoes : c₁.Does H d c₂) : Deeds H c n c₂
  | made {n : Nat} {c₁ c₂ : Client υ} {d : Deed υ} (hrun : Deeds H c n c₁) (hd : d.Admitted c₁)
    (hdoes : c₁.Does H d c₂) (hmakes : d.Makes H c₁.machine) : Deeds H c (n + 1) c₂

/-- The string of a byte is in a slot, also when nobody owns it. Whoever reads the byte is given it, and
nothing but its count changes. -/
structure SharesByte (H : Host υ) (c : Client υ) (b : UInt8) (r : Handle) : Prop where
  inUse : ∃ e, c.machine.heap.lookup? r = some e ∧ e.body = .bytes [b] ∧ c.owned.count r + 1 ≤ e.count
  given : ∀ (d : Deed υ) (m₁ : Machine υ), d.Admitted c → d.ReadsByte H c.machine m₁ b →
    ∃ m₂, (d.perform H).run c.machine = .done [.ref r] m₂ ∧ m₁.heap.OneMore (.ref r) m₂.heap

theorem Does.serve {q : Request υ} (hdoes : c.Does H (.ask q) c') : c.serve H q = .ok c' := by
  cases hdoes with
  | done hrun =>
    have hperform : (q.perform H).run c.machine = _ := hrun
    rw [Client.serve, hperform]
    rfl
  | failed hrun =>
    have hperform : (q.perform H).run c.machine = _ := hrun
    rw [Client.serve, hperform]
    rfl

theorem Does.of_serve {q : Request υ} (hserve : c.serve H q = .ok c') : c.Does H (.ask q) c' := by
  unfold Client.serve at hserve
  cases hrun : (q.perform H).run c.machine with
  | done vs m' =>
    rw [hrun] at hserve
    cases hserve
    exact .done hrun
  | failed f m' =>
    rw [hrun] at hserve
    cases hserve
    exact .failed hrun
  | fault f =>
    rw [hrun] at hserve
    cases hserve

/-- A read uses nothing up. -/
theorem Does.of_reads (hfrom : d.ReadsFrom r) (hdone : (d.perform H).run c.machine = .done vs m') :
    c.Does H d ⟨m', c.owned + handles vs⟩ := by
  have hconsumed : d.consumed = [] := by cases hfrom <;> rfl
  simpa [hconsumed] using Does.done (H := H) hdone

/-- One deed. -/
theorem Does.good {P : Heap → Prop} {hP : Heap.Lasting P}
    (hH : H.Keeps (.carefulUpholding calm hquiet hP)) (hc : c.Good (.carefulUpholding calm hquiet hP))
    (hd : d.Admitted c) (hdoes : c.Does H d c') : c'.Good (.carefulUpholding calm hquiet hP) := by
  cases d with
  | ask q =>
    have hkeeps := serve_keeps hH hc hd.owns (fun _ _ _ _ _ => trivial) (fun _ => hd.timely)
      fun f _ _ h g lost hs => ⟨hs.1.lose, hs.2⟩
    exact hkeeps.1 c' hdoes.serve
  | callAt s obj i =>
    obtain ⟨howned, hoffers, hpending⟩ := hd
    have hcall : Discipline.Call (.carefulUpholding calm hquiet hP) c.machine c.owned s obj [] :=
      ⟨hc, howned, by simp, fun _ => hpending ▸ hquiet, fun _ => hoffers, False.elim⟩
    have hgives := Discipline.settle_keeps hcall.after (Discipline.callGetAt_keeps hH hcall i)
    have hends : ((Deed.callAt s obj i).perform H).Ends c.machine True
        (fun vs m' => (⟨m', c.owned + handles vs⟩ : Client υ).Good (.carefulUpholding calm hquiet hP))
        fun _ m' => (⟨m', c.owned⟩ : Client υ).Good (.carefulUpholding calm hquiet hP) := by
      simp only [Deed.perform, ends_bind, ends_pure]
      apply hgives.mono
      · intro v m' hafter
        simpa [Good] using hafter.good
      · intro f m' hafter
        simpa [Good] using hafter.good
    cases hdoes with
    | done hrun => simpa [Deed.consumed] using hends.done hrun
    | failed hrun => simpa [Deed.consumed] using hends.failed hrun

theorem Deeds.good {P : Heap → Prop} {hP : Heap.Lasting P}
    (hH : H.Keeps (.carefulUpholding calm hquiet hP)) (hc : c.Good (.carefulUpholding calm hquiet hP))
    (hrun : Deeds H c n c') : c'.Good (.carefulUpholding calm hquiet hP) := by
  induction hrun with
  | nil => exact hc
  | next _ hd hdoes ih => exact hdoes.good hH ih hd
  | made _ hd hdoes _ ih => exact hdoes.good hH ih hd

/-- What is good while an index is being made is good when the byte is read. -/
theorem good_of_readsByte {P : Heap → Prop} {hP : Heap.Lasting P}
    (hH : H.Keeps (.carefulUpholding calm hquiet hP)) (hc : c.Good (.carefulUpholding calm hquiet hP))
    (hd : d.Admitted c) (hread : d.ReadsByte H c.machine m₁ b) :
    (⟨m₁, c.owned⟩ : Client υ).Good (.carefulUpholding calm hquiet hP) := by
  cases hread with
  | direct => exact hc
  | byPosition => exact hc
  | @byKey q op r key i m₀ m₁ data b hq htype hnote hindex hb hi hbyte =>
    obtain ⟨jobs, haccess⟩ := hq.access
    obtain ⟨hborrowed, hpending⟩ := hd.access haccess
    obtain ⟨model, ht⟩ := hc.1.built.get? .bytes
    rw [run_noteDispatch op .mapping ht] at hnote
    have hnoted : (⟨m₀, c.owned⟩ : Client υ).Good (.carefulUpholding calm hquiet hP) := by
      cases hnote
      exact hc
    have hcalm : calm m₀.pending := by
      cases hnote
      exact hpending ▸ hquiet
    have hkey := hborrowed key (by cases hq <;> simp [Request.borrowed])
    have hkeeps := Discipline.toIndex_keeps hH hnoted hkey fun _ => hcalm
    simpa [Good] using (hkeeps.done hindex).1.good

/-- The store knows the strings that it keeps. -/
theorem Good.sharing_now (hc : c.Good (.sharing calm hquiet known)) :
    c.Good (.sharing calm hquiet c.machine.heap.byteStrings) :=
  ⟨hc.1, hc.2.pinned, hc.2.distinct, List.suffix_rfl⟩

/-- The string that is given belongs to the byte that is read. -/
theorem byteString_of_done (hH : H.Keeps (.sharing calm hquiet known))
    (hc : c.Good (.sharing calm hquiet known)) (hd : d.Admitted c)
    (hread : d.ReadsByte H c.machine m₁ b)
    (hdone : (d.perform H).run c.machine = .done vs m') :
    m₁.heap.Shares known ∧ ∃ r, vs = [.ref r] ∧ m₁.heap.byteString b = .ok (.ok (r, m'.heap)) := by
  have hshares := (good_of_readsByte hH hc hd hread).2
  have hgiven := hread.given hc.1 hd
  rw [hdone] at hgiven
  cases hgiven with
  | done hb => exact ⟨hshares, _, rfl, hb⟩

/-- A read that makes an object adds a string to those that the store keeps. -/
theorem length_of_makes (hH : ∀ known, H.Keeps (.sharing calm hquiet known))
    (hc : c.Good (.sharing calm hquiet known)) (hd : d.Admitted c) (hdoes : c.Does H d c')
    (hmakes : d.Makes H c.machine) :
    c.machine.heap.byteStrings.length + 1 ≤ c'.machine.heap.byteStrings.length := by
  obtain ⟨m₁, b, r, m', hread, hdone, hunused⟩ := hmakes
  obtain ⟨hshares, s, hs, hb⟩ := byteString_of_done (hH _) hc.sharing_now hd hread hdone
  cases hs
  have hlength := (Heap.byteStrings_byteString hb).2 hunused
  have hle := hshares.known.length_le
  cases hdoes with
  | done hrun =>
    rw [hdone] at hrun
    cases hrun
    rw [hlength]
    exact Nat.succ_le_succ hle
  | failed hrun =>
    rw [hdone] at hrun
    cases hrun

/-- The store keeps a string for each object that was made by reading a byte. -/
theorem Deeds.length (hH : ∀ known, H.Keeps (.sharing calm hquiet known))
    (hc : c.Good (.sharing calm hquiet known)) (hrun : Deeds H c n c') :
    c.machine.heap.byteStrings.length + n ≤ c'.machine.heap.byteStrings.length := by
  induction hrun with
  | nil => exact le_rfl
  | @next n c₁ c₂ d hrun hd hdoes ih =>
    have hnow := (hrun.good (hH known) hc).sharing_now
    have hle := (hdoes.good (hH _) hnow hd).2.known.length_le
    omega
  | @made n c₁ c₂ d hrun hd hdoes hmakes ih =>
    have hle := length_of_makes hH (hrun.good (hH known) hc) hd hdoes hmakes
    omega

theorem start_sharing : (start s : Client υ).Good (.sharing calm hquiet []) :=
  ⟨Heap.empty_sound s.limits s.textModel, Heap.empty_shares s.limits⟩

/-- A string that is known is shared. -/
theorem Good.sharesByte (hH : H.Keeps (.sharing calm hquiet known))
    (hc : c.Good (.sharing calm hquiet known)) (hr : (b, r) ∈ known) : c.SharesByte H b r := by
  have hmem := hc.2.known.subset hr
  obtain ⟨e, he, hbody⟩ := Heap.body_eq_ok.1 (hc.2.pinned b r hmem)
  obtain ⟨lost, ha⟩ := hc.1.accounted
  have hcount := ha.count_kept hmem he
  rw [Multiset.count_add] at hcount
  refine ⟨⟨e, he, hbody, by omega⟩, fun d m₁ hd hread => ?_⟩
  have hshares := (good_of_readsByte hH hc hd hread).2
  obtain ⟨h', hknown, hretain⟩ := hshares.byteString hr
  have hgiven := hread.given hc.1 hd
  generalize hrun : (d.perform H).run c.machine = o at hgiven
  cases hgiven with
  | done hb =>
    cases hb.symm.trans hknown
    exact ⟨_, rfl, .of_retain hretain⟩
  | failed hb => cases hb.symm.trans hknown
  | fault hb => cases hb.symm.trans hknown

/-- At any point of a run, the store keeps the strings that reads of bytes have made, and no more than
there are bytes; all of them are shared ever after. A read of a byte string that is done then is given
the string of a byte, which is shared ever after as well. -/
theorem byte_strings_shared_forever (hH : ∀ known, H.Keeps (.sharing calm hquiet known))
    (hrun : Deeds H (start s) n c) :
    n ≤ c.machine.heap.byteStrings.length ∧ c.machine.heap.byteStrings.length ≤ 256 ∧
    (∀ {b : UInt8} {r : Handle} {k : Nat} {c' : Client υ}, (b, r) ∈ c.machine.heap.byteStrings →
      Deeds H c k c' → c'.SharesByte H b r) ∧
    ∀ {d : Deed υ} {r₀ : Handle} {data : List UInt8} {vs : List Value} {m' : Machine υ} {k : Nat}
      {c' : Client υ}, d.Admitted c → d.ReadsFrom r₀ → c.machine.heap.body r₀ = .ok (.bytes data) →
      (d.perform H).run c.machine = .done vs m' → Deeds H ⟨m', c.owned + handles vs⟩ k c' →
      ∃ m₁ b r, d.ReadsByte H c.machine m₁ b ∧ vs = [.ref r] ∧ c'.SharesByte H b r := by
  have hgood := hrun.good (hH []) start_sharing
  have hlength := hrun.length hH start_sharing
  have hkept {c : Client υ} (hc : c.Good (.sharing calm hquiet [])) {b : UInt8} {r : Handle} {k : Nat}
      {c' : Client υ} (hr : (b, r) ∈ c.machine.heap.byteStrings) (hlater : Deeds H c k c') :
      c'.SharesByte H b r :=
    (hlater.good (hH _) hc.sharing_now).sharesByte (hH _) hr
  refine ⟨by omega, hgood.2.length_le, hkept hgood, ?_⟩
  intro d r₀ data vs m' k c' hd hfrom hb hdone hlater
  obtain ⟨m₁, b, hread⟩ := Deed.exists_readsByte hgood.1 hd hfrom hb hdone
  obtain ⟨-, r, rfl, hbyte⟩ := byteString_of_done (hH []) hgood hd hread hdone
  have hgood' := (Does.of_reads hfrom hdone).good (hH []) hgood hd
  have hmem := (Heap.byteStrings_byteString hbyte).1
  exact ⟨m₁, b, r, hread, rfl, hkept hgood' hmem hlater⟩

theorem Deeds.follow {qs : List (Request υ)} (hrun : Deeds H c n c₁)
    (hf : Client.follow H Careful c₁ qs = some c') : Deeds H c n c' := by
  apply follow_induction _ hrun hf
  intro c₂ c₃ q hrun hq hserve
  exact hrun.next (d := .ask q) hq (.of_serve hserve)

/-- The string of a byte is dropped and found again, where there is no room for another object. -/
theorem byte_strings_shared_forever_droppedByte :
    let H := DelegateSlot.host 2
    let s : Settings := { limits := { allocations := some 3 }, textModel := .byteString }
    ∃ c c' : Client DelegateSlot, Deeds H (start s) 0 c ∧ Deeds H c 1 c' ∧
      c'.owned.count ⟨1⟩ = 0 ∧ c'.SharesByte H 0x61 ⟨1⟩ ∧
      ∃ m₃, ((Deed.callAt (.builtin .bytesGetAt) (.ref ⟨2⟩) 1).perform H).run c'.machine =
        .done [.ref ⟨1⟩] m₃ := by
  intro H s
  let d : Deed DelegateSlot := .ask (.getConst (.ref ⟨0⟩) (.int 2) 2)
  have hrun : ((Client.follow H Careful (start s) [.newBytes [0x61, 0x62, 0x61]]).any fun c =>
      c.Careful (.getConst (.ref ⟨0⟩) (.int 2) 2) ∧
      c.machine.settings.textModel = .byteString ∧
      c.machine.heap.body ⟨0⟩ = .ok (.bytes [0x61, 0x62, 0x61]) ∧
      c.machine.heap.lookup? ⟨1⟩ = none ∧
      (((Request.getConst (.ref ⟨0⟩) (.int 2) 2).perform H).run c.machine).done?.any fun p =>
        p.1 = [.ref ⟨1⟩] ∧
        (Client.follow H Careful ⟨p.2, c.owned + handles [.ref ⟨1⟩]⟩
          [.drop (.ref ⟨1⟩), .newBytes [0x62, 0x61]]).any fun c' =>
            c'.owned.count ⟨1⟩ = 0 ∧ (⟨2⟩ : Handle) ∈ c'.owned ∧ c'.machine.pending = {} ∧
            c'.machine.heap.body ⟨1⟩ = .ok (.bytes [0x61]) ∧
            c'.machine.heap.body ⟨2⟩ = .ok (.bytes [0x62, 0x61])) = true := by
    decide +kernel
  obtain ⟨c, hfollow, hc⟩ := (Option.any_eq_true _ _).1 hrun
  obtain ⟨hadmitted, hmodel, hbody, hunused, hread⟩ := of_decide_eq_true hc
  obtain ⟨⟨vs, m'⟩, hdone, hlater⟩ := (Option.any_eq_true _ _).1 hread
  obtain ⟨rfl, hlater⟩ := of_decide_eq_true hlater
  obtain ⟨c', hfollow', hc'⟩ := (Option.any_eq_true _ _).1 hlater
  obtain ⟨hcount, howned, hpending, hone, htwo⟩ := of_decide_eq_true hc'
  have hdone : (d.perform H).run c.machine = .done [.ref ⟨1⟩] m' := Outcome.done?_eq_some.1 hdone
  have hH (known : List (UInt8 × Handle)) :
      H.Keeps (.sharing (fun p => p.isSet = false) rfl known) :=
    DelegateSlot.host_keeps (fun _ h => h) 2
  have hbefore : Deeds H (start s) 0 c := Deeds.nil.follow hfollow
  have hadmitted : d.Admitted c := hadmitted
  have hfrom : d.ReadsFrom ⟨0⟩ := .getConst _ _
  have hmakes : d.Makes H c.machine :=
    ⟨c.machine, 0x61, ⟨1⟩, m', .direct hmodel hbody (by decide) (by decide), hdone, hunused⟩
  obtain ⟨-, -, -, hforever⟩ := byte_strings_shared_forever hH hbefore
  obtain ⟨m₁, b, r, -, hr, hshares⟩ := hforever hadmitted hfrom hbody hdone
    (Deeds.nil.follow hfollow')
  cases hr
  obtain rfl : b = 0x61 := by
    obtain ⟨e, he, hb, -⟩ := hshares.inUse
    have hstring := (Heap.body_of_lookup? he).symm.trans hone
    rw [hb] at hstring
    cases hstring
    rfl
  have hafter : Deeds H c 1 c' := (Deeds.nil.made hadmitted (.of_reads hfrom hdone) hmakes).follow hfollow'
  refine ⟨c, c', hbefore, hafter, hcount, hshares, ?_⟩
  have hgood := hafter.good (hH []) (hbefore.good (hH []) start_sharing)
  have hcallable := Deed.admitted_callAt hgood.1 howned htwo hpending 1
  obtain ⟨m₃, hm₃, -⟩ := hshares.given _ _ hcallable (.byPosition htwo (by decide) (by decide))
  exact ⟨m₃, hm₃⟩

end Client

end ItemAccess
