import ItemAccess.Proofs.Machine.Dicts
import ItemAccess.Proofs.Unfolding

/-!
# Byte strings are read back from their texts

A reader of quoted literals is defined here, from the rules of the literals alone. It takes the quote
that it finds, undoes one escape after the other, and stops at the first quote that is not escaped, which
has to be the last character. What it reads from the literal of a byte string is that byte string. So the
texts of different byte strings differ, and so do the messages about different missing keys.
-/

namespace ItemAccess

open Attempt

def Hex.lowerValue? (c : Char) : Option Nat :=
  if c.isDigit then some (c.toNat - '0'.toNat)
  else if 'a' ≤ c ∧ c ≤ 'f' then some (c.toNat - 'a'.toNat + 10)
  else none

namespace ByteLiteral

def plain? (c : Char) : Option UInt8 :=
  if c.toNat < 256 then some (UInt8.ofNat c.toNat) else none

/-- The byte that a backslash and a character stand for between the quotes `q`. -/
def named? (q c : Char) : Option UInt8 :=
  match c with
  | '\\' => some 0x5c
  | 't' => some 0x09
  | 'n' => some 0x0a
  | 'r' => some 0x0d
  | c => if c = q then plain? q else none

def pair? (hi lo : Char) : Option UInt8 := do
  return UInt8.ofNat (16 * (← Hex.lowerValue? hi) + (← Hex.lowerValue? lo))

def body? (q : Char) : List Char → Option (List UInt8)
  | [] => none
  | '\\' :: 'x' :: hi :: lo :: rest => (pair? hi lo).bind fun b => (body? q rest).map (b :: ·)
  | '\\' :: c :: rest => (named? q c).bind fun b => (body? q rest).map (b :: ·)
  | c :: rest =>
    if c = q then if rest = [] then some [] else none
    else (plain? c).bind fun b => (body? q rest).map (b :: ·)

def quoted? : List Char → Option (List UInt8)
  | q :: rest => if q = '\'' ∨ q = '"' then body? q rest else none
  | [] => none

def read? : List Char → Option (List UInt8)
  | 'b' :: rest => quoted? rest
  | s => quoted? s

end ByteLiteral

theorem Hex.lowerValue?_digit {n : Nat} (hn : n < 16) : lowerValue? (digit n) = some n := by
  revert n
  decide

theorem toNat_ofNat_byte (b : UInt8) : (Char.ofNat b.toNat).toNat = b.toNat := by
  have hb := b.toNat_lt
  rw [Char.ofNat, dif_pos (.inl (by omega))]
  rfl

namespace ByteLiteral

variable {q c : Char} {b : UInt8} {bytes : List UInt8} {rest : List Char}

theorem plain?_ofNat (b : UInt8) : plain? (Char.ofNat b.toNat) = some b := by
  rw [plain?, toNat_ofNat_byte, if_pos b.toNat_lt, UInt8.ofNat_toNat]

theorem pair?_digits (b : UInt8) :
    pair? (Hex.digit (b.toNat / 16)) (Hex.digit (b.toNat % 16)) = some b := by
  have hb := b.toNat_lt
  have hhi := Hex.lowerValue?_digit (n := b.toNat / 16) (by omega)
  have hlo := Hex.lowerValue?_digit (n := b.toNat % 16) (by omega)
  simp only [pair?, hhi, hlo, Option.pure_def, Option.bind_eq_bind, Option.bind_some, Nat.div_add_mod,
    UInt8.ofNat_toNat]

theorem body?_pair {hi lo : Char} (hb : pair? hi lo = some b) :
    body? q ('\\' :: 'x' :: hi :: lo :: rest) = (body? q rest).map (b :: ·) := by
  rw [body?, hb, Option.bind_some]

theorem body?_named (hc : c ≠ 'x') (hb : named? q c = some b) :
    body? q ('\\' :: c :: rest) = (body? q rest).map (b :: ·) := by
  rw [body?, hb, Option.bind_some]
  simp [hc]

theorem body?_plain (hc : c ≠ '\\') (hq : c ≠ q) (hb : plain? c = some b) :
    body? q (c :: rest) = (body? q rest).map (b :: ·) := by
  rw [body?, if_neg hq, hb, Option.bind_some] <;> simp [hc]

theorem body?_closing (hq : q ≠ '\\') : body? q [q] = some [] := by
  rw [body?] <;> simp [hq]

/-- What is written for a byte is read as that byte, whatever follows it. The cases are those of
`escape`. -/
theorem body?_escape (hq : q = '\'' ∨ q = '"') (b : UInt8) (rest : List Char) :
    body? q (escape q b ++ rest) = (body? q rest).map (b :: ·) := by
  have hx : q ≠ 'x' := by rcases hq with rfl | rfl <;> decide
  have hnamed : named? q q = plain? q := by rcases hq with rfl | rfl <;> rfl
  unfold escape
  dsimp only
  split_ifs with hslash htab hfeed hreturn hquote hprintable
  · exact body?_named (by decide) (by rw [hslash]; rfl)
  · exact body?_named (by decide) (by rw [htab]; rfl)
  · exact body?_named (by decide) (by rw [hfeed]; rfl)
  · exact body?_named (by decide) (by rw [hreturn]; rfl)
  · exact body?_named hx (by rw [hnamed, ← hquote, plain?_ofNat])
  · refine body?_plain (fun hchar => hslash ?_) hquote (plain?_ofNat b)
    have hsome : some b = some 0x5c := by rw [← plain?_ofNat b, hchar]; rfl
    exact Option.some.inj hsome
  · exact body?_pair (pair?_digits b)

/-- One byte of a literal after the other is read, up to the closing quote. -/
theorem body?_flatMap_escape (hq : q = '\'' ∨ q = '"') (bytes : List UInt8) :
    body? q (bytes.flatMap (escape q) ++ [q]) = some bytes := by
  induction bytes with
  | nil => exact body?_closing (by rcases hq with rfl | rfl <;> decide)
  | cons b bytes ih => rw [List.flatMap_cons, List.append_assoc, body?_escape hq, ih, Option.map_some]

theorem quote_cases (bytes : List UInt8) : quote bytes = '\'' ∨ quote bytes = '"' := by
  unfold quote
  split_ifs
  · exact .inr rfl
  · exact .inl rfl

theorem quoted?_write (bytes : List UInt8) : quoted? (write bytes) = some bytes := by
  rw [write, List.cons_append, quoted?, if_pos (quote_cases bytes)]
  exact body?_flatMap_escape (quote_cases bytes) bytes

def Printable (c : Char) : Prop := 0x20 ≤ c.toNat ∧ c.toNat < 0x7f

instance (c : Char) : Decidable (Printable c) := inferInstanceAs (Decidable (_ ∧ _))

theorem printable_digit {n : Nat} (hn : n < 16) : Printable (Hex.digit n) := by
  revert n
  decide

theorem printable_escape (hq : Printable q) (b : UInt8) : ∀ c ∈ escape q b, Printable c := by
  have hb := b.toNat_lt
  have hslash : Printable '\\' := by decide
  unfold escape
  dsimp only
  split_ifs with _ _ _ _ _ hprintable
  · simp [hslash]
  · simp [hslash, show Printable 't' by decide]
  · simp [hslash, show Printable 'n' by decide]
  · simp [hslash, show Printable 'r' by decide]
  · simp [hslash, hq]
  · have hplain : Printable (Char.ofNat b.toNat) := by
      rw [Printable, toNat_ofNat_byte]
      exact ⟨UInt8.le_iff_toNat_le.1 hprintable.1, UInt8.lt_iff_toNat_lt.1 hprintable.2⟩
    simp [hplain]
  · simp [hslash, show Printable 'x' by decide, printable_digit (n := b.toNat / 16) (by omega),
      printable_digit (n := b.toNat % 16) (by omega)]

theorem printable_write (bytes : List UInt8) : ∀ c ∈ write bytes, Printable c := by
  have hq : Printable (quote bytes) := by
    rcases quote_cases bytes with h | h
    · rw [h]; decide
    · rw [h]; decide
  intro c hc
  simp only [write, List.cons_append, List.mem_cons, List.mem_append, List.mem_flatMap, List.not_mem_nil,
    or_false] at hc
  obtain rfl | ⟨b, -, hb⟩ | rfl := hc
  · exact hq
  · exact printable_escape hq b c hb
  · exact hq

def text (model : TextModel) (bytes : List UInt8) : String :=
  Machine.bytesMark model ++ String.ofList (write bytes)

theorem toList_text (model : TextModel) (bytes : List UInt8) :
    (text model bytes).toList = (Machine.bytesMark model).toList ++ write bytes := by
  rw [text, String.toList_append, String.toList_ofList]

theorem printable_text (model : TextModel) (bytes : List UInt8) :
    ∀ c ∈ (text model bytes).toList, Printable c := by
  intro c hc
  rw [toList_text, List.mem_append] at hc
  obtain hmark | hwrite := hc
  · cases model with
    | byteString => simp [Machine.bytesMark] at hmark
    | unicode =>
      obtain rfl : c = 'b' := by simpa [Machine.bytesMark] using hmark
      decide
  · exact printable_write bytes c hwrite

theorem read?_text (model : TextModel) (bytes : List UInt8) :
    read? (text model bytes).toList = some bytes := by
  have hread := quoted?_write bytes
  rw [toList_text]
  cases model with
  | byteString =>
    -- A literal without the mark begins with its quote.
    rw [write, List.cons_append] at hread ⊢
    rcases quote_cases bytes with h | h <;> simpa [Machine.bytesMark, read?, h] using hread
  | unicode => exact hread

theorem text_ne {model model' : TextModel} {bytes' : List UInt8} (h : bytes ≠ bytes') :
    text model bytes ≠ text model' bytes' := by
  intro htext
  have hread := read?_text model bytes
  rw [htext, read?_text] at hread
  exact h (Option.some.inj hread).symm

end ByteLiteral

variable {υ : SlotKind → Type} {ε : Type} {H : Host υ} {m m' : Machine υ} {q q' : Request υ}
  {r s : Handle} {a : List DictEntry} {data data' : List UInt8} {jobs : List SlotKind}

theorem Machine.run_textOf_bytes (hb : m.heap.body r = .ok (.bytes data)) :
    (Machine.textOf (.ref r) : Action υ ε String).run m =
      .done (ByteLiteral.text m.settings.textModel data) m := by
  rw [Machine.textOf_eq, run_bind, run_get]
  exact Machine.run_textWithin_plain (.bytes hb)

/-- A request that looks in a dict for a byte string that is no key there. -/
inductive Request.Misses (m : Machine υ) (data : List UInt8) : Request υ → Prop
  | intro {q : Request υ} {r s : Handle} {a : List DictEntry} {jobs : List SlotKind}
    (hq : q.Access (.ref r) (.ref s) jobs) (hread : ∀ v, q ≠ .set v (.ref r) (.ref s))
    (hb : m.heap.body r = .ok (.dict a)) (hkey : m.heap.body s = .ok (.bytes data))
    (hnone : ∀ e ∈ a, e.hash ≠ .bytes data) : Misses m data q

theorem Heap.hash_bytes {h : Heap} (hb : h.body r = .ok (.bytes data)) :
    (h.hash (.ref r)).run = .ok (.ok (.bytes data)) := by
  rw [Heap.hash, Heap.hashWithin_ref _ hb]
  rfl

/-- The slot of the dict finds no entry and names the key. -/
theorem Request.Misses.run (hq : q.Misses m data) (hm : m.WellFormed) (hquiet : m.pending = {}) :
    ∃ tracer, (q.perform H).run m =
      .failed ⟨.propagated, .withMessage .keyError (ByteLiteral.text m.settings.textModel data)⟩
        { m with tracer := tracer } := by
  obtain ⟨owned, hs⟩ := hm
  obtain @⟨r, s, a, jobs, hq, hread, hb, hkey, hnone⟩ := hq
  have hlive : ∀ v ∈ q.borrowed, m.heap.Present v := by
    have hdict := Heap.present_of_typeOf (Heap.typeOf_ref hb)
    have hkey := Heap.present_of_typeOf (Heap.typeOf_ref hkey)
    cases hq with
    | set v => exact absurd rfl (hread v)
    | _ => simp [Request.borrowed, hdict, hkey]
  obtain ⟨op, tracer, hrun⟩ := hq.run_perform_dict (H := H) hs hb hlive hquiet
  have hslot : q.dictSlot.run { m with tracer := tracer } = .failed {} { m with
      tracer := tracer
      pending := ⟨some (.withMessage .keyError (ByteLiteral.text m.settings.textModel data))⟩ } := by
    have ht := Machine.run_textOf_bytes (ε := Raised) (m := { m with tracer := tracer }) hkey
    have hget : Dict.get? a (.bytes data) = none := by simp [Dict.get?, Dict.find?_of_forall hnone]
    have hremove : Dict.remove? a (.bytes data) = none := by
      simp [Dict.remove?, Dict.find?_of_forall hnone]
    cases hq with
    | set v => exact absurd rfl (hread v)
    | del => rw [Request.dictSlot, run_map, Machine.run_dictDel_missing
        (m := { m with tracer := tracer }) hb (Heap.hash_bytes hkey) hremove ht]
    | _ => rw [Request.dictSlot, run_map, Machine.run_dictGet_missing
        (m := { m with tracer := tracer }) hb (Heap.hash_bytes hkey) hget ht]
  rw [hrun, Machine.run_settle_failed hslot (.left _), ← hquiet]
  exact ⟨_, rfl⟩

/-- The text of a byte string is printable and read back as the byte string, so different byte strings
have different texts. Where two requests look for different byte strings that are not there, both fail
with a `KeyError`, and their messages differ. -/
theorem byte_literals_read_back (H : Host υ) :
    (∀ model bytes, (∀ c ∈ (ByteLiteral.text model bytes).toList, ByteLiteral.Printable c) ∧
      ByteLiteral.read? (ByteLiteral.text model bytes).toList = some bytes) ∧
    (∀ model model' bytes bytes', bytes ≠ bytes' →
      ByteLiteral.text model bytes ≠ ByteLiteral.text model' bytes') ∧
    (∀ (m : Machine υ) (r : Handle) (data : List UInt8), m.heap.body r = .ok (.bytes data) →
      (Machine.textOf (.ref r) : Action υ Failure String).run m =
        .done (ByteLiteral.text m.settings.textModel data) m) ∧
    ∀ (m m' : Machine υ) (q q' : Request υ) (data data' : List UInt8), m.WellFormed → m'.WellFormed →
      m.pending = {} → m'.pending = {} → q.Misses m data → q'.Misses m' data' → data ≠ data' →
      ∃ f f' m₁ m₁', (q.perform H).run m = .failed f m₁ ∧ (q'.perform H).run m' = .failed f' m₁' ∧
        f.cls = .keyError ∧ f'.cls = .keyError ∧ f.message ≠ f'.message := by
  refine ⟨fun model bytes => ⟨ByteLiteral.printable_text model bytes, ByteLiteral.read?_text model bytes⟩,
    fun _ _ _ _ => ByteLiteral.text_ne, fun m r data => Machine.run_textOf_bytes, ?_⟩
  intro m m' q q' data data' hm hm' hquiet hquiet' hq hq' hne
  obtain ⟨tracer, hrun⟩ := hq.run (H := H) hm hquiet
  obtain ⟨tracer', hrun'⟩ := hq'.run (H := H) hm' hquiet'
  refine ⟨_, _, _, _, hrun, hrun', rfl, rfl, fun hmessage => ?_⟩
  exact ByteLiteral.text_ne hne (Option.some.inj hmessage)

def quotesRun : List (Request DelegateSlot) :=
  [.newBytes [0x69, 0x74, 0x27, 0x73], .newBytes [0x22, 0x27, 0x5c, 0x09, 0xff], .newDict [(.int 1, .none)]]

/-- The one text stands between double quotes, the other between single ones. -/
theorem byte_literals_read_back_quotesRun : ∃ m : Machine DelegateSlot, m.WellFormed ∧ m.pending = {} ∧
    m.heap.body ⟨0⟩ = .ok (.bytes [0x69, 0x74, 0x27, 0x73]) ∧
    (Machine.textOf (.ref ⟨0⟩) : Action DelegateSlot Failure String).run m = .done "b\"it's\"" m ∧
    (Request.get (.ref ⟨2⟩) (.ref ⟨0⟩)).Misses m [0x69, 0x74, 0x27, 0x73] ∧
    (Request.del (.ref ⟨2⟩) (.ref ⟨1⟩)).Misses m [0x22, 0x27, 0x5c, 0x09, 0xff] ∧
    ∃ f f' m₁ m₁',
      ((Request.get (.ref ⟨2⟩) (.ref ⟨0⟩)).perform (DelegateSlot.host 0)).run m = .failed f m₁ ∧
      ((Request.del (.ref ⟨2⟩) (.ref ⟨1⟩)).perform (DelegateSlot.host 0)).run m = .failed f' m₁' ∧
      f.cls = .keyError ∧ f'.cls = .keyError ∧ f.message ≠ f'.message := by
  have hrun : ((Client.follow (DelegateSlot.host 0) Client.Careful
      (.start { limits := { memory := some 1000 } }) quotesRun).any fun c =>
        c.machine.pending = {} ∧
        c.machine.heap.body ⟨0⟩ = .ok (.bytes [0x69, 0x74, 0x27, 0x73]) ∧
        c.machine.heap.body ⟨1⟩ = .ok (.bytes [0x22, 0x27, 0x5c, 0x09, 0xff]) ∧
        c.machine.heap.body ⟨2⟩ = .ok (.dict [⟨.integer 1, .int 1, .none⟩]) ∧
        ByteLiteral.text c.machine.settings.textModel [0x69, 0x74, 0x27, 0x73] = "b\"it's\"") =
      true := by decide +kernel
  obtain ⟨c, hc, hquiet, hfirst, hsecond, hdict, htext⟩ := Client.exists_reached hrun
  have hm : c.machine.WellFormed := ⟨_, hc.sound (DelegateSlot.host_careful 0)⟩
  have hget : (Request.get (.ref ⟨2⟩) (.ref ⟨0⟩)).Misses c.machine [0x69, 0x74, 0x27, 0x73] :=
    .intro .get (by simp) hdict hfirst (by simp)
  have hdel : (Request.del (.ref ⟨2⟩) (.ref ⟨1⟩)).Misses c.machine [0x22, 0x27, 0x5c, 0x09, 0xff] :=
    .intro .del (by simp) hdict hsecond (by simp)
  obtain ⟨-, -, htextOf, hmessages⟩ := byte_literals_read_back (DelegateSlot.host 0)
  have hshown := htextOf c.machine ⟨0⟩ _ hfirst
  rw [htext] at hshown
  exact ⟨c.machine, hm, hquiet, hfirst, hshown, hget, hdel,
    hmessages _ _ _ _ _ _ hm hm hquiet hquiet hget hdel (by decide)⟩

end ItemAccess
