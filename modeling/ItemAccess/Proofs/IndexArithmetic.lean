import ItemAccess.Proofs.KeyAndPosition
import ItemAccess.Script.HostSlot

/-!
# Index arithmetic in 64 bits

An index is a signed word and a length an unsigned one. The positions of `Position` are computed with
integers, where nothing can overflow. Here the same is computed with the words themselves: a magnitude is
the bits of an absolute value, a sum is taken modulo `2 ^ 64`, and a sum that came out smaller than it
started has passed the largest index. Every step gives the word of the integer that it stands for, so the
words mean the same positions.
-/

namespace ItemAccess

open Attempt

namespace Position

variable {i : Int64} {len : UInt64} {n p : Nat}

def checkedWord (i : Int64) (len : UInt64) : Option UInt64 :=
  if i < 0 then
    if i.abs.toUInt64 ≤ len then some (len - i.abs.toUInt64) else none
  else if i.toUInt64 < len then some i.toUInt64
  else none

def absoluteWord (i : Int64) (len : UInt64) : Option UInt64 :=
  if i < 0 then none
  else if i.toUInt64 < len then some i.toUInt64
  else none

def wrapWord (i : Int64) (len : UInt64) : Int64 :=
  if i < 0 then
    if i + len.toInt64 < i then Int64.maxValue else i + len.toInt64
  else i

/-- An index as an integer: unchanged from the front, and raised by the length from the end. -/
def raised (n : Int) (len : Nat) : Int :=
  if 0 ≤ n then n else n + len

theorem neg_iff_toInt (i : Int64) : i < 0 ↔ i.toInt < 0 := by
  simp [Int64.lt_iff_toInt_lt]

/-- The absolute value of the least index is no index, but its bits are those of its magnitude. -/
theorem toNat_abs (i : Int64) : i.abs.toUInt64.toNat = i.toInt.natAbs := by
  have hbits := i.toBitVec.isLt
  change i.toBitVec.abs.toNat = i.toBitVec.toInt.natAbs
  rw [BitVec.toNat_abs, BitVec.toInt_eq_msb_cond]
  split <;> omega

theorem toNat_of_not_neg (hi : ¬ i < 0) : (i.toUInt64.toNat : Int) = i.toInt := by
  have hbits := i.toBitVec.isLt
  have hfront : ¬ i.toBitVec.toInt < 0 := mt (neg_iff_toInt i).2 hi
  change (i.toBitVec.toNat : Int) = i.toBitVec.toInt
  rw [BitVec.toInt_eq_toNat_cond] at hfront ⊢
  split at hfront <;> omega

theorem toNat_sub_abs (h : i.abs.toUInt64 ≤ len) :
    (len - i.abs.toUInt64).toNat = len.toNat - i.toInt.natAbs := by
  rw [UInt64.toNat_sub_of_le _ _ h, toNat_abs]

theorem toInt_add_length (i : Int64) (len : UInt64) :
    (i + len.toInt64).toInt = (i.toInt + len.toNat).bmod (2 ^ 64) := by
  have hlen : len.toInt64.toInt = (len.toNat : Int).bmod (2 ^ 64) := BitVec.toInt_eq_toNat_bmod _
  rw [Int64.toInt_add, hlen, Int.add_bmod_bmod]

/-- A sum modulo `2 ^ 64` is the exact one or came out smaller than the index. -/
theorem toInt_add_cases (i : Int64) (len : UInt64) :
    (i.toInt + len.toNat ≤ Int64.maxValue.toInt ∧ (i + len.toInt64).toInt = i.toInt + len.toNat) ∨
      (Int64.maxValue.toInt < i.toInt + len.toNat ∧ i + len.toInt64 < i) := by
  have hmax : Int64.maxValue.toInt = 2 ^ 63 - 1 := rfl
  have hlo := Int64.le_toInt i
  have hhi := Int64.toInt_lt i
  have hlen := len.toNat_lt
  rw [Int64.lt_iff_toInt_lt, toInt_add_length, Int.bmod_def]
  omega

/-- An index that counts from the front is a position if it is below the length. -/
theorem map_front (hi : ¬ i < 0) (len : UInt64) :
    (if i.toUInt64 < len then some i.toUInt64 else none).map UInt64.toNat =
      if i.toInt.toNat < len.toNat then some i.toInt.toNat else none := by
  have hfront : i.toUInt64.toNat = i.toInt.toNat := by
    have hcast := toNat_of_not_neg hi
    omega
  have hlt : i.toUInt64 < len ↔ i.toInt.toNat < len.toNat := by
    rw [UInt64.lt_iff_toNat_lt, hfront]
  by_cases h : i.toUInt64 < len
  · rw [if_pos h, if_pos (hlt.1 h), Option.map_some, hfront]
  · rw [if_neg h, if_neg (mt hlt.2 h), Option.map_none]

theorem map_checkedWord (i : Int64) (len : UInt64) :
    (checkedWord i len).map UInt64.toNat = checked i len.toNat := by
  by_cases hi : i < 0
  · have hle : i.abs.toUInt64 ≤ len ↔ i.toInt.natAbs ≤ len.toNat := by
      rw [UInt64.le_iff_toNat_le, toNat_abs]
    rw [checkedWord, checked, if_pos hi, if_pos hi]
    by_cases h : i.abs.toUInt64 ≤ len
    · rw [if_pos h, if_pos (hle.1 h), Option.map_some, toNat_sub_abs h]
    · rw [if_neg h, if_neg (mt hle.2 h), Option.map_none]
  · rw [checkedWord, checked, if_neg hi, if_neg hi, map_front hi]

theorem map_absoluteWord (i : Int64) (len : UInt64) :
    (absoluteWord i len).map UInt64.toNat = absolute i len.toNat := by
  by_cases hi : i < 0
  · rw [absoluteWord, absolute, if_pos hi, if_pos hi, Option.map_none]
  · rw [absoluteWord, absolute, if_neg hi, if_neg hi, map_front hi]

theorem wrapWord_eq (i : Int64) (len : UInt64) : wrapWord i len = wrap i len.toNat := by
  by_cases hi : i < 0
  · apply Int64.toInt_inj.1
    rw [toInt_wrap hi, wrapWord, if_pos hi]
    rcases toInt_add_cases i len with ⟨hle, hsum⟩ | ⟨hlt, hsum⟩
    · have hgrown : ¬ i + len.toInt64 < i := by
        rw [Int64.lt_iff_toInt_lt, hsum]
        omega
      rw [if_neg hgrown, hsum, min_eq_left hle]
    · rw [if_pos hsum, min_eq_right hlt.le]
  · rw [wrapWord, wrap, if_neg hi, if_neg hi]

/-- No step overflows: each word is the word of the integer that it stands for, and the results are
those of integers. -/
structure WordsExact (i : Int64) (len : UInt64) : Prop where
  magnitude : i.abs.toUInt64.toNat = i.toInt.natAbs
  front : ¬ i < 0 → (i.toUInt64.toNat : Int) = i.toInt
  difference : i.abs.toUInt64 ≤ len → (len - i.abs.toUInt64).toNat + i.toInt.natAbs = len.toNat
  sum : i.toInt + len.toNat ≤ Int64.maxValue.toInt →
    (i + len.toInt64).toInt = i.toInt + len.toNat
  checked : (checkedWord i len).map UInt64.toNat = checked i len.toNat
  absolute : (absoluteWord i len).map UInt64.toNat = absolute i len.toNat
  wrap : wrapWord i len = wrap i len.toNat

theorem wordsExact (i : Int64) (len : UInt64) : WordsExact i len where
  magnitude := toNat_abs i
  front := toNat_of_not_neg
  difference h := by
    have hle : i.toInt.natAbs ≤ len.toNat := toNat_abs i ▸ UInt64.le_iff_toNat_le.1 h
    rw [toNat_sub_abs h, Nat.sub_add_cancel hle]
  sum hle := by
    rcases toInt_add_cases i len with ⟨-, hsum⟩ | ⟨hlt, -⟩
    · exact hsum
    · omega
  checked := map_checkedWord i len
  absolute := map_absoluteWord i len
  wrap := wrapWord_eq i len

theorem checked_eq_some : checked i n = some p ↔ InRange i.toInt n ∧ (p : Int) = raised i.toInt n := by
  by_cases hi : InRange i.toInt n
  · have hraised : (ofInteger i.toInt n : Int) = raised i.toInt n := by
      obtain ⟨hlo, hhi⟩ := hi
      unfold ofInteger raised
      split_ifs <;> omega
    rw [checked_of_inRange hi, Option.some.injEq, ← hraised, Nat.cast_inj, eq_comm]
    exact (and_iff_right hi).symm
  · simp [checked_of_not_inRange hi, hi]

theorem lt_of_checked (h : checked i n = some p) : p < n := by
  obtain ⟨⟨hlo, hhi⟩, hp⟩ := checked_eq_some.1 h
  unfold raised at hp
  split at hp <;> omega

/-- A position is its own position, as long as it is an index. -/
theorem checked_ofNat (hp : p < n) (hn : (n : Int) ≤ Int64.maxValue.toInt) :
    checked (Int64.ofNat p) n = some p := by
  have hmax : Int64.maxValue.toInt = 2 ^ 63 - 1 := rfl
  have htoInt : (Int64.ofNat p).toInt = p := Int64.toInt_ofNat_of_lt (by omega)
  rw [checked_eq_some, htoInt]
  exact ⟨⟨by omega, by omega⟩, by simp [raised]⟩

theorem toInt_wrap_eq_raised (hn : (n : Int) ≤ Int64.maxValue.toInt) (i : Int64) :
    (wrap i n).toInt = raised i.toInt n := by
  by_cases hi : i < 0
  · have hneg := (neg_iff_toInt i).1 hi
    rw [toInt_wrap hi, raised, if_neg (by omega), min_eq_left (by omega)]
  · have hfront := mt (neg_iff_toInt i).2 hi
    rw [wrap, if_neg hi, raised, if_pos (by omega)]

end Position

open Machine

/-- Index arithmetic is exact on all indices and lengths of 64 bits, and no step of it overflows. Where
indices can count the length, a position is its own position, and the index that the dispatch makes with
a slot for the length leads to the position that the index means. -/
theorem index_arithmetic_exact (i : Int64) (len : UInt64) :
    (∀ p, Position.checked i len.toNat = some p ↔
      (-(len.toNat : Int) ≤ i.toInt ∧ i.toInt < len.toNat) ∧
        (p : Int) = if 0 ≤ i.toInt then i.toInt else i.toInt + len.toNat) ∧
    (∀ p, Position.checked i len.toNat = some p → p < len.toNat) ∧
    Position.WordsExact i len ∧
    ((len.toNat : Int) ≤ 2 ^ 63 - 1 →
      (∀ p, Position.checked i len.toNat = some p →
        Position.checked (Int64.ofNat p) len.toNat = some p) ∧
      ∀ {υ : SlotKind → Type} (H : Host υ) (m : Machine υ) (table : SequenceTable υ)
        (s : Slot υ .length) (obj : Value), table.length = some s →
        (callLength H s obj : Action υ Failure Nat).run m = .done len.toNat m →
        ∃ j, (wrapIndex H table obj i : Action υ Failure Int64).run m = .done j m ∧
          j.toInt = (if 0 ≤ i.toInt then i.toInt else i.toInt + len.toNat) ∧
          (j < 0 ↔ i.toInt < -(len.toNat : Int)) ∧
          Position.absolute j len.toNat = Position.checked i len.toNat) := by
  refine ⟨fun p => Position.checked_eq_some, fun p => Position.lt_of_checked, Position.wordsExact i len,
    fun hlen => ⟨fun p hp => Position.checked_ofNat (Position.lt_of_checked hp) hlen, ?_⟩⟩
  intro υ H m table s obj hs hlength
  have htoInt : (Position.wrap i len.toNat).toInt = Position.raised i.toInt len.toNat :=
    Position.toInt_wrap_eq_raised hlen i
  refine ⟨_, run_wrapIndex_of_length hs hlength i, htoInt, ?_, Position.absolute_wrap hlen i⟩
  rw [Position.neg_iff_toInt, htoInt, Position.raised]
  split <;> omega

/-- An object of the host that says how long it is, as long as indices can count. -/
def longMachine : Machine HostSlot where
  heap :=
    { slots := #[some ⟨1, .inst ⟨8⟩ [.int Int64.maxValue], 0⟩]
      meter := { limits := {} } }
  registry := .builtins .unicode
  tracer := .silent
  settings := {}

/-- The first position of the longest sequence, counted from the end; the least index is beyond it. -/
theorem index_arithmetic_exact_longest :
    Position.checked (-0x7fffffffffffffff) 0x7fffffffffffffff = some 0 ∧
    Position.checked (Int64.ofNat 0) 0x7fffffffffffffff = some 0 ∧
    Position.WordsExact Int64.minValue 0x7fffffffffffffff ∧
    ∃ j, (wrapIndex (HostSlot.host 0) { length := some (.host .fieldLength) } (.ref ⟨0⟩)
        Int64.minValue : Action HostSlot Failure Int64).run longMachine = .done j longMachine ∧
      j.toInt = -1 ∧ Position.absolute j 0x7fffffffffffffff = none := by
  have hfirst : Position.checked (-0x7fffffffffffffff) 0x7fffffffffffffff = some 0 := by decide
  have hnone : Position.checked Int64.minValue 0x7fffffffffffffff = none := by decide
  have hlength : (callLength (HostSlot.host 0) (.host .fieldLength) (.ref ⟨0⟩) :
      Action HostSlot Failure Nat).run longMachine = .done 0x7fffffffffffffff longMachine := rfl
  obtain ⟨-, -, -, hagain⟩ := index_arithmetic_exact (-0x7fffffffffffffff) 0x7fffffffffffffff
  obtain ⟨-, -, hwords, hroute⟩ := index_arithmetic_exact Int64.minValue 0x7fffffffffffffff
  obtain ⟨j, hj, htoInt, -, habsolute⟩ :=
    (hroute (by decide)).2 (HostSlot.host 0) longMachine { length := some (.host .fieldLength) } _ _ rfl
      hlength
  exact ⟨hfirst, (hagain (by decide)).1 0 hfirst, hwords, j, hj, htoInt, habsolute.trans hnone⟩

end ItemAccess
