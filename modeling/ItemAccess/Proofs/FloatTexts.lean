import ItemAccess.Number.Layout
import ItemAccess.Proofs.Number.Shortest
import Mathlib.Data.Nat.PSub
import Mathlib.Tactic.FieldSimp

/-!
# The texts of floats denote their decimals

A reader of decimal numerals is defined here, from the rules of numerals alone: digits, perhaps a point
and digits after it, perhaps an `e` with a sign and digits, perhaps a minus in front of all. What it reads
from the text of a decimal in normal form is the sign and the magnitude of that decimal, wherever the
point was put. So the texts of different shortest decimals differ.
-/

namespace ItemAccess

namespace Numeral

def IsDigits (s : List Char) : Prop :=
  s ≠ [] ∧ ∀ c ∈ s, c.isDigit = true

instance (s : List Char) : Decidable (IsDigits s) :=
  decidable_of_iff (s ≠ [] ∧ s.all Char.isDigit = true) (by simp [IsDigits])

def natural? (s : List Char) : Option ℕ :=
  if IsDigits s then some (Nat.ofDigitChars 10 s 0) else none

/-- The number that digits denote, with or without a point between them. -/
def plain? (s : List Char) : Option ℚ :=
  match s.dropWhile (· ≠ '.') with
  | [] => (natural? s).map fun n : ℕ => (n : ℚ)
  | _ :: fraction =>
    (natural? (s.takeWhile (· ≠ '.'))).bind fun n : ℕ =>
      (natural? fraction).map fun f : ℕ => (n : ℚ) + f / 10 ^ fraction.length

def exponent? : List Char → Option ℤ
  | '+' :: s => (natural? s).map fun n : ℕ => (n : ℤ)
  | '-' :: s => (natural? s).map fun n : ℕ => -(n : ℤ)
  | _ => none

def unsigned? (s : List Char) : Option ℚ :=
  match s.dropWhile (· ≠ 'e') with
  | [] => plain? s
  | _ :: exponent =>
    (plain? (s.takeWhile (· ≠ 'e'))).bind fun q => (exponent? exponent).map fun e => q * 10 ^ e

def read? : List Char → Option (Bool × ℚ)
  | '-' :: s => (unsigned? s).map (true, ·)
  | s => (unsigned? s).map (false, ·)

/-- Digits on both sides of one point, and the number that they denote: their value, taken together,
divided by a power of ten. -/
def Pointed (s : List Char) (q : ℚ) : Prop :=
  ∃ whole fraction, s = whole ++ '.' :: fraction ∧ IsDigits whole ∧ IsDigits fraction ∧
    (Nat.ofDigitChars 10 (whole ++ fraction) 0 : ℚ) / 10 ^ fraction.length = q

def Fixed (s : List Char) : Prop :=
  ∃ whole fraction, s = whole ++ '.' :: fraction ∧ IsDigits whole ∧ IsDigits fraction

def Mantissa (s : List Char) : Prop :=
  ∃ first, first.isDigit = true ∧
    (s = [first] ∨ ∃ fraction, s = first :: '.' :: fraction ∧ IsDigits fraction)

/-- A mantissa, an `e`, a sign and at least two digits. -/
def Scaled (s : List Char) : Prop :=
  ∃ mantissa sign exponent, s = mantissa ++ 'e' :: sign :: exponent ∧ Mantissa mantissa ∧
    (sign = '+' ∨ sign = '-') ∧ 2 ≤ exponent.length ∧ ∀ c ∈ exponent, c.isDigit = true

variable {s mantissa exponent : List Char}

theorem natural?_of_isDigits (hs : IsDigits s) : natural? s = some (Nat.ofDigitChars 10 s 0) :=
  if_pos hs

/-- A mark that is no digit does not occur among digits. -/
theorem IsDigits.ne (hs : IsDigits s) {mark : Char} (hmark : mark.isDigit = false) :
    ∀ c ∈ s, decide (c ≠ mark) = true := by
  intro c hc
  have hdigit := hs.2 c hc
  simp only [decide_eq_true_eq]
  rintro rfl
  simp [hmark] at hdigit

/-- What stands before a mark, and the mark with what stands after it. -/
theorem split_at_mark {mark : Char} (hs : ∀ c ∈ s, decide (c ≠ mark) = true) (rest : List Char) :
    (s ++ mark :: rest).takeWhile (· ≠ mark) = s ∧
      (s ++ mark :: rest).dropWhile (· ≠ mark) = mark :: rest := by
  rw [List.takeWhile_append_of_pos hs, List.dropWhile_append_of_pos hs]
  simp

theorem plain?_digits (hs : IsDigits s) : plain? s = some (Nat.ofDigitChars 10 s 0 : ℚ) := by
  have hdrop : s.dropWhile (· ≠ '.') = [] := List.dropWhile_eq_nil_iff.2 (hs.ne rfl)
  rw [plain?, hdrop]
  simp [natural?_of_isDigits hs]

theorem plain?_pointed {q : ℚ} (hs : Pointed s q) : plain? s = some q := by
  obtain ⟨whole, fraction, rfl, hw, hf, rfl⟩ := hs
  obtain ⟨htake, hdrop⟩ := split_at_mark (hw.ne (show '.'.isDigit = false from rfl)) fraction
  rw [plain?, hdrop, htake]
  simp only [natural?_of_isDigits hw, natural?_of_isDigits hf, Option.bind_some, Option.map_some,
    Digits.value_append, Nat.cast_add, Nat.cast_mul, Nat.cast_pow, Nat.cast_ofNat, Option.some.injEq]
  field_simp

theorem unsigned?_plain (hs : ∀ c ∈ s, decide (c ≠ 'e') = true) : unsigned? s = plain? s := by
  rw [unsigned?, List.dropWhile_eq_nil_iff.2 hs]

theorem unsigned?_scaled (hm : ∀ c ∈ mantissa, decide (c ≠ 'e') = true) :
    unsigned? (mantissa ++ 'e' :: exponent) =
      (plain? mantissa).bind fun q => (exponent? exponent).map fun e => q * 10 ^ e := by
  obtain ⟨htake, hdrop⟩ := split_at_mark hm exponent
  rw [unsigned?, hdrop, htake]

/-- A numeral that begins with a digit has no sign. -/
theorem read?_of_digit {c : Char} (hc : c.isDigit = true) :
    read? (c :: s) = (unsigned? (c :: s)).map (false, ·) := by
  have hsign : c ≠ '-' := by
    rintro rfl
    exact absurd hc (by decide)
  simp [read?, hsign]

theorem Pointed.fixed {q : ℚ} (hs : Pointed s q) : Fixed s := by
  obtain ⟨whole, fraction, hs, hw, hf, -⟩ := hs
  exact ⟨whole, fraction, hs, hw, hf⟩

/-- A point is no `e`, and digits are none either. -/
theorem Fixed.ne_e (hs : Fixed s) : ∀ c ∈ s, decide (c ≠ 'e') = true := by
  obtain ⟨whole, fraction, rfl, hw, hf⟩ := hs
  intro c hc
  rw [List.mem_append, List.mem_cons] at hc
  rcases hc with hc | rfl | hc
  · exact hw.ne rfl c hc
  · rfl
  · exact hf.ne rfl c hc

theorem Mantissa.ne_e (hs : Mantissa s) : ∀ c ∈ s, decide (c ≠ 'e') = true := by
  obtain ⟨first, hfirst, rfl | ⟨fraction, rfl, hf⟩⟩ := hs
  · exact IsDigits.ne (s := [first]) ⟨by simp, by simpa using hfirst⟩ rfl
  · exact Fixed.ne_e ⟨[first], fraction, rfl, ⟨by simp, by simpa using hfirst⟩, hf⟩

theorem Scaled.not_fixed (hs : Scaled s) : ¬ Fixed s := by
  intro hfixed
  obtain ⟨mantissa, sign, exponent, rfl, -⟩ := hs
  have he := hfixed.ne_e 'e' (by simp)
  simp at he

theorem Fixed.exists_digit (hs : Fixed s) : ∃ c t, s = c :: t ∧ c.isDigit = true := by
  obtain ⟨whole, fraction, rfl, hw, -⟩ := hs
  obtain ⟨c, t, rfl⟩ := List.exists_cons_of_ne_nil hw.1
  exact ⟨c, _, rfl, hw.2 c (by simp)⟩

theorem Scaled.exists_digit (hs : Scaled s) : ∃ c t, s = c :: t ∧ c.isDigit = true := by
  obtain ⟨mantissa, sign, exponent, rfl, ⟨first, hfirst, hm⟩, -⟩ := hs
  rcases hm with rfl | ⟨fraction, rfl, -⟩
  · exact ⟨first, _, rfl, hfirst⟩
  · exact ⟨first, _, rfl, hfirst⟩

end Numeral

namespace Scientific

open Numeral

variable {d d' : Scientific} {n : ℕ}

theorem Normal.isDigits (hd : d.Normal) : IsDigits d.digits :=
  ⟨hd.ne_nil, hd.isDigit⟩

theorem isDigit_replicate_zero (n : ℕ) : ∀ c ∈ List.replicate n '0', c.isDigit = true := by
  intro c hc
  rw [List.eq_of_mem_replicate hc]
  rfl

theorem value_zeros_append (n : ℕ) (s : List Char) :
    Nat.ofDigitChars 10 (List.replicate n '0' ++ s) 0 = Nat.ofDigitChars 10 s 0 := by
  rw [Digits.value_append, Nat.ofDigitChars_replicate_zero]
  simp

theorem value_append_zeros (n : ℕ) (s : List Char) :
    Nat.ofDigitChars 10 (s ++ List.replicate n '0') 0 = Nat.ofDigitChars 10 s 0 * 10 ^ n := by
  rw [Digits.value_append, Nat.ofDigitChars_replicate_zero, List.length_replicate]
  simp

/-- The point stands among the digits. -/
theorem Normal.pointed_inside (hd : d.Normal) (he : d.exponent = n) (hn : n + 1 < d.digits.length) :
    Pointed (d.digits.take (n + 1) ++ '.' :: d.digits.drop (n + 1)) d.magnitude := by
  refine ⟨_, _, rfl, ⟨?_, ?_⟩, ⟨?_, ?_⟩, ?_⟩
  · exact List.ne_nil_of_length_pos (by rw [List.length_take]; omega)
  · exact fun c hc => hd.isDigit c (List.mem_of_mem_take hc)
  · exact List.ne_nil_of_length_pos (by rw [List.length_drop]; omega)
  · exact fun c hc => hd.isDigit c (List.mem_of_mem_drop hc)
  · obtain ⟨r, hr⟩ : ∃ r, d.digits.length = r + n + 1 := ⟨d.digits.length - (n + 1), by omega⟩
    have hdrop : (d.digits.drop (n + 1)).length = r := by
      rw [List.length_drop]
      omega
    rw [magnitude, he, hdrop, List.take_append_drop, hr, zpow_natCast, Nat.add_sub_cancel, pow_add,
      significand]
    field_simp

/-- The point stands behind the digits, after zeros that bring them up to it. -/
theorem Normal.pointed_behind (hd : d.Normal) (he : d.exponent = n) (hn : ¬ n + 1 < d.digits.length) :
    Pointed (d.digits ++ List.replicate (n + 1 - d.digits.length) '0' ++ ['.', '0']) d.magnitude := by
  have hlength := List.length_pos_iff.2 hd.ne_nil
  refine ⟨d.digits ++ List.replicate (n + 1 - d.digits.length) '0', ['0'], rfl, ⟨?_, ?_⟩, by decide, ?_⟩
  · exact List.append_ne_nil_of_left_ne_nil hd.ne_nil _
  · intro c hc
    rcases List.mem_append.1 hc with hc | hc
    · exact hd.isDigit c hc
    · exact isDigit_replicate_zero _ c hc
  · obtain ⟨k, hk⟩ : ∃ k, d.digits.length = k + 1 := ⟨d.digits.length - 1, by omega⟩
    obtain ⟨z, hz⟩ : ∃ z, n = z + k := ⟨n - k, by omega⟩
    have hzeros : n + 1 - d.digits.length = z := by omega
    rw [magnitude, he, hzeros, hk, hz, zpow_natCast, Nat.add_sub_cancel, pow_add, List.append_assoc,
      ← List.replicate_succ', value_append_zeros, List.length_singleton, significand]
    push_cast
    field_simp
    ring

/-- The point stands in front of the digits, before zeros that bring them up to it. -/
theorem Normal.pointed_before (hd : d.Normal) (he : d.exponent = Int.negSucc n) :
    Pointed ('0' :: '.' :: List.replicate n '0' ++ d.digits) d.magnitude := by
  have hlength := List.length_pos_iff.2 hd.ne_nil
  refine ⟨['0'], List.replicate n '0' ++ d.digits, rfl, by decide, ⟨?_, ?_⟩, ?_⟩
  · exact List.append_ne_nil_of_right_ne_nil _ hd.ne_nil
  · intro c hc
    rcases List.mem_append.1 hc with hc | hc
    · exact isDigit_replicate_zero _ c hc
    · exact hd.isDigit c hc
  · obtain ⟨k, hk⟩ : ∃ k, d.digits.length = k + 1 := ⟨d.digits.length - 1, by omega⟩
    have hplaces : (List.replicate n '0' ++ d.digits).length = k + (n + 1) := by
      rw [List.length_append, List.length_replicate]
      omega
    rw [magnitude, he, hplaces, hk, ← List.append_assoc, ← List.replicate_one, ← List.replicate_add,
      value_zeros_append, Nat.add_sub_cancel, zpow_negSucc, pow_add, significand]
    field_simp

/-- Wherever the point is put, the digits on both sides denote the magnitude. -/
theorem Normal.pointed_positional (hd : d.Normal) : Pointed d.positional d.magnitude := by
  unfold positional
  split
  · next n he =>
    split
    · next hn => exact hd.pointed_inside he hn
    · next hn => exact hd.pointed_behind he hn
  · next n he => exact hd.pointed_before he

/-- The point stands behind the first digit, if there are others. -/
theorem Normal.mantissa_cases (hd : d.Normal) :
    Mantissa d.mantissa ∧
      plain? d.mantissa = some (d.significand / 10 ^ (d.digits.length - 1) : ℚ) := by
  have hdigits := hd.isDigits
  unfold mantissa significand
  split
  · next first second rest h =>
    rw [h] at hdigits ⊢
    have hfirst : IsDigits [first] := ⟨by simp, fun c hc => hdigits.2 c (by simp_all)⟩
    have hrest : IsDigits (second :: rest) := ⟨by simp, fun c hc => hdigits.2 c (by simp_all)⟩
    refine ⟨⟨first, hfirst.2 first (by simp), .inr ⟨_, rfl, hrest⟩⟩, plain?_pointed ?_⟩
    exact ⟨[first], second :: rest, rfl, hfirst, hrest, rfl⟩
  · next hshort =>
    obtain ⟨first, rest, h⟩ := List.exists_cons_of_ne_nil hdigits.1
    obtain rfl : rest = [] := by
      cases rest with
      | nil => rfl
      | cons second rest => exact absurd h (hshort first second rest)
    rw [h] at hdigits ⊢
    refine ⟨⟨first, hdigits.2 first (by simp), .inl rfl⟩, ?_⟩
    rw [plain?_digits hdigits]
    simp

theorem exponentText_eq (e : ℤ) :
    exponentText e = (if e < 0 then '-' else '+') ::
      (List.replicate (2 - (Nat.toDigits 10 e.natAbs).length) '0' ++ Nat.toDigits 10 e.natAbs) := rfl

theorem isDigits_exponent (e : ℤ) :
    IsDigits (List.replicate (2 - (Nat.toDigits 10 e.natAbs).length) '0' ++ Nat.toDigits 10 e.natAbs) := by
  refine ⟨List.append_ne_nil_of_right_ne_nil _ Nat.toDigits_ne_nil, fun c hc => ?_⟩
  rcases List.mem_append.1 hc with hc | hc
  · exact isDigit_replicate_zero _ c hc
  · exact Digits.isDigit_toDigits _ c hc

theorem exponent?_exponentText (e : ℤ) : exponent? (exponentText e) = some e := by
  have hvalue := natural?_of_isDigits (isDigits_exponent e)
  rw [value_zeros_append, Nat.ofDigitChars_ten_toDigits] at hvalue
  rw [exponentText_eq]
  by_cases he : e < 0
  · rw [if_pos he, exponent?, hvalue, Option.map_some, Option.some.injEq]
    omega
  · rw [if_neg he, exponent?, hvalue, Option.map_some, Option.some.injEq]
    omega

theorem Normal.scaled (hd : d.Normal) : Scaled (d.mantissa ++ 'e' :: exponentText d.exponent) := by
  rw [exponentText_eq]
  refine ⟨_, _, _, rfl, hd.mantissa_cases.1, ?_, ?_, (isDigits_exponent d.exponent).2⟩
  · split
    · exact .inr rfl
    · exact .inl rfl
  · rw [List.length_append, List.length_replicate]
    omega

theorem isPositional_iff : d.isPositional = true ↔ -4 ≤ d.exponent ∧ d.exponent < 16 := by
  simp [isPositional]

/-- A text has one of two shapes, as its exponent says. -/
theorem Normal.unsignedText_cases (hd : d.Normal) :
    (d.isPositional = true ∧ Fixed d.unsignedText) ∨
      (d.isPositional = false ∧ Scaled d.unsignedText) := by
  unfold unsignedText
  cases d.isPositional with
  | true => exact .inl ⟨rfl, hd.pointed_positional.fixed⟩
  | false => exact .inr ⟨rfl, hd.scaled⟩

theorem Normal.fixed_iff (hd : d.Normal) :
    Fixed d.unsignedText ↔ -4 ≤ d.exponent ∧ d.exponent < 16 := by
  rw [← isPositional_iff]
  rcases hd.unsignedText_cases with ⟨hpositional, hfixed⟩ | ⟨hpositional, hscaled⟩
  · simp [hpositional, hfixed]
  · simp [hpositional, hscaled.not_fixed]

theorem Normal.scaled_iff (hd : d.Normal) :
    Scaled d.unsignedText ↔ ¬ (-4 ≤ d.exponent ∧ d.exponent < 16) := by
  rw [← hd.fixed_iff]
  refine ⟨Scaled.not_fixed, fun hnot => ?_⟩
  rcases hd.unsignedText_cases with ⟨-, hfixed⟩ | ⟨-, hscaled⟩
  · exact absurd hfixed hnot
  · exact hscaled

theorem Normal.unsigned?_unsignedText (hd : d.Normal) :
    unsigned? d.unsignedText = some d.magnitude := by
  unfold unsignedText
  split
  · have hpointed := hd.pointed_positional
    rw [unsigned?_plain hpointed.fixed.ne_e, plain?_pointed hpointed]
  · obtain ⟨hmantissa, hplain⟩ := hd.mantissa_cases
    rw [unsigned?_scaled hmantissa.ne_e, hplain, exponent?_exponentText]
    rfl

theorem Normal.unsignedText_eq_cons (hd : d.Normal) :
    ∃ c t, d.unsignedText = c :: t ∧ c.isDigit = true := by
  rcases hd.unsignedText_cases with ⟨-, hfixed⟩ | ⟨-, hscaled⟩
  · exact hfixed.exists_digit
  · exact hscaled.exists_digit

theorem text_eq (d : Scientific) : d.text = (if d.negative then ['-'] else []) ++ d.unsignedText := by
  unfold text
  split <;> rfl

theorem Normal.read?_text (hd : d.Normal) : read? d.text = some (d.negative, d.magnitude) := by
  have hread := hd.unsigned?_unsignedText
  obtain ⟨c, t, htext, hc⟩ := hd.unsignedText_eq_cons
  unfold text
  cases d.negative with
  | true => rw [if_pos rfl, read?, hread, Option.map_some]
  | false => rw [if_neg Bool.false_ne_true, htext, read?_of_digit hc, ← htext, hread, Option.map_some]

/-- Different decimals have different texts. -/
theorem Normal.text_inj (hd : d.Normal) (hd' : d'.Normal) (h : d.text = d'.text) : d = d' := by
  have hread := hd.read?_text
  rw [h, hd'.read?_text, Option.some.injEq, Prod.mk.injEq] at hread
  exact hd.ext hd' hread.1.symm hread.2.symm

def int32? (n : ℤ) : Option ℤ :=
  if -2 ^ 31 ≤ n ∧ n < 2 ^ 31 then some n else none

/-- The positional text, with every subtraction watched: none goes below zero or leaves its 32 bits. -/
def positional? (d : Scientific) : Option (List Char) :=
  match d.exponent with
  | .ofNat n =>
    if n + 1 < d.digits.length then some (d.digits.take (n + 1) ++ '.' :: d.digits.drop (n + 1))
    else (Nat.psub (n + 1) d.digits.length).map fun zeros =>
      d.digits ++ List.replicate zeros '0' ++ ['.', '0']
  | .negSucc n =>
    (int32? (-Int.negSucc n)).bind fun opposite =>
      (int32? (opposite - 1)).bind fun below =>
        below.toNat?.map fun zeros => '0' :: '.' :: List.replicate zeros '0' ++ d.digits

theorem positional?_eq (h : d.isPositional = true) : d.positional? = some d.positional := by
  obtain ⟨hlo, hhi⟩ := isPositional_iff.1 h
  unfold positional? positional
  cases he : d.exponent with
  | ofNat n =>
    by_cases hn : n + 1 < d.digits.length
    · simp only [if_pos hn]
    · simp only [if_neg hn, Nat.psub_eq_sub (not_lt.1 hn), Option.map_some]
  | negSucc n =>
    rw [he] at hlo
    have hopposite : int32? (-Int.negSucc n) = some ((n : ℤ) + 1) := if_pos ⟨by omega, by omega⟩
    have hbelow : int32? ((n : ℤ) + 1 - 1) = some (n : ℤ) := by
      rw [add_sub_cancel_right]
      exact if_pos ⟨by omega, by omega⟩
    simp only [hopposite, hbelow, Option.bind_some]
    rfl

end Scientific

theorem Binary64.text_of_finite {x : Binary64} (hx : x.isFinite = true) :
    x.text = String.ofList x.scientific.text := by
  have hexponent : x.exponentField ≠ 2047 := by simpa [isFinite] using hx
  simp [text, isNaN, isInfinite, hexponent]

/-- The text of a decimal in normal form denotes it. It has a point between digits exactly if the
exponent is at least -4 and below 16, and else a mantissa and an exponent; where it has the point, no
subtraction on the way goes below zero. The shortest decimals of finite floats are in normal form, and
floats with different ones have different texts. -/
theorem float_texts_denote_decimals :
    (∀ d : Scientific, d.Normal →
      Numeral.read? d.text = some (d.negative, d.magnitude) ∧
      d.text = (if d.negative then ['-'] else []) ++ d.unsignedText ∧
      (Numeral.Fixed d.unsignedText ↔ -4 ≤ d.exponent ∧ d.exponent < 16) ∧
      (Numeral.Scaled d.unsignedText ↔ ¬ (-4 ≤ d.exponent ∧ d.exponent < 16)) ∧
      (-4 ≤ d.exponent ∧ d.exponent < 16 → d.positional? = some d.unsignedText)) ∧
    (∀ x : Binary64, x.isFinite = true →
      x.scientific.Normal ∧ x.text = String.ofList x.scientific.text) ∧
    ∀ x y : Binary64, x.isFinite = true → y.isFinite = true → x.scientific ≠ y.scientific →
      x.text ≠ y.text := by
  refine ⟨fun d hd => ⟨hd.read?_text, d.text_eq, hd.fixed_iff, hd.scaled_iff, fun h => ?_⟩,
    fun x hx => ⟨x.normal_scientific, Binary64.text_of_finite hx⟩, fun x y hx hy hne htext => ?_⟩
  · have hpositional := Scientific.isPositional_iff.2 h
    rw [Scientific.positional?_eq hpositional, Scientific.unsignedText, if_pos hpositional]
  · rw [Binary64.text_of_finite hx, Binary64.text_of_finite hy, String.ofList_inj] at htext
    exact hne (x.normal_scientific.text_inj y.normal_scientific htext)

/-- A decimal right below the range of positional texts, and the two zeros. -/
theorem float_texts_denote_decimals_small :
    Scientific.Normal ⟨true, ['1', '5'], -5⟩ ∧
    Numeral.read? "-1.5e-05".toList = some (true, 15 / 1000000) ∧
    Numeral.Scaled "1.5e-05".toList ∧ ¬ Numeral.Fixed "1.5e-05".toList ∧
    (Binary64.mk 0).scientific ≠ (Binary64.mk 0x8000000000000000).scientific ∧
    (Binary64.mk 0).text ≠ (Binary64.mk 0x8000000000000000).text := by
  have hnormal : Scientific.Normal ⟨true, ['1', '5'], -5⟩ := ⟨by simp, by decide, by decide, by decide⟩
  have hmagnitude : (Scientific.mk true ['1', '5'] (-5)).magnitude = 15 / 1000000 := by
    have hsignificand : (Scientific.mk true ['1', '5'] (-5)).significand = 15 := rfl
    rw [Scientific.magnitude, hsignificand]
    norm_num
  have hzeros : (Binary64.mk 0).scientific ≠ (Binary64.mk 0x8000000000000000).scientific := by
    rw [Binary64.scientific, Binary64.scientific, if_pos (by decide), if_pos (by decide)]
    decide
  obtain ⟨hdecimals, -, hfloats⟩ := float_texts_denote_decimals
  obtain ⟨hread, -, hfixed, hscaled, -⟩ := hdecimals _ hnormal
  rw [hmagnitude] at hread
  exact ⟨hnormal, hread, hscaled.2 (by decide), mt hfixed.1 (by decide), hzeros,
    hfloats _ _ (by decide) (by decide) hzeros⟩

end ItemAccess
