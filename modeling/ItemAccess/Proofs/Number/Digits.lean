import Mathlib.Algebra.Ring.Nat
import Mathlib.Data.List.Basic
import Mathlib.Data.List.Induction

/-!
# Decimal digit strings

A natural number is written without a zero in front, and a digit string without a zero in front is what
is written for its value. The value of a digit string is `Nat.ofDigitChars 10`.
-/

namespace ItemAccess.Digits

variable {c : Char} {ds es : List Char} {n : Nat}

theorem exists_digitChar (hc : c.isDigit = true) : ∃ d < 10, c = Nat.digitChar d := by
  obtain ⟨hlo, hhi⟩ := Char.isDigit_iff_toNat.1 hc
  have h0 : '0'.toNat = 48 := rfl
  have h9 : '9'.toNat = 57 := rfl
  refine ⟨c.toNat - 48, by omega, Char.toNat_inj.1 ?_⟩
  rw [Nat.toNat_digitChar_of_lt_ten (by omega)]
  omega

theorem isDigit_toDigits (n : Nat) : ∀ c ∈ Nat.toDigits 10 n, c.isDigit = true :=
  fun _ => Nat.isDigit_of_mem_toDigits (by decide) (by decide)

/-- Only zero is written with a zero in front. -/
theorem head_toDigits (hn : 0 < n) : (Nat.toDigits 10 n).head? ≠ some '0' := by
  induction n using Nat.strongRecOn with
  | ind n ih =>
    by_cases hlt : n < 10
    · rw [Nat.toDigits_of_lt_base hlt, List.head?_cons, ne_eq, Option.some.injEq, Nat.digitChar_eq_zero]
      omega
    · rw [Nat.toDigits_of_base_le (by decide) (by omega),
        List.head?_append_of_ne_nil _ Nat.toDigits_ne_nil]
      exact ih (n / 10) (by omega) (by omega)

theorem value_append (ds es : List Char) :
    Nat.ofDigitChars 10 (ds ++ es) 0 =
      Nat.ofDigitChars 10 ds 0 * 10 ^ es.length + Nat.ofDigitChars 10 es 0 := by
  rw [Nat.ofDigitChars_append, Nat.ofDigitChars_eq_ofDigitChars_zero, Nat.mul_comm]

theorem value_snoc_digitChar (ds : List Char) {d : Nat} (hd : d < 10) :
    Nat.ofDigitChars 10 (ds ++ [Nat.digitChar d]) 0 = 10 * Nat.ofDigitChars 10 ds 0 + d := by
  rw [Nat.ofDigitChars_append, Nat.ofDigitChars_cons_digitChar_of_lt_ten hd, Nat.ofDigitChars_nil]

/-- The induction is on the last digit, as numbers are written. -/
theorem toDigits_value (hds : ∀ c ∈ ds, c.isDigit = true) (hne : ds ≠ [])
    (hhead : ds.head? ≠ some '0') :
    0 < Nat.ofDigitChars 10 ds 0 ∧ Nat.toDigits 10 (Nat.ofDigitChars 10 ds 0) = ds := by
  induction ds using List.reverseRecOn with
  | nil => exact absurd rfl hne
  | append_singleton ds c ih =>
    obtain ⟨d, hd, rfl⟩ := exists_digitChar (hds c (by simp))
    rw [value_snoc_digitChar ds hd]
    by_cases hnil : ds = []
    · subst hnil
      have hpos : 0 < d := by
        rw [List.nil_append, List.head?_cons, ne_eq, Option.some.injEq, Nat.digitChar_eq_zero] at hhead
        omega
      simp only [Nat.ofDigitChars_nil, Nat.mul_zero, Nat.zero_add, List.nil_append]
      exact ⟨hpos, Nat.toDigits_of_lt_base hd⟩
    · rw [List.head?_append_of_ne_nil _ hnil] at hhead
      obtain ⟨hpos, hwritten⟩ := ih (fun c hc => hds c (by simp [hc])) hnil hhead
      refine ⟨by omega, ?_⟩
      rw [← Nat.toDigits_append_toDigits (by decide) hpos hd, hwritten, Nat.toDigits_of_lt_base hd]

/-- A digit string that does not end in a zero has a value that ten does not divide. -/
theorem value_mod_ten (hds : ∀ c ∈ ds, c.isDigit = true) (hne : ds ≠ [])
    (hlast : ds.getLast? ≠ some '0') : Nat.ofDigitChars 10 ds 0 % 10 ≠ 0 := by
  induction ds using List.reverseRecOn with
  | nil => exact absurd rfl hne
  | append_singleton ds c _ =>
    obtain ⟨d, hd, rfl⟩ := exists_digitChar (hds c (by simp))
    rw [List.getLast?_append_of_ne_nil _ (by simp), List.getLast?_singleton, ne_eq, Option.some.injEq,
      Nat.digitChar_eq_zero] at hlast
    rw [value_snoc_digitChar ds hd]
    omega

end ItemAccess.Digits
