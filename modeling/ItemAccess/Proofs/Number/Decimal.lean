import ItemAccess.Number.Shortest
import ItemAccess.Proofs.Number.Digits
import Mathlib.Algebra.Order.Field.Rat
import Mathlib.Tactic.Ring

/-!
# Decimals in normal form

A decimal is in normal form when neither its first nor its last digit is a zero, or when it is the one
digit `0` with the exponent zero. Decimals in normal form denote one number only if they are the same.
-/

namespace ItemAccess.Scientific

variable {d d' : Scientific}

/-- A first digit that is a zero is the only digit, and a fraction does not end in a zero. -/
structure Normal (d : Scientific) : Prop where
  isDigit : ∀ c ∈ d.digits, c.isDigit = true
  ne_nil : d.digits ≠ []
  leading : d.digits.head? = some '0' → d.digits = ['0'] ∧ d.exponent = 0
  trailing : 2 ≤ d.digits.length → d.digits.getLast? ≠ some '0'

theorem normal_zero (negative : Bool) : Normal ⟨negative, ['0'], 0⟩ :=
  ⟨by simp, by simp, fun _ => ⟨rfl, rfl⟩, by simp⟩

def significand (d : Scientific) : ℕ :=
  Nat.ofDigitChars 10 d.digits 0

/-- The number `d₁.d₂…dₖ * 10 ^ exponent`. -/
def magnitude (d : Scientific) : ℚ :=
  d.significand / 10 ^ (d.digits.length - 1) * 10 ^ d.exponent

theorem magnitude_eq (d : Scientific) :
    d.magnitude = d.significand * 10 ^ (d.exponent - (d.digits.length - 1 : ℕ)) := by
  rw [magnitude, zpow_sub₀ (by norm_num), zpow_natCast]
  ring

/-- The normal form of zero, and the others. -/
theorem Normal.cases (hd : d.Normal) :
    (d.digits = ['0'] ∧ d.exponent = 0) ∨
      (d.digits.head? ≠ some '0' ∧ d.digits.getLast? ≠ some '0') := by
  by_cases hhead : d.digits.head? = some '0'
  · exact .inl (hd.leading hhead)
  · refine .inr ⟨hhead, ?_⟩
    by_cases hlength : 2 ≤ d.digits.length
    · exact hd.trailing hlength
    · obtain ⟨c, hc⟩ : ∃ c, d.digits = [c] := by
        rw [← List.length_eq_one_iff]
        have := List.length_pos_iff.2 hd.ne_nil
        omega
      rwa [hc, List.head?_cons, ← List.getLast?_singleton, ← hc] at hhead

theorem significand_of_zero (h : d.digits = ['0']) : d.significand = 0 := by
  rw [significand, h]
  rfl

theorem Normal.significand_mod (hd : d.Normal) (hlast : d.digits.getLast? ≠ some '0') :
    d.significand % 10 ≠ 0 :=
  Digits.value_mod_ten hd.isDigit hd.ne_nil hlast

theorem Normal.toDigits_significand (hd : d.Normal) (hhead : d.digits.head? ≠ some '0') :
    Nat.toDigits 10 d.significand = d.digits :=
  (Digits.toDigits_value hd.isDigit hd.ne_nil hhead).2

theorem magnitude_eq_zero : d.magnitude = 0 ↔ d.significand = 0 := by
  rw [magnitude_eq, mul_eq_zero, or_iff_left (zpow_ne_zero _ (by norm_num)), Nat.cast_eq_zero]

/-- A number that ten does not divide, scaled by a power of ten, tells the number and the power. -/
theorem eq_of_scaled_le {m n : ℕ} {a b : ℤ} (hm : m % 10 ≠ 0) (hab : a ≤ b)
    (h : (m : ℚ) * 10 ^ a = n * 10 ^ b) : m = n ∧ a = b := by
  obtain ⟨k, rfl⟩ := Int.le.dest hab
  have hscaled : (m : ℚ) = n * 10 ^ k := by
    rw [zpow_add₀ (by norm_num), zpow_natCast, mul_comm (10 ^ a : ℚ), ← mul_assoc] at h
    exact mul_right_cancel₀ (zpow_ne_zero _ (by norm_num)) h
  have hnat : m = n * 10 ^ k := by exact_mod_cast hscaled
  cases k with
  | zero => simpa using hnat
  | succ k =>
    rw [pow_succ, ← mul_assoc] at hnat
    omega

theorem eq_of_scaled {m n : ℕ} {a b : ℤ} (hm : m % 10 ≠ 0) (hn : n % 10 ≠ 0)
    (h : (m : ℚ) * 10 ^ a = n * 10 ^ b) : m = n ∧ a = b := by
  rcases le_total a b with hab | hba
  · exact eq_of_scaled_le hm hab h
  · obtain ⟨hmn, hab⟩ := eq_of_scaled_le hn hba h.symm
    exact ⟨hmn.symm, hab.symm⟩

/-- Normal forms of one sign and one magnitude are the same. -/
theorem Normal.ext (hd : d.Normal) (hd' : d'.Normal) (hsign : d.negative = d'.negative)
    (hmagnitude : d.magnitude = d'.magnitude) : d = d' := by
  have hfields : d.digits = d'.digits ∧ d.exponent = d'.exponent := by
    rcases hd.cases with ⟨hdigits, hexponent⟩ | ⟨hhead, hlast⟩ <;>
      rcases hd'.cases with ⟨hdigits', hexponent'⟩ | ⟨hhead', hlast'⟩
    · exact ⟨hdigits.trans hdigits'.symm, hexponent.trans hexponent'.symm⟩
    · rw [magnitude_eq_zero.2 (significand_of_zero hdigits), eq_comm, magnitude_eq_zero] at hmagnitude
      exact absurd (by rw [hmagnitude]) (hd'.significand_mod hlast')
    · rw [magnitude_eq_zero.2 (significand_of_zero hdigits'), magnitude_eq_zero] at hmagnitude
      exact absurd (by rw [hmagnitude]) (hd.significand_mod hlast)
    · rw [magnitude_eq, magnitude_eq] at hmagnitude
      obtain ⟨hsignificand, hpower⟩ :=
        eq_of_scaled (hd.significand_mod hlast) (hd'.significand_mod hlast') hmagnitude
      have hdigits : d.digits = d'.digits := by
        rw [← hd.toDigits_significand hhead, ← hd'.toDigits_significand hhead', hsignificand]
      rw [hdigits] at hpower
      exact ⟨hdigits, by omega⟩
  cases d
  cases d'
  obtain ⟨rfl, rfl⟩ := hfields
  obtain rfl := hsign
  rfl

end ItemAccess.Scientific
