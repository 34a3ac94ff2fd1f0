import ItemAccess.Number.Binary64
import Mathlib.Data.EReal.Basic
import Mathlib.Tactic.Positivity
import Mathlib.Tactic.Ring

/-!
# The numbers that bit patterns denote

A finite pattern denotes a dyadic rational, and the infinities are the ends of the extended reals. Two
patterns denote one number only if they are the same, apart from the two zeros; the integers among the
numbers are those that `toInt?` gives.
-/

namespace ItemAccess.Binary64

variable {x y : Binary64}

def magnitude (x : Binary64) : ℚ :=
  x.significand * 2 ^ x.power

def toRat (x : Binary64) : ℚ :=
  if x.negative then -x.magnitude else x.magnitude

def magnitude? (x : Binary64) : Option Nat :=
  match x.power with
  | .ofNat p => some (x.significand * Nat.pow 2 p)
  | .negSucc p =>
    let unit := Nat.pow 2 (p + 1)
    if x.significand % unit = 0 then some (x.significand / unit) else none

/-- The integer that a number equals, if there is one; both zeros equal `0`. -/
def toInt? (x : Binary64) : Option Int :=
  if x.isFinite then
    x.magnitude?.map fun (n : Nat) => if x.negative then -(n : Int) else (n : Int)
  else none

/-- The number that a pattern denotes, unless it is a NaN. -/
noncomputable def toEReal (x : Binary64) : EReal :=
  if x.isFinite then ((x.toRat : ℝ) : EReal) else if x.negative then ⊥ else ⊤

theorem fraction_lt (x : Binary64) : x.fraction < hiddenBit :=
  Nat.mod_lt _ (by decide)

theorem significand_lt (x : Binary64) : x.significand < 2 * hiddenBit := by
  have := x.fraction_lt
  unfold significand
  split <;> omega

/-- Only where the power is least does the hidden bit count for nothing. -/
theorem hiddenBit_le_significand (he : x.exponentField ≠ 0) : hiddenBit ≤ x.significand := by
  simp [significand, he]

/-- Fractions count in units of the least power. -/
theorem power_eq (x : Binary64) : x.power = (x.exponentField - 1 : ℕ) - 1074 := by
  unfold power
  split <;> omega

theorem ext_fields (hsign : x.negative = y.negative) (hexponent : x.exponentField = y.exponentField)
    (hfraction : x.fraction = y.fraction) : x = y := by
  have hx := x.bits.toNat_lt
  have hy := y.bits.toNat_lt
  have hbits : x.bits.toNat = y.bits.toNat := by
    simp only [negative, exponentField, fraction, hiddenBit, decide_eq_decide] at *
    omega
  cases x
  cases y
  exact congrArg mk (UInt64.toNat_inj.1 hbits)

/-- A larger exponent makes a larger number, whatever the fractions. -/
theorem scaled_lt_scaled (he : x.exponentField < y.exponentField) :
    x.significand * 2 ^ (x.exponentField - 1) < y.significand * 2 ^ (y.exponentField - 1) := by
  have hy : hiddenBit ≤ y.significand := hiddenBit_le_significand (by omega)
  by_cases hx : x.exponentField = 0
  · have hfraction := x.fraction_lt
    have hpos : 0 < 2 ^ (y.exponentField - 1) := by positivity
    calc x.significand * 2 ^ (x.exponentField - 1) = x.fraction := by simp [significand, hx]
      _ < hiddenBit * 1 := by omega
      _ ≤ y.significand * 2 ^ (y.exponentField - 1) := Nat.mul_le_mul hy hpos
  · have hpos : 0 < 2 ^ (x.exponentField - 1) := by positivity
    have hexponent : x.exponentField - 1 + 1 ≤ y.exponentField - 1 := by omega
    calc x.significand * 2 ^ (x.exponentField - 1)
        < 2 * hiddenBit * 2 ^ (x.exponentField - 1) :=
          Nat.mul_lt_mul_of_pos_right x.significand_lt hpos
      _ = hiddenBit * 2 ^ (x.exponentField - 1 + 1) := by ring
      _ ≤ y.significand * 2 ^ (y.exponentField - 1) :=
          Nat.mul_le_mul hy (Nat.pow_le_pow_right (by decide) hexponent)

theorem fields_of_scaled
    (h : x.significand * 2 ^ (x.exponentField - 1) = y.significand * 2 ^ (y.exponentField - 1)) :
    x.exponentField = y.exponentField ∧ x.fraction = y.fraction := by
  have he : x.exponentField = y.exponentField := by
    rcases Nat.lt_trichotomy x.exponentField y.exponentField with hlt | heq | hlt
    · exact absurd h (scaled_lt_scaled hlt).ne
    · exact heq
    · exact absurd h (scaled_lt_scaled hlt).ne'
  have hs : x.significand = y.significand := by
    rw [he] at h
    exact Nat.eq_of_mul_eq_mul_right (by positivity) h
  refine ⟨he, ?_⟩
  unfold significand at hs
  rw [he] at hs
  split at hs <;> omega

/-- A magnitude is a whole number of units of the least power. -/
theorem magnitude_eq (x : Binary64) :
    x.magnitude = (x.significand * 2 ^ (x.exponentField - 1) : ℕ) * 2 ^ (-1074 : ℤ) := by
  rw [magnitude, power_eq, sub_eq_add_neg, zpow_add₀ two_ne_zero, zpow_natCast, ← mul_assoc,
    Nat.cast_mul, Nat.cast_pow, Nat.cast_ofNat]

theorem magnitude_inj (h : x.magnitude = y.magnitude) :
    x.exponentField = y.exponentField ∧ x.fraction = y.fraction := by
  rw [magnitude_eq, magnitude_eq] at h
  exact fields_of_scaled (Nat.cast_injective (mul_right_cancel₀ (zpow_ne_zero _ two_ne_zero) h))

theorem magnitude_nonneg (x : Binary64) : 0 ≤ x.magnitude :=
  mul_nonneg (Nat.cast_nonneg _) (zpow_nonneg two_pos.le _)

/-- Apart from zero, a number is denoted by one pattern. -/
theorem toRat_inj (h : x.toRat = y.toRat) (hx : x.toRat ≠ 0) : x = y := by
  have hxpos := x.magnitude_nonneg
  have hypos := y.magnitude_nonneg
  unfold toRat at h hx
  have hsign : x.negative = y.negative := by
    cases hnx : x.negative <;> cases hny : y.negative <;>
      simp only [hnx, hny, if_true, if_false, Bool.false_eq_true] at h hx ⊢
    · exact absurd (by linarith) hx
    · exact absurd (by linarith) hx
  have hmagnitude : x.magnitude = y.magnitude := by
    rw [hsign] at h
    split at h
    · exact neg_injective h
    · exact h
  obtain ⟨hexponent, hfraction⟩ := magnitude_inj hmagnitude
  exact ext_fields hsign hexponent hfraction

theorem magnitude?_eq_some {n : ℕ} : x.magnitude? = some n ↔ x.magnitude = n := by
  unfold magnitude? magnitude
  split
  case h_1 p hp =>
    rw [hp, Int.ofNat_eq_natCast, zpow_natCast, Option.some.injEq]
    norm_cast
  case h_2 p hp =>
    have hunit : (2 : ℚ) ^ (p + 1) ≠ 0 := pow_ne_zero _ two_ne_zero
    rw [hp, zpow_negSucc, ← div_eq_mul_inv, div_eq_iff hunit]
    have hcast : (x.significand : ℚ) = n * 2 ^ (p + 1) ↔ x.significand = n * 2 ^ (p + 1) := by
      norm_cast
    rw [hcast]
    have hpos : 0 < 2 ^ (p + 1) := by positivity
    change (if x.significand % 2 ^ (p + 1) = 0 then some (x.significand / 2 ^ (p + 1)) else none) =
      some n ↔ _
    split
    case isTrue hdiv =>
      rw [Option.some.injEq, Nat.div_eq_iff_eq_mul_left hpos (Nat.dvd_of_mod_eq_zero hdiv)]
    case isFalse hdiv =>
      simp only [reduceCtorEq, false_iff]
      rintro heq
      exact hdiv (by rw [heq]; exact Nat.mul_mod_left _ _)

theorem exists_magnitude? {n : ℤ} : (∃ m : ℕ, x.magnitude? = some m ∧ (m : ℤ) = n) ↔ x.magnitude = n := by
  constructor
  · rintro ⟨m, hm, rfl⟩
    exact_mod_cast magnitude?_eq_some.1 hm
  · intro hn
    have hpos : 0 ≤ n := by exact_mod_cast hn ▸ x.magnitude_nonneg
    lift n to ℕ using hpos
    exact ⟨n, magnitude?_eq_some.2 (by exact_mod_cast hn), rfl⟩

/-- The integers among the finite numbers. -/
theorem toInt?_eq_some (hx : x.isFinite = true) {n : ℤ} : x.toInt? = some n ↔ x.toRat = n := by
  unfold toInt? toRat
  rw [if_pos hx, Option.map_eq_some_iff]
  cases x.negative with
  | false =>
    simp only [Bool.false_eq_true, if_false]
    exact exists_magnitude?
  | true =>
    simp only [if_true, neg_eq_iff_eq_neg, ← Int.cast_neg]
    exact exists_magnitude?

theorem toInt?_of_not_finite (hx : x.isFinite = false) : x.toInt? = none := by
  simp [toInt?, hx]

theorem exponentField_of_not_finite (hx : x.isFinite = false) : x.exponentField = 2047 := by
  simpa [isFinite] using hx

theorem fraction_of_not_finite (hx : x.isFinite = false) (hnan : x.isNaN = false) :
    x.fraction = 0 := by
  simpa [isNaN, exponentField_of_not_finite hx] using hnan

theorem isFinite_of_toEReal {a : ℝ} (h : x.toEReal = a) : x.isFinite = true := by
  by_contra hx
  unfold toEReal at h
  rw [if_neg hx] at h
  split at h <;> simp at h

theorem toEReal_eq_intCast {n : ℤ} : x.toEReal = ((n : ℝ) : EReal) ↔ x.toInt? = some n := by
  constructor
  · intro h
    have hx := isFinite_of_toEReal h
    rw [toInt?_eq_some hx]
    unfold toEReal at h
    rw [if_pos hx, EReal.coe_eq_coe_iff] at h
    exact_mod_cast h
  · intro h
    have hx : x.isFinite = true := by
      by_contra hx
      rw [toInt?_of_not_finite (by simpa using hx)] at h
      cases h
    rw [toInt?_eq_some hx] at h
    simp [toEReal, hx, h]

/-- A number that is no integer is denoted by one pattern. -/
theorem toEReal_inj (hx : x.isNaN = false) (hy : y.isNaN = false) (hint : x.toInt? = none)
    (h : x.toEReal = y.toEReal) : x = y := by
  have hfinite : x.isFinite = y.isFinite := by
    rw [Bool.eq_iff_iff]
    constructor
    · intro hxf
      exact isFinite_of_toEReal (h.symm.trans (if_pos hxf))
    · intro hyf
      exact isFinite_of_toEReal (h.trans (if_pos hyf))
  unfold toEReal at h
  cases hxf : x.isFinite with
  | true =>
    rw [if_pos hxf, if_pos (hfinite ▸ hxf), EReal.coe_eq_coe_iff, Rat.cast_inj] at h
    refine toRat_inj h fun hzero => ?_
    rw [(toInt?_eq_some hxf).2 (hzero.trans Int.cast_zero.symm)] at hint
    cases hint
  | false =>
    have hyf : y.isFinite = false := hfinite ▸ hxf
    have hsign : x.negative = y.negative := by
      cases hnx : x.negative <;> cases hny : y.negative <;> simp [hxf, hyf, hnx, hny] at h ⊢
    apply ext_fields hsign
    · rw [exponentField_of_not_finite hxf, exponentField_of_not_finite hyf]
    · rw [fraction_of_not_finite hxf hx, fraction_of_not_finite hyf hy]

end ItemAccess.Binary64
