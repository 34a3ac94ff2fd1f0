import ItemAccess.Object.Key
import ItemAccess.Proofs.Number.Exact
import ItemAccess.Proofs.Object.Position

/-!
# Whole numbers by their bits

Patterns compare as the numbers they denote. A finite pattern denotes an integer just if rounding towards
zero leaves it as it is, and the integer is then its whole part. Of the ends of the range of indices the
lower one is a floating-point number and the upper one is rounded to the first integer above the range, so
the two comparisons tell exactly the integers that fit, and the conversion that stops at the ends of the
range never has to.
-/

namespace ItemAccess

namespace Binary64

variable {x y : Binary64}

theorem distance_eq (x : Binary64) :
    x.bits.toNat % 0x8000000000000000 = x.exponentField * hiddenBit + x.fraction := by
  unfold exponentField fraction hiddenBit
  omega

theorem magnitude_strictMono
    (h : x.bits.toNat % 0x8000000000000000 < y.bits.toNat % 0x8000000000000000) :
    x.magnitude < y.magnitude := by
  rw [distance_eq, distance_eq] at h
  have hx := x.fraction_lt
  have hy := y.fraction_lt
  rw [magnitude_eq, magnitude_eq]
  refine mul_lt_mul_of_pos_right (Nat.cast_lt.2 ?_) (zpow_pos two_pos _)
  rcases Nat.lt_trichotomy x.exponentField y.exponentField with he | he | he
  · exact scaled_lt_scaled he
  · have hfraction : x.fraction < y.fraction := by
      rw [he] at h
      omega
    have hsignificand : x.significand < y.significand := by
      unfold significand
      rw [he]
      split <;> omega
    rw [he]
    exact Nat.mul_lt_mul_of_pos_right hsignificand (by positivity)
  · have hstep : (y.exponentField + 1) * hiddenBit ≤ x.exponentField * hiddenBit :=
      Nat.mul_le_mul_right _ he
    rw [Nat.add_mul, Nat.one_mul] at hstep
    omega

theorem magnitude_congr
    (h : x.bits.toNat % 0x8000000000000000 = y.bits.toNat % 0x8000000000000000) :
    x.magnitude = y.magnitude := by
  have hexponent : x.exponentField = y.exponentField := by
    unfold exponentField hiddenBit
    omega
  have hfraction : x.fraction = y.fraction := by
    unfold fraction hiddenBit
    omega
  rw [magnitude_eq, magnitude_eq, significand, significand, hexponent, hfraction]

theorem magnitude_le_magnitude : x.magnitude ≤ y.magnitude ↔
    x.bits.toNat % 0x8000000000000000 ≤ y.bits.toNat % 0x8000000000000000 := by
  constructor
  · intro h
    by_contra hlt
    exact absurd (magnitude_strictMono (Nat.lt_of_not_le hlt)) (not_lt_of_ge h)
  · intro h
    rcases Nat.lt_or_eq_of_le h with hlt | heq
    · exact (magnitude_strictMono hlt).le
    · exact (magnitude_congr heq).le

theorem magnitude_eq_zero : x.magnitude = 0 ↔ x.bits.toNat % 0x8000000000000000 = 0 := by
  have hzero : (⟨0⟩ : Binary64).magnitude = 0 := by simp [magnitude, significand, exponentField, fraction]
  have hle := magnitude_le_magnitude (x := x) (y := ⟨0⟩)
  rw [hzero] at hle
  rw [le_antisymm_iff, and_iff_left x.magnitude_nonneg, hle]
  exact Nat.le_zero

/-- Both zeros have the rank of zero, so that they are at once below and above each other. -/
theorem rank_le_rank : x.rank ≤ y.rank ↔ x.toRat ≤ y.toRat := by
  have hle := magnitude_le_magnitude (x := x) (y := y)
  have hge := magnitude_le_magnitude (x := y) (y := x)
  have hx := magnitude_eq_zero (x := x)
  have hy := magnitude_eq_zero (x := y)
  have hxpos := x.magnitude_nonneg
  have hypos := y.magnitude_nonneg
  unfold rank toRat
  cases x.negative <;> cases y.negative <;> simp only [if_true, if_false, Bool.false_eq_true]
  · rw [hle]
    omega
  · constructor
    · intro h
      rw [hx.2 (by omega), hy.2 (by omega), neg_zero]
    · intro h
      have := hx.1 (by linarith)
      have := hy.1 (by linarith)
      omega
  · exact iff_of_true (by omega) (by linarith)
  · rw [neg_le_neg_iff, neg_le_neg_iff, hge]
    omega

theorem isNaN_of_isFinite (hx : x.isFinite = true) : x.isNaN = false := by
  simp only [isFinite, bne_iff_ne] at hx
  simp [isNaN, hx]

theorem le_iff (hx : x.isFinite = true) (hy : y.isFinite = true) :
    x.le y = true ↔ x.toRat ≤ y.toRat := by
  simp [le, isNaN_of_isFinite hx, isNaN_of_isFinite hy, rank_le_rank]

theorem lt_iff (hx : x.isFinite = true) (hy : y.isFinite = true) :
    x.lt y = true ↔ x.toRat < y.toRat := by
  rw [← not_le, ← rank_le_rank]
  simp [lt, isNaN_of_isFinite hx, isNaN_of_isFinite hy]

theorem trunc_eq_self : x.trunc = x ↔ x.bits.toNat % 2 ^ x.bitsBelowOne = 0 := by
  have hlt := x.bits.toNat_lt
  have hdiv : x.bits.toNat / 2 ^ x.bitsBelowOne * 2 ^ x.bitsBelowOne ≤ x.bits.toNat :=
    Nat.div_mul_le_self _ _
  have hbits : x.trunc.bits.toNat = x.bits.toNat / 2 ^ x.bitsBelowOne * 2 ^ x.bitsBelowOne :=
    UInt64.toNat_ofNat_of_lt' (hdiv.trans_lt hlt)
  have hparts := Nat.div_add_mod' x.bits.toNat (2 ^ x.bitsBelowOne)
  constructor
  · intro h
    rw [h] at hbits
    omega
  · intro h
    have hsame : x.trunc.bits = x.bits := UInt64.toNat_inj.1 (by omega)
    exact congrArg mk hsame

theorem distance_of_isZero (hx : x.isZero = true) : x.bits.toNat % 0x8000000000000000 = 0 := by
  simp only [isZero, Bool.and_eq_true, beq_iff_eq] at hx
  rw [← magnitude_eq_zero, magnitude, hx.2, Nat.cast_zero, zero_mul]

theorem mod_bitsBelowOne_of_distance (h : x.bits.toNat % 0x8000000000000000 = 0) :
    x.bits.toNat % 2 ^ x.bitsBelowOne = 0 := by
  have hexponent : x.exponentField = 0 := by
    unfold exponentField hiddenBit
    omega
  simpa [bitsBelowOne, hexponent] using h

theorem hasFraction_eq_false (hx : x.isFinite = true) :
    x.hasFraction = false ↔ x.bits.toNat % 2 ^ x.bitsBelowOne = 0 := by
  have hnan := isNaN_of_isFinite hx
  unfold hasFraction sameNumber
  constructor
  · intro h
    simp only [Bool.not_eq_false', Bool.and_eq_true, Bool.or_eq_true, beq_iff_eq] at h
    obtain ⟨-, hsame | ⟨hzero, -⟩⟩ := h
    · exact trunc_eq_self.1 hsame.symm
    · exact mod_bitsBelowOne_of_distance (distance_of_isZero hzero)
  · intro h
    simp [trunc_eq_self.2 h, hnan]

/-- Bits above the hidden one do not matter for what divides a power of two. -/
theorem significand_mod_iff (he : x.exponentField < 1075) {p : ℕ} (hp : x.power = .negSucc p) :
    x.significand % 2 ^ (p + 1) = 0 ↔ x.bits.toNat % 2 ^ x.bitsBelowOne = 0 := by
  have hfraction := x.fraction_lt
  have hdistance := x.distance_eq
  unfold power at hp
  unfold bitsBelowOne significand
  by_cases hzero : x.exponentField = 0
  · have hp' : p + 1 = 1074 := by
      rw [if_pos hzero] at hp
      omega
    have hunit : x.fraction < 2 ^ (p + 1) :=
      calc x.fraction < 2 ^ 52 := hfraction
        _ ≤ 2 ^ (p + 1) := Nat.pow_le_pow_right (by decide) (by omega)
    rw [if_pos hzero, if_pos (by omega), Nat.mod_eq_of_lt hunit]
    norm_num1
    rw [hdistance, hzero]
    omega
  · have hp' : p + 1 = 1075 - x.exponentField := by
      rw [if_neg hzero] at hp
      omega
    rw [if_neg hzero]
    by_cases hsmall : x.exponentField < 1023
    · have hunit : x.fraction + hiddenBit < 2 ^ (p + 1) :=
        calc x.fraction + hiddenBit < 2 ^ 53 := by unfold hiddenBit at *; omega
          _ ≤ 2 ^ (p + 1) := Nat.pow_le_pow_right (by decide) (by omega)
      have hpos : 0 < x.exponentField * hiddenBit := Nat.mul_pos (by omega) (by decide)
      rw [if_pos hsmall, Nat.mod_eq_of_lt hunit]
      norm_num1
      rw [hdistance]
      unfold hiddenBit at *
      omega
    · have hdvd : 2 ^ (p + 1) ∣ hiddenBit :=
        Nat.pow_dvd_pow 2 (by omega : p + 1 ≤ 52)
      have hparts : x.bits.toNat = hiddenBit * (x.bits.toNat / hiddenBit) + x.fraction :=
        (Nat.div_add_mod _ _).symm
      rw [if_neg hsmall, ← hp', ← Nat.dvd_iff_mod_eq_zero, ← Nat.dvd_iff_mod_eq_zero,
        Nat.dvd_add_left hdvd, hparts, Nat.dvd_add_right (hdvd.mul_right _)]

theorem magnitude?_of_isFinite (hx : x.isFinite = true) :
    x.magnitude? = if x.hasFraction then none else some x.wholeMagnitude := by
  have hfraction := hasFraction_eq_false hx
  unfold magnitude? wholeMagnitude
  cases hp : x.power with
  | ofNat p =>
    have he : 1075 ≤ x.exponentField := by
      rw [Int.ofNat_eq_natCast, power] at hp
      split at hp <;> omega
    have hwhole : x.hasFraction = false := by
      rw [hfraction, bitsBelowOne, if_neg (by omega), Nat.sub_eq_zero_of_le he, pow_zero, Nat.mod_one]
    rw [hwhole]
    rfl
  | negSucc p =>
    have he : x.exponentField < 1075 := by
      rw [power] at hp
      split at hp <;> omega
    have hmod : x.significand % Nat.pow 2 (p + 1) = 0 ↔ x.hasFraction = false :=
      (significand_mod_iff he hp).trans hfraction.symm
    simp only [hmod]
    cases x.hasFraction <;> rfl

theorem toInt?_of_isFinite (hx : x.isFinite = true) :
    x.toInt? = if x.hasFraction then none else x.wholePart? := by
  rw [toInt?, wholePart?, if_pos hx, if_pos hx, magnitude?_of_isFinite hx]
  cases x.hasFraction <;> rfl

theorem ofInt64_minValue : ofInt64 Int64.minValue = ⟨0xC3E0000000000000⟩ := by decide +kernel

theorem ofInt64_maxValue : ofInt64 Int64.maxValue = ⟨0x43E0000000000000⟩ := by decide +kernel

theorem minValue_le_iff (hx : x.isFinite = true) {n : ℤ} (hn : x.toInt? = some n) :
    (ofInt64 Int64.minValue).le x = true ↔ Int64.minValue.toInt ≤ n := by
  have hbound : (⟨0xC3E0000000000000⟩ : Binary64).toInt? = some Int64.minValue.toInt := by
    decide +kernel
  rw [ofInt64_minValue, le_iff (by decide +kernel) hx, (toInt?_eq_some hx).1 hn,
    (toInt?_eq_some (by decide +kernel)).1 hbound, Int.cast_le]

theorem lt_maxValue_iff (hx : x.isFinite = true) {n : ℤ} (hn : x.toInt? = some n) :
    x.lt (ofInt64 Int64.maxValue) = true ↔ n ≤ Int64.maxValue.toInt := by
  have hbound : (⟨0x43E0000000000000⟩ : Binary64).toInt? = some (Int64.maxValue.toInt + 1) := by
    decide +kernel
  rw [ofInt64_maxValue, lt_iff hx (by decide +kernel), (toInt?_eq_some hx).1 hn,
    (toInt?_eq_some (by decide +kernel)).1 hbound, Int.cast_lt, Int.lt_add_one_iff]

/-- Within the range, the conversion is exact. -/
theorem toInt64_of_fits (hx : x.isFinite = true) {n : ℤ} (hn : x.wholePart? = some n)
    (hfits : Position.Fits n) : x.toInt64 = Int64.ofInt n := by
  rw [toInt64, isNaN_of_isFinite hx, hn]
  simp only [Bool.false_eq_true, if_false]
  rw [min_eq_left hfits.2, max_eq_right hfits.1]

end Binary64

/-- A float has the key of the integer that it equals, and is its own key if it equals none. -/
theorem Key.ofBinary64_eq (x : Binary64) : ofBinary64 x = (x.toInt?.map ofInt).getD (float x) := by
  unfold ofBinary64
  cases hx : x.isFinite with
  | false => simp [Binary64.toInt?_of_not_finite hx]
  | true =>
    rw [Binary64.toInt?_of_isFinite hx]
    cases hfraction : x.hasFraction with
    | true => simp
    | false =>
      obtain ⟨n, hn⟩ : ∃ n, x.wholePart? = some n := by simp [Binary64.wholePart?, hx]
      have hint : x.toInt? = some n := by simp [Binary64.toInt?_of_isFinite hx, hfraction, hn]
      have hrange : ((Binary64.ofInt64 Int64.minValue).le x && x.lt (.ofInt64 Int64.maxValue)) = true ↔
          Position.Fits n := by
        rw [Bool.and_eq_true, Binary64.minValue_le_iff hx hint, Binary64.lt_maxValue_iff hx hint,
          Position.Fits]
      simp only [Bool.not_true, Bool.or_self, Bool.false_eq_true, if_false, hrange, hn,
        Option.map_some, Option.getD_some]
      by_cases hfits : Position.Fits n
      · rw [if_pos hfits, Binary64.toInt64_of_fits hx hn hfits, ofInt, Position.ofInt?_of_fits hfits]
      · rw [if_neg hfits, ofInt, Position.ofInt?_eq_none.2 hfits]

end ItemAccess
