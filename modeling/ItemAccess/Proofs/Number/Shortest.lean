import ItemAccess.Proofs.Number.Decimal
import ItemAccess.Proofs.Number.Exact
import Mathlib.Data.List.DropRight
import Mathlib.Tactic.Linarith
import Mathlib.Tactic.NormNum

/-!
# Shortest decimals are in normal form

The search for the fewest digits starts on a grid that is not coarser than the number itself, so what it
finds is positive. It is written without a zero in front, and its zeros at the end are taken away.
-/

namespace ItemAccess

namespace Shortest

variable {i : Interval} {k : ℤ} {c : ℕ} {ds : List Char}

theorem zpow_eq_div {q : ℚ} (hq : q ≠ 0) (p : ℤ) : q ^ p = q ^ p.toNat / q ^ (-p).toNat := by
  rw [eq_div_iff (pow_ne_zero _ hq), ← zpow_natCast, ← zpow_natCast, ← zpow_add₀ hq]
  congr 1
  omega

/-- The two naturals compare on a grid as the numbers do. -/
theorem scales_le (p k : ℤ) (n c : ℕ) :
    c * (scales p k).2 ≤ n * (scales p k).1 ↔ (c : ℚ) * 10 ^ k ≤ n * 2 ^ p := by
  have hten : (0 : ℚ) < 10 ^ (-k).toNat := by positivity
  have htwo : (0 : ℚ) < 2 ^ (-p).toNat := by positivity
  rw [zpow_eq_div (by norm_num) k, zpow_eq_div (by norm_num) p, ← mul_div_assoc, ← mul_div_assoc,
    div_le_div_iff₀ hten htwo]
  change c * (2 ^ (-p).toNat * 10 ^ k.toNat) ≤ n * (2 ^ p.toNat * 10 ^ (-k).toNat) ↔ _
  rw [← Nat.cast_le (α := ℚ)]
  push_cast
  constructor <;> intro h <;> linarith

theorem scales_pos (p k : ℤ) : 0 < (scales p k).2 :=
  Nat.mul_pos (Nat.pow_pos (by decide)) (Nat.pow_pos (by decide))

theorem pow_length_le {n : ℕ} (hn : 0 < n) : 10 ^ ((Nat.toDigits 10 n).length - 1) ≤ n := by
  have hpos := Nat.length_toDigits_pos (b := 10) (n := n)
  by_cases hone : (Nat.toDigits 10 n).length - 1 = 0
  · rw [hone]
    exact hn
  · have hle := Nat.length_toDigits_le_iff (b := 10) (n := n) (by decide) (Nat.pos_of_ne_zero hone)
    have hnot : ¬ n < 10 ^ ((Nat.toDigits 10 n).length - 1) := by
      rw [← hle]
      omega
    exact not_lt.1 hnot

/-- The first grid is not coarser than the number. -/
theorem ten_zpow_leadingExponent_le (h : (10 : ℚ) ^ (-400 : ℤ) ≤ i.value * 2 ^ i.power) :
    (10 : ℚ) ^ leadingExponent i ≤ i.value * 2 ^ i.power := by
  obtain ⟨a, b, hab⟩ : ∃ a b, scales i.power (-400) = (a, b) := ⟨_, _, rfl⟩
  have hscales := scales_le i.power (-400) i.value
  simp only [hab] at hscales
  have hb : 0 < b := by
    have hpos := scales_pos i.power (-400)
    rwa [hab] at hpos
  have hn : 0 < i.value * a / b := by
    apply Nat.div_pos _ hb
    have := (hscales 1).2 (by simpa using h)
    omega
  have hle := (hscales _).1 (Nat.div_mul_le_self (i.value * a) b)
  have hlength : (10 : ℚ) ^ ((Nat.toDigits 10 (i.value * a / b)).length - 1) ≤ (i.value * a / b : ℕ) := by
    exact_mod_cast pow_length_le hn
  have hexponent : leadingExponent i =
      ((Nat.toDigits 10 (i.value * a / b)).length - 1 : ℕ) + (-400 : ℤ) := by
    have hpos := Nat.length_toDigits_pos (b := 10) (n := i.value * a / b)
    simp only [leadingExponent, hab]
    omega
  calc (10 : ℚ) ^ leadingExponent i
      = 10 ^ ((Nat.toDigits 10 (i.value * a / b)).length - 1) * 10 ^ (-400 : ℤ) := by
        rw [hexponent, zpow_add₀ (by norm_num), zpow_natCast]
    _ ≤ (i.value * a / b : ℕ) * 10 ^ (-400 : ℤ) :=
        mul_le_mul_of_nonneg_right hlength (zpow_nonneg (by norm_num) _)
    _ ≤ i.value * 2 ^ i.power := hle

/-- A hit on a grid is one of the two neighbours. -/
theorem onGrid_cases (h : onGrid i k = some c) :
    c = i.value * (scales i.power k).1 / (scales i.power k).2 ∨
      c = i.value * (scales i.power k).1 / (scales i.power k).2 + 1 := by
  unfold onGrid at h
  grind

theorem onGrid_pos (hk : (10 : ℚ) ^ k ≤ i.value * 2 ^ i.power) (h : onGrid i k = some c) : 0 < c := by
  have hle := (scales_le i.power k i.value 1).2 (by simpa using hk)
  have hbelow : 0 < i.value * (scales i.power k).1 / (scales i.power k).2 :=
    Nat.div_pos (by omega) (scales_pos i.power k)
  rcases onGrid_cases h with rfl | rfl
  · exact hbelow
  · omega

theorem search_cases (i : Interval) :
    search i = (0, 0) ∨ ∃ (n : ℕ) (c : ℕ),
      onGrid i (leadingExponent i - n) = some c ∧ search i = (c, leadingExponent i - n) := by
  cases hfound : ((List.range 17).map fun n : Nat => leadingExponent i - n).findSome? fun k =>
      (onGrid i k).map (·, k) with
  | none =>
    left
    rw [search, hfound, Option.getD_none]
  | some hit =>
    obtain ⟨k, hk, hhit⟩ := List.exists_of_findSome?_eq_some hfound
    obtain ⟨n, -, rfl⟩ := List.mem_map.1 hk
    obtain ⟨c, hc, rfl⟩ := Option.map_eq_some_iff.1 hhit
    refine .inr ⟨n, c, hc, ?_⟩
    rw [search, hfound, Option.getD_some]

/-- What the search finds is positive. -/
theorem search_pos (h : (10 : ℚ) ^ (-400 : ℤ) ≤ i.value * 2 ^ i.power) :
    search i = (0, 0) ∨ 0 < (search i).1 := by
  rcases search_cases i with hnone | ⟨n, c, hc, hsearch⟩
  · exact .inl hnone
  · have hgrid : (10 : ℚ) ^ (leadingExponent i - n) ≤ i.value * 2 ^ i.power :=
      calc (10 : ℚ) ^ (leadingExponent i - n) ≤ 10 ^ leadingExponent i :=
            zpow_le_zpow_right₀ (by norm_num) (by omega)
        _ ≤ i.value * 2 ^ i.power := ten_zpow_leadingExponent_le h
    rw [hsearch]
    exact .inr (onGrid_pos hgrid hc)

theorem trimZeros_eq (hne : ds ≠ []) (hhead : ds.head? ≠ some '0') :
    trimZeros ds = ds.rdropWhile (· == '0') ∧ ds.rdropWhile (· == '0') ≠ [] := by
  have hkept : ds.rdropWhile (· == '0') ≠ [] := by
    intro h
    rw [List.rdropWhile_eq_nil_iff] at h
    cases ds with
    | nil => exact hne rfl
    | cons c ds => exact hhead (by simpa using h c (by simp))
  refine ⟨?_, hkept⟩
  unfold trimZeros
  split
  · next h => exact absurd (by rw [List.rdropWhile, h]; rfl) hkept
  · rfl

theorem normal_trimZeros (hc : 0 < c) (negative : Bool) (e : ℤ) :
    Scientific.Normal ⟨negative, trimZeros (Nat.toDigits 10 c), e⟩ := by
  have hhead := Digits.head_toDigits hc
  obtain ⟨htrim, hkept⟩ := trimZeros_eq Nat.toDigits_ne_nil hhead
  have hfront := List.rdropWhile_prefix (· == '0') (Nat.toDigits 10 c)
  rw [htrim]
  refine ⟨fun a ha => Digits.isDigit_toDigits c a (hfront.subset ha), hkept, fun hzero => ?_,
    fun _ hlast => ?_⟩
  · obtain ⟨zeros, hzeros⟩ := hfront
    rw [← hzeros, List.head?_append_of_ne_nil _ hkept] at hhead
    exact absurd hzero hhead
  · rw [List.getLast?_eq_getLast_of_ne_nil hkept, Option.some.injEq] at hlast
    exact List.rdropWhile_last_not (· == '0') _ hkept (by rw [hlast]; rfl)

/-- The smallest floats have their first digit within the first four hundred places. -/
theorem ten_zpow_le_interval {x : Binary64} (hx : x.significand ≠ 0) :
    (10 : ℚ) ^ (-400 : ℤ) ≤ (interval x).value * 2 ^ (interval x).power := by
  have hpower : -1076 ≤ (interval x).power := by
    have := x.power_eq
    simp only [interval]
    omega
  have hvalue : (1 : ℚ) ≤ (interval x).value := by
    have : 1 ≤ (interval x).value := by
      simp only [interval]
      omega
    exact_mod_cast this
  have hplaces : (2 : ℚ) ^ 1076 ≤ 10 ^ 400 :=
    calc (2 : ℚ) ^ 1076 ≤ 2 ^ (3 * 400) := pow_le_pow_right₀ (by norm_num) (by norm_num)
      _ = (2 ^ 3) ^ 400 := pow_mul _ _ _
      _ ≤ 10 ^ 400 := pow_le_pow_left₀ (by norm_num) (by norm_num) _
  calc (10 : ℚ) ^ (-400 : ℤ) ≤ 2 ^ (-1076 : ℤ) := by
        rw [show (-400 : ℤ) = -((400 : ℕ) : ℤ) from rfl, show (-1076 : ℤ) = -((1076 : ℕ) : ℤ) from rfl,
          zpow_neg, zpow_neg, zpow_natCast, zpow_natCast]
        exact inv_anti₀ (pow_pos (by norm_num) _) hplaces
    _ ≤ 2 ^ (interval x).power := zpow_le_zpow_right₀ (by norm_num) hpower
    _ ≤ (interval x).value * 2 ^ (interval x).power :=
        le_mul_of_one_le_left (zpow_nonneg (by norm_num) _) hvalue

end Shortest

namespace Binary64

variable {x : Binary64} {c : ℕ} {k : ℤ}

theorem scientific_of_search (hx : x.significand ≠ 0)
    (h : Shortest.search (Shortest.interval x) = (c, k)) :
    x.scientific = ⟨x.negative, Shortest.trimZeros (Nat.toDigits 10 c),
      k + (Nat.toDigits 10 c).length - 1⟩ := by
  rw [scientific, if_neg hx, h]

theorem normal_scientific (x : Binary64) : x.scientific.Normal := by
  by_cases hx : x.significand = 0
  · rw [scientific, if_pos hx]
    exact Scientific.normal_zero x.negative
  · have hpos := Shortest.search_pos (Shortest.ten_zpow_le_interval hx)
    rcases hsearch : Shortest.search (Shortest.interval x) with ⟨c, k⟩
    rw [scientific_of_search hx hsearch]
    rw [hsearch] at hpos
    rcases hpos with hnone | hpos
    · obtain ⟨rfl, rfl⟩ := Prod.mk.inj hnone
      exact Scientific.normal_zero x.negative
    · exact Shortest.normal_trimZeros hpos _ _

end Binary64

end ItemAccess
