import ItemAccess.Object.Position

/-!
# Integers as indices

Every integer can be asked for. The integers from minus the length of a sequence up to the length stand
for positions, the negative ones from the end; those of 64 bits can be told to the machine as indices.
-/

namespace ItemAccess.Position

def InRange (n : Int) (len : Nat) : Prop :=
  -(len : Int) ≤ n ∧ n < len

instance (n : Int) (len : Nat) : Decidable (InRange n len) :=
  inferInstanceAs (Decidable (_ ∧ _))

/-- The position that such an integer stands for. Negative ones count from the end. -/
def ofInteger (n : Int) (len : Nat) : Nat :=
  (if n < 0 then n + len else n).toNat

def Fits (n : Int) : Prop :=
  Int64.minValue.toInt ≤ n ∧ n ≤ Int64.maxValue.toInt

instance (n : Int) : Decidable (Fits n) :=
  inferInstanceAs (Decidable (_ ∧ _))

theorem ofInteger_lt {n : Int} {len : Nat} (hn : InRange n len) : ofInteger n len < len := by
  obtain ⟨hlo, hhi⟩ := hn
  unfold ofInteger
  split <;> omega

theorem checked_of_inRange {i : Int64} {len : Nat} (hi : InRange i.toInt len) :
    checked i len = some (ofInteger i.toInt len) := by
  obtain ⟨hlo, hhi⟩ := hi
  have hneg : i < 0 ↔ i.toInt < 0 := by simp [Int64.lt_iff_toInt_lt]
  by_cases h : i.toInt < 0
  · have hle : i.toInt.natAbs ≤ len := by omega
    have hposition : len - i.toInt.natAbs = (i.toInt + len).toNat := by omega
    rw [checked, if_pos (hneg.2 h), if_pos hle, ofInteger, if_pos h, hposition]
  · have hlt : i.toInt.toNat < len := by omega
    rw [checked, if_neg (mt hneg.1 h), if_pos hlt, ofInteger, if_neg h]

theorem checked_of_not_inRange {i : Int64} {len : Nat} (hi : ¬ InRange i.toInt len) :
    checked i len = none := by
  have hneg : i < 0 ↔ i.toInt < 0 := by simp [Int64.lt_iff_toInt_lt]
  unfold InRange at hi
  by_cases h : i.toInt < 0
  · rw [checked, if_pos (hneg.2 h), if_neg (by omega)]
  · rw [checked, if_neg (mt hneg.1 h), if_neg (by omega)]

theorem fits_toInt (i : Int64) : Fits i.toInt := by
  have hmin : Int64.minValue.toInt = -2 ^ 63 := rfl
  have hmax : Int64.maxValue.toInt = 2 ^ 63 - 1 := rfl
  have hlo := Int64.le_toInt i
  have hhi := Int64.toInt_lt i
  exact ⟨by omega, by omega⟩

theorem ofInt?_of_fits {n : Int} (hn : Fits n) : ofInt? n = some (Int64.ofInt n) :=
  if_pos hn

theorem exists_ofInt? {n : Int} (hn : Fits n) : ∃ i, ofInt? n = some i ∧ i.toInt = n := by
  have hmin : Int64.minValue.toInt = -2 ^ 63 := rfl
  have hmax : Int64.maxValue.toInt = 2 ^ 63 - 1 := rfl
  obtain ⟨hlo, hhi⟩ := hn
  exact ⟨Int64.ofInt n, ofInt?_of_fits ⟨hlo, hhi⟩, Int64.toInt_ofInt_of_le (by omega) (by omega)⟩

theorem ofInt?_toInt (i : Int64) : ofInt? i.toInt = some i := by
  obtain ⟨j, hj, hij⟩ := exists_ofInt? (fits_toInt i)
  rw [hj, Int64.toInt_inj.1 hij]

theorem ofInt?_eq_none {n : Int} : ofInt? n = none ↔ ¬ Fits n := by
  simp [ofInt?, Fits]

theorem toInt_of_ofInt? {n : Int} {i : Int64} (hi : ofInt? n = some i) : i.toInt = n := by
  by_cases hn : Fits n
  · obtain ⟨j, hj, hjn⟩ := exists_ofInt? hn
    obtain rfl := Option.some.inj (hi.symm.trans hj)
    exact hjn
  · rw [ofInt?_eq_none.2 hn] at hi
    cases hi

/-- Only in a sequence that is longer than indices can count do other integers stand for positions. -/
theorem not_inRange_of_not_fits {n : Int} (hn : ¬ Fits n) (len : Nat) :
    ¬ InRange n len ∨ Int64.maxValue.toInt < len := by
  have hmin : Int64.minValue.toInt = -2 ^ 63 := rfl
  have hmax : Int64.maxValue.toInt = 2 ^ 63 - 1 := rfl
  unfold Fits at hn
  unfold InRange
  omega

end ItemAccess.Position
