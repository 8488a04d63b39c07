import Mathlib.Data.Nat.Cast.Order.Ring

/-! The 64-bit arithmetic of the tensor-parallel sources. -/
namespace Ds4.Tp

/-- `checked_mul`: it ends the program where the product does not fit. -/
def checkedMul (a b : ℕ) : Option ℕ :=
  if a ≠ 0 ∧ (2 ^ 64 - 1) / a < b then none else some (a * b % 2 ^ 64)

/-- `ceil_div_u64`. -/
def ceilDiv (a b : ℕ) : ℕ := (a + b - 1) % 2 ^ 64 / b

def bytesBlocks (elems blockElems blockBytes : ℕ) : Option ℕ :=
  checkedMul ((elems + blockElems - 1) % 2 ^ 64 / blockElems) blockBytes

/-- `(int)` of a 64-bit number. -/
def toInt (n : ℕ) : ℤ := (n : ℤ).bmod (2 ^ 32)

theorem checkedMul_eq (a b : ℕ) :
    checkedMul a b = if a * b < 2 ^ 64 then some (a * b) else none := by
  unfold checkedMul
  rcases Nat.eq_zero_or_pos a with rfl | ha
  · simp
  · have hiff : (2 ^ 64 - 1) / a < b ↔ ¬ a * b < 2 ^ 64 := by
      rw [Nat.div_lt_iff_lt_mul ha, Nat.mul_comm b a]
      omega
    by_cases hfit : a * b < 2 ^ 64
    · rw [if_neg (by tauto), if_pos hfit, Nat.mod_eq_of_lt hfit]
    · rw [if_pos ⟨ha.ne', hiff.mpr hfit⟩, if_neg hfit]

theorem checkedMul_some {a b c : ℕ} : checkedMul a b = some c ↔ c = a * b ∧ a * b < 2 ^ 64 := by
  rw [checkedMul_eq]
  split_ifs with hfit
  · rw [Option.some.injEq, eq_comm]
    tauto
  · simp only [false_iff]
    tauto

theorem ceilDiv_eq {a b : ℕ} (h : a + b - 1 < 2 ^ 64) : ceilDiv a b = (a + b - 1) / b := by
  unfold ceilDiv
  rw [Nat.mod_eq_of_lt h]

/-- A number keeps its value as an `int` exactly if it is below the sign bit. -/
theorem toInt_eq_iff {n : ℕ} : toInt n = n ↔ n < 2 ^ 31 := by
  unfold toInt
  rw [Int.bmod_def]
  split_ifs <;> omega

theorem toInt_le (n : ℕ) : toInt n ≤ n := by
  unfold toInt
  rw [Int.bmod_def]
  split_ifs <;> omega

theorem toInt_lt (n : ℕ) : toInt n < 2 ^ 31 := by
  unfold toInt
  rw [Int.bmod_def]
  split_ifs <;> omega

/-- From the sign bit on the value falls by a whole turn of an `int`. -/
theorem toInt_beyond {n : ℕ} (h : 2 ^ 31 ≤ n) : toInt n ≤ n - 2 ^ 32 := by
  unfold toInt
  rw [Int.bmod_def]
  split_ifs <;> omega

end Ds4.Tp
