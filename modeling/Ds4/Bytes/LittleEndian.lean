import Ds4.Bytes.Ascii
import Mathlib.Tactic.NormNum

/-! Little-endian numbers of a fixed width. -/
namespace Ds4

/-! The greatest numbers of four and of eight bytes. -/
def maxU32 : ℕ := 2 ^ 32 - 1

def maxU64 : ℕ := 2 ^ 64 - 1

/-- The bytes of a number, the lowest first. -/
def lePut : ℕ → ℕ → Bytes
  | 0, _ => []
  | w + 1, n => n.toUInt8 :: lePut w (n / 256)

def leGet : Bytes → ℕ
  | [] => 0
  | c :: s => c.toNat + 256 * leGet s

def lePut32 (n : ℕ) : Bytes := lePut 4 n

def lePut64 (n : ℕ) : Bytes := lePut 8 n

@[simp]
theorem length_lePut (w : ℕ) : ∀ n, (lePut w n).length = w := by
  induction w with
  | zero => exact fun n => rfl
  | succ w ih =>
    intro n
    rw [lePut, List.length_cons, ih]

/-- A number that fits is read back. -/
theorem leGet_lePut (w : ℕ) : ∀ n < 256 ^ w, leGet (lePut w n) = n := by
  induction w with
  | zero =>
    intro n hn
    rw [pow_zero] at hn
    rw [lePut, leGet]
    omega
  | succ w ih =>
    intro n hn
    rw [pow_succ] at hn
    have hdiv : n / 256 < 256 ^ w := by
      apply Nat.div_lt_of_lt_mul
      rwa [Nat.mul_comm]
    have hlow : n.toUInt8.toNat = n % 256 := by simp
    rw [lePut, leGet, ih _ hdiv, hlow]
    exact Nat.mod_add_div n 256

theorem leGet_lePut32 {n : ℕ} (h : n < 2 ^ 32) : leGet (lePut32 n) = n :=
  leGet_lePut 4 n (by norm_num at h ⊢; exact h)

theorem leGet_lePut64 {n : ℕ} (h : n < 2 ^ 64) : leGet (lePut64 n) = n :=
  leGet_lePut 8 n (by norm_num at h ⊢; exact h)

/-- A number of some bytes is below that power. -/
theorem leGet_lt_pow (s : Bytes) : leGet s < 256 ^ s.length := by
  induction s with
  | nil => exact Nat.one_pos
  | cons c s ih =>
    have hc : c.toNat < 256 := c.toNat_lt
    rw [leGet, List.length_cons, pow_succ]
    omega

theorem leGet_lt {s : Bytes} {w : ℕ} (h : s.length ≤ w) : leGet s < 2 ^ (8 * w) := by
  rw [pow_mul]
  exact (leGet_lt_pow s).trans_le (Nat.pow_le_pow_right (by omega) h)

end Ds4
