import Mathlib.Tactic.Ring

/-! A ring of rows: each position has the slot of its remainder, and the last one stored there
is the one that is held. -/
namespace Ds4.Parts

/-- What the slots hold: the position whose row was stored last. -/
abbrev Ring := ℕ → Option ℕ

namespace Ring

def store (cap : ℕ) (ring : Ring) (pos : ℕ) : Ring :=
  Function.update ring (pos % cap) (some pos)

/-- The rows of `n` positions, in their order. -/
def storeRun (cap : ℕ) (ring : Ring) (first : ℕ) : ℕ → Ring
  | 0 => ring
  | n + 1 => store cap (storeRun cap ring first n) (first + n)

def Holds (cap : ℕ) (ring : Ring) (pos : ℕ) : Prop := ring (pos % cap) = some pos

variable {cap first n pos : ℕ} {ring : Ring}

theorem store_same : Holds cap (store cap ring pos) pos := Function.update_self _ _ _

theorem store_other {x : ℕ} (h : x % cap ≠ pos % cap) :
    store cap ring pos (x % cap) = ring (x % cap) :=
  Function.update_of_ne h _ _

/-- Two positions of one slot are a whole turn apart. -/
theorem turn_apart {x y : ℕ} (hlt : x < y) (hsame : x % cap = y % cap) : x + cap ≤ y := by
  have hx := Nat.div_add_mod x cap
  have hy := Nat.div_add_mod y cap
  have hdiv : x / cap < y / cap := by
    by_contra hle
    have hmul := Nat.mul_le_mul_left cap (Nat.not_lt.mp hle)
    omega
  have hmul := Nat.mul_le_mul_left cap (Nat.succ_le_of_lt hdiv)
  rw [Nat.mul_succ] at hmul
  omega

/-- A run keeps what it does not come around to. -/
theorem storeRun_kept (hpos : pos < first) (hturn : first + n ≤ pos + cap) :
    storeRun cap ring first n (pos % cap) = ring (pos % cap) := by
  induction n with
  | zero => rfl
  | succ n ih =>
    rw [storeRun, store_other, ih (by omega)]
    intro hsame
    have hapart := turn_apart (by omega : pos < first + n) hsame
    omega

/-- Of its own positions a run holds those of the last turn. -/
theorem storeRun_own (hlow : first ≤ pos) (hhigh : pos < first + n)
    (hturn : first + n ≤ pos + cap) : Holds cap (storeRun cap ring first n) pos := by
  induction n with
  | zero => omega
  | succ n ih =>
    by_cases hlast : pos = first + n
    · rw [hlast]
      exact store_same
    · unfold Holds
      rw [storeRun, store_other]
      · exact ih (by omega) (by omega)
      · intro hsame
        have hapart := turn_apart (by omega : pos < first + n) hsame
        omega

/-- What a run comes around to is lost. -/
theorem storeRun_lost (hpos : pos < first) (hreach : first ≤ pos + cap)
    (hturn : pos + cap < first + n) : ¬ Holds cap (storeRun cap ring first n) pos := by
  have hsome : ∃ x, first ≤ x ∧ storeRun cap ring first n (pos % cap) = some x := by
    induction n with
    | zero => omega
    | succ n ih =>
      by_cases hsame : pos % cap = (first + n) % cap
      · refine ⟨first + n, by omega, ?_⟩
        rw [hsame]
        exact store_same
      · rw [storeRun, store_other hsame]
        apply ih
        by_contra hlast
        have hturns : pos + cap = first + n := by omega
        rw [← hturns, Nat.add_mod_right] at hsame
        exact hsame rfl
  obtain ⟨x, hx, heq⟩ := hsome
  unfold Holds
  rw [heq, Option.some.injEq]
  omega

end Ring

end Ds4.Parts
