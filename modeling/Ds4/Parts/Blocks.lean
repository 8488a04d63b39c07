import Mathlib.Data.List.Basic
import Mathlib.Data.Nat.Basic
import Mathlib.Order.Basic

/-! A text cut into blocks of one length: the fold over its whole blocks and what is left behind
them, for a text that grows at its end. -/
namespace Ds4.Parts

variable {α σ : Type*} {n : ℕ} {xs ys : List α} {s : σ}

/-- The block of a text with the index. -/
def block (n : ℕ) (xs : List α) (i : ℕ) : List α := (xs.drop (n * i)).take n

/-- The state behind all whole blocks. -/
def foldBlocks (f : σ → List α → σ) (n : ℕ) (s : σ) (xs : List α) : σ :=
  (List.range (xs.length / n)).foldl (fun s i => f s (block n xs i)) s

/-- What is behind the last whole block. -/
def unblocked (n : ℕ) (xs : List α) : List α := xs.drop (n * (xs.length / n))

theorem length_unblocked (n : ℕ) (xs : List α) : (unblocked n xs).length = xs.length % n := by
  have hdiv := Nat.div_add_mod xs.length n
  unfold unblocked
  rw [List.length_drop]
  omega

theorem unblocked_nil : unblocked n ([] : List α) = [] := List.drop_nil

theorem foldBlocks_nil (f : σ → List α → σ) : foldBlocks f n s [] = s := by
  unfold foldBlocks
  rw [List.length_nil, Nat.zero_div, List.range_zero, List.foldl_nil]

/-- A whole block is not changed by what comes behind the text. -/
theorem block_append {i : ℕ} (hi : i < xs.length / n) : block n (xs ++ ys) i = block n xs i := by
  have hle : n * i + n ≤ xs.length := by
    have hmul := Nat.mul_le_mul_left n (Nat.succ_le_of_lt hi)
    have hdiv := Nat.mul_div_le xs.length n
    rw [Nat.mul_succ] at hmul
    omega
  unfold block
  rw [List.drop_append_of_le_length (by omega),
    List.take_append_of_le_length (by rw [List.length_drop]; omega)]

theorem foldl_block_append (f : σ → List α → σ) (s : σ) :
    (List.range (xs.length / n)).foldl (fun s i => f s (block n (xs ++ ys) i)) s =
      foldBlocks f n s xs := by
  unfold foldBlocks
  apply List.foldl_ext
  intro s i hi
  rw [block_append (List.mem_range.1 hi)]

/-- Symbols that do not complete a block are left. -/
theorem blocks_append_short (f : σ → List α → σ) (s : σ)
    (h : (unblocked n xs).length + ys.length < n) :
    foldBlocks f n s (xs ++ ys) = foldBlocks f n s xs ∧
      unblocked n (xs ++ ys) = unblocked n xs ++ ys := by
  rw [length_unblocked] at h
  have hsame : (xs ++ ys).length / n = xs.length / n := by
    have hdiv := Nat.div_add_mod xs.length n
    rw [List.length_append, ← hdiv, Nat.add_assoc, Nat.mul_add_div (by omega),
      Nat.mul_add_div (by omega), Nat.div_eq_of_lt h, Nat.mod_div_self]
  constructor
  · rw [foldBlocks, hsame]
    exact foldl_block_append f s
  · unfold unblocked
    rw [hsame, List.drop_append_of_le_length (Nat.mul_div_le _ _)]

/-- Symbols that complete a block give it to the fold, and nothing is left. -/
theorem blocks_append_full (f : σ → List α → σ) (s : σ) (hn : 0 < n)
    (h : (unblocked n xs).length + ys.length = n) :
    foldBlocks f n s (xs ++ ys) = f (foldBlocks f n s xs) (unblocked n xs ++ ys) ∧
      unblocked n (xs ++ ys) = [] := by
  have hlen : (xs ++ ys).length = n * (xs.length / n + 1) := by
    have hdiv := Nat.div_add_mod xs.length n
    rw [length_unblocked] at h
    rw [List.length_append, Nat.mul_succ]
    omega
  have hnext : (xs ++ ys).length / n = xs.length / n + 1 := by
    rw [hlen, Nat.mul_div_cancel_left _ hn]
  have hlast : block n (xs ++ ys) (xs.length / n) = unblocked n xs ++ ys := by
    unfold block
    rw [List.drop_append_of_le_length (Nat.mul_div_le _ _)]
    apply List.take_of_length_le
    rw [List.length_append]
    exact h.le
  constructor
  · rw [foldBlocks, hnext, List.range_succ, List.foldl_append, foldl_block_append,
      List.foldl_cons, List.foldl_nil, hlast]
  · unfold unblocked
    rw [hnext, ← hlen, List.drop_length]

end Ds4.Parts
