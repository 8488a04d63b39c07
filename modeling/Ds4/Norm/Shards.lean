import Ds4.Engine.Constants
import Ds4.Norm.Stable
import Ds4.Parts.Collectives
import Ds4.Parts.Columns

/-! A row that is kept on the ranks: the reductions over the ranks, and what they make of the
ranks' maxima, squares and products. All values are finite. -/
namespace Ds4.Norm
open Ds4.Parts

/-- The `1.0e-6f` of the norms. -/
def normEps {α : Type} [Field α] : α := 1 / 1000000

section Reduce
variable {α : Type} [Field α] [LinearOrder α]

theorem ranks_nonempty : (Finset.range kGpus).Nonempty := ⟨0, Finset.mem_range.2 (by decide)⟩

/-- A block's sum of what its threads make of `n` columns. -/
def blockSum (n : ℕ) (f : ℕ → α) : α :=
  blockReduce (· + ·) 0 fun t => (items 256 n t).foldl (fun acc c => acc + f c) 0

omit [LinearOrder α] in
theorem blockSum_eq (n : ℕ) (f : ℕ → α) : blockSum n f = ∑ c ∈ Finset.range n, f c := by
  unfold blockSum
  rw [blockReduce_sum]
  refine Eq.trans ?_ (sum_items (by norm_num : 0 < 256) f)
  refine Finset.sum_congr rfl fun t _ => ?_
  rw [foldl_add_eq, zero_add]

/-- The greatest magnitude of a row whose values are finite. -/
def rowMax (x : ℕ → α) (n : ℕ) : α := maxAbs (fun c => some (x c)) n

/-- The squares of such a row, each divided by the magnitude. -/
def rowSquares (m : α) (x : ℕ → α) (n : ℕ) : α := sumSquares m (fun c => some (x c)) n

/-- What the row is scaled with. -/
def stableScale (rsqrtf : α → α) (eps : α) (x : ℕ → α) (n : ℕ) : α :=
  normScale rsqrtf eps n (rowMax x n) (rowSquares (rowMax x n) x n)

theorem rowMax_le_iff {x : ℕ → α} {n : ℕ} {b : α} :
    rowMax x n ≤ b ↔ 0 ≤ b ∧ ∀ h < n, |x h| ≤ b := by
  unfold rowMax
  rw [maxAbs_le_iff]
  simp only [Option.mem_some_iff, forall_eq']

theorem rowMax_congr {x y : ℕ → α} {n : ℕ} (h : ∀ c < n, x c = y c) : rowMax x n = rowMax y n :=
  maxAbs_congr fun c hc => congrArg some (h c hc)

theorem rowSquares_congr {x y : ℕ → α} {m : α} {n : ℕ} (h : ∀ c < n, x c = y c) :
    rowSquares m x n = rowSquares m y n :=
  sumSquares_congr fun c hc => congrArg some (h c hc)

theorem stableScale_congr (rsqrtf : α → α) (eps : α) {x y : ℕ → α} {n : ℕ}
    (h : ∀ c < n, x c = y c) : stableScale rsqrtf eps x n = stableScale rsqrtf eps y n := by
  unfold stableScale
  rw [rowMax_congr h, rowSquares_congr h]

/-- A row of zeros has no squares. -/
theorem rowSquares_of_not_pos {m : α} (hm : ¬ 0 < m) (x : ℕ → α) (n : ℕ) :
    rowSquares m x n = 0 := by
  unfold rowSquares sumSquares
  rw [blockReduce_sum]
  exact Finset.sum_eq_zero fun t _ => if_neg hm

theorem rowSquares_eq {m : α} (hm : 0 < m) (x : ℕ → α) (n : ℕ) :
    rowSquares m x n = ∑ h ∈ Finset.range n, x h / m * (x h / m) := sumSquares_eq hm _ n

variable (nccl : Collectives kGpus α) {cols n count i : ℕ} (cut : ColumnCut kGpus cols n)
variable {send : ℕ → ℕ → α} {shard : ℕ → ℕ → α}

/-- The greatest of the ranks' maxima is the row's. -/
theorem allReduceMax_rowMax {x : ℕ → α} (hi : i < count)
    (hsend : ∀ rank < kGpus, send rank i = rowMax (shard rank) cols)
    (hshard : ∀ rank < kGpus, ∀ c < cols, shard rank c = x (cut.column rank c)) :
    nccl.allReduceMax count send i = rowMax x n := by
  have hbound : ∀ b, nccl.allReduceMax count send i ≤ b ↔ rowMax x n ≤ b := by
    intro b
    rw [nccl.max_le_iff hi, rowMax_le_iff, ← cut.forall_iff]
    constructor
    · intro h
      have hrow : ∀ rank < kGpus, rowMax (shard rank) cols ≤ b :=
        fun rank hrank => (hsend rank hrank).symm.trans_le (h rank hrank)
      refine ⟨(rowMax_le_iff.1 (hrow 0 (by decide))).1, fun rank hrank c hc => ?_⟩
      rw [← hshard rank hrank c hc]
      exact (rowMax_le_iff.1 (hrow rank hrank)).2 c hc
    · rintro ⟨hb, h⟩ rank hrank
      rw [hsend rank hrank, rowMax_le_iff]
      refine ⟨hb, fun c hc => ?_⟩
      rw [hshard rank hrank c hc]
      exact h rank hrank c hc
  exact le_antisymm ((hbound _).2 le_rfl) ((hbound _).1 le_rfl)

/-- The sum of the ranks' squares is the row's. -/
theorem allReduceSum_rowSquares {m : α} {x : ℕ → α} (hi : i < count)
    (hsend : ∀ rank < kGpus, send rank i = rowSquares m (shard rank) cols)
    (hshard : ∀ rank < kGpus, ∀ c < cols, shard rank c = x (cut.column rank c)) :
    nccl.allReduceSum count send i = rowSquares m x n := by
  rw [nccl.sum_eq count send i hi,
    Finset.sum_congr rfl fun rank hrank => hsend rank (Finset.mem_range.1 hrank)]
  by_cases hm : 0 < m
  · rw [rowSquares_eq hm, ← cut.sum_eq]
    refine Finset.sum_congr rfl fun rank hrank => ?_
    rw [rowSquares_eq hm]
    refine Finset.sum_congr rfl fun c hc => ?_
    rw [hshard rank (Finset.mem_range.1 hrank) c (Finset.mem_range.1 hc)]
  · rw [rowSquares_of_not_pos hm]
    exact Finset.sum_eq_zero fun rank _ => rowSquares_of_not_pos hm _ _

/-- The sum of the ranks' products is the row's. -/
theorem allReduceSum_blockSum {f : ℕ → α} (hi : i < count)
    (hsend : ∀ rank < kGpus, send rank i = blockSum cols (shard rank))
    (hshard : ∀ rank < kGpus, ∀ c < cols, shard rank c = f (cut.column rank c)) :
    nccl.allReduceSum count send i = ∑ h ∈ Finset.range n, f h := by
  rw [nccl.sum_eq count send i hi, ← cut.sum_eq]
  refine Finset.sum_congr rfl fun rank hrank => ?_
  rw [hsend rank (Finset.mem_range.1 hrank), blockSum_eq]
  exact Finset.sum_congr rfl fun c hc =>
    hshard rank (Finset.mem_range.1 hrank) c (Finset.mem_range.1 hc)

end Reduce

end Ds4.Norm
