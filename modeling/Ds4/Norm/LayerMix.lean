import Ds4.Norm.Shards
import Mathlib.Algebra.BigOperators.Ring.Finset

/-! The split of the layer mix: gathered, normalised and multiplied on one GPU, and reduced over the
ranks, which multiply first and scale at the end. -/
namespace Ds4.Norm
open Ds4.Parts

/-- The columns of a slot, and those of them on a rank. -/
def hcCols : ℕ := kHcRows * kHidden
def localCols : ℕ := kHcRows * shardCols

section Split
variable {α : Type} [Field α] [LinearOrder α] (expf : α → α)

/-- The softmax of a row of four, by its greatest value. -/
def softmaxRow (epsv : α) (v : ℕ → α) (col : ℕ) : α :=
  let m := max (max (max (v 0) (v 1)) (v 2)) (v 3)
  let e := fun col => expf (v col - m)
  e col / (0 + e 0 + e 1 + e 2 + e 3) + epsv

def rowStep (epsv : α) (c : ℕ → ℕ → α) (r col : ℕ) : α :=
  c r col / (epsv + c r 0 + c r 1 + c r 2 + c r 3)

def colStep (epsv : α) (c : ℕ → ℕ → α) (r col : ℕ) : α :=
  c r col / (epsv + c 0 col + c 1 col + c 2 col + c 3 col)

def sinkhorn (epsv : α) (iters : ℕ) (c : ℕ → ℕ → α) : ℕ → ℕ → α :=
  (fun c => colStep epsv (rowStep epsv c))^[iters - 1] (colStep epsv c)

/-- `hc4_split_one_dev`. -/
def hc4SplitOneDev (mix scale base : ℕ → α) (sinkhornIters : ℕ) (epsv : α) (i : ℕ) : α :=
  if i < 4 then 1 / (1 + expf (-(mix i * scale 0 + base i))) + epsv
  else if i < 8 then 2 / (1 + expf (-(mix i * scale 1 + base i)))
  else
    let c := fun r => softmaxRow expf epsv fun col =>
      mix (8 + r * 4 + col) * scale 2 + base (8 + r * 4 + col)
    sinkhorn epsv sinkhornIters c ((i - 8) / 4) ((i - 8) % 4)

/-- Two matrices with one 4 by 4 corner. -/
def Agree (c d : ℕ → ℕ → α) : Prop := ∀ r < 4, ∀ col < 4, c r col = d r col

variable {c d : ℕ → ℕ → α}

omit [LinearOrder α] in
theorem Agree.rowStep (h : Agree c d) (epsv : α) : Agree (rowStep epsv c) (rowStep epsv d) := by
  intro r hr col hcol
  unfold Norm.rowStep
  rw [h r hr col hcol, h r hr 0 (by norm_num), h r hr 1 (by norm_num), h r hr 2 (by norm_num),
    h r hr 3 (by norm_num)]

omit [LinearOrder α] in
theorem Agree.colStep (h : Agree c d) (epsv : α) : Agree (colStep epsv c) (colStep epsv d) := by
  intro r hr col hcol
  unfold Norm.colStep
  rw [h r hr col hcol, h 0 (by norm_num) col hcol, h 1 (by norm_num) col hcol,
    h 2 (by norm_num) col hcol, h 3 (by norm_num) col hcol]

omit [LinearOrder α] in
/-- The corner is balanced without what is beside it. -/
theorem Agree.sinkhorn (h : Agree c d) (epsv : α) (iters : ℕ) :
    Agree (sinkhorn epsv iters c) (sinkhorn epsv iters d) := by
  have hrun : ∀ k {c d : ℕ → ℕ → α}, Agree c d →
      Agree ((fun c => Norm.colStep epsv (Norm.rowStep epsv c))^[k] c)
        ((fun c => Norm.colStep epsv (Norm.rowStep epsv c))^[k] d) := by
    intro k
    induction k with
    | zero => exact fun h => h
    | succ k ih =>
      intro c d h
      rw [Function.iterate_succ_apply, Function.iterate_succ_apply]
      exact ih ((h.rowStep epsv).colStep epsv)
  exact hrun (iters - 1) (h.colStep epsv)

/-- The split is made of the 24 sums of the slot alone. -/
theorem hc4SplitOneDev_congr {mix mix' : ℕ → α} (h : ∀ j < 24, mix j = mix' j) (scale base : ℕ → α)
    (sinkhornIters : ℕ) (epsv : α) {i : ℕ} (hi : i < 24) :
    hc4SplitOneDev expf mix scale base sinkhornIters epsv i =
      hc4SplitOneDev expf mix' scale base sinkhornIters epsv i := by
  have hcorner : Agree
      (fun r => softmaxRow expf epsv fun col =>
        mix (8 + r * 4 + col) * scale 2 + base (8 + r * 4 + col))
      (fun r => softmaxRow expf epsv fun col =>
        mix' (8 + r * 4 + col) * scale 2 + base (8 + r * 4 + col)) := by
    intro r hr col hcol
    unfold softmaxRow
    dsimp only
    rw [h (8 + r * 4 + col) (by omega), h (8 + r * 4 + 0) (by omega), h (8 + r * 4 + 1) (by omega),
      h (8 + r * 4 + 2) (by omega), h (8 + r * 4 + 3) (by omega)]
  unfold hc4SplitOneDev
  by_cases hpre : i < 4
  · rw [if_pos hpre, if_pos hpre, h i hi]
  · rw [if_neg hpre, if_neg hpre]
    by_cases hpost : i < 8
    · rw [if_pos hpost, if_pos hpost, h i hi]
    · rw [if_neg hpost, if_neg hpost]
      exact hcorner.sinkhorn epsv sinkhornIters _ (by omega) _ (Nat.mod_lt _ (by norm_num))

end Split

section Kernels
variable {α : Type} [Field α] [LinearOrder α]

/-- `gather_hc_shard_to_full_kernel`. -/
def gatherHcShardToFull (rank slots : ℕ) (shardHc : ℕ → α) : List (Access α) :=
  scatterStores 256 (slots * 4 * shardCols)
    (fun i =>
      let localH := i % shardCols
      let row := i / shardCols % 4
      let slot := i / (4 * shardCols)
      (slot * 4 + row) * kHidden + rank * shardCols + localH)
    shardHc

/-- `rms_norm_plain_rows_stable_kernel`. -/
def rmsNormPlainRowsStable (rsqrtf : α → α) (eps : α) (cols rows : ℕ) (src : ℕ → α) :
    List (Access α) :=
  rowStores cols rows fun row c =>
    src (row * cols + c) * stableScale rsqrtf eps (fun c => src (row * cols + c)) cols

/-- `f32_dense_colmajor_kernel`. -/
def f32DenseColmajor (weights x : ℕ → α) (rows cols slots : ℕ) : List (Access α) :=
  rowStores rows slots fun slot row =>
    blockSum cols fun c => weights (c * rows + row) * x (slot * cols + c)

/-- `hc_split_rows_kernel`. -/
def hcSplitRows (expf : α → α) (mix scale base : ℕ → α) (slots sinkhornIters : ℕ) :
    List (Access α) :=
  rowStores kHcMix slots fun slot i =>
    hc4SplitOneDev expf (fun j => mix (slot * kHcMix + j)) scale base sinkhornIters normEps i

/-- `hc_local_max_mix_partial_kernel`: the maxima. -/
def hcLocalMax (hcShard : ℕ → α) (slots : ℕ) : List (Access α) :=
  rowStores 1 slots fun slot _ => rowMax (fun c => hcShard (slot * localCols + c)) localCols

/-- A rank's part of `n` products of each slot's row. -/
def mixPartial (n : ℕ) (hcShard fnShard : ℕ → α) (slots : ℕ) : List (Access α) :=
  rowStores n slots fun slot mix =>
    blockSum localCols fun c => fnShard (c * n + mix) * hcShard (slot * localCols + c)

/-- `hc_local_max_mix_partial_kernel`: the products. -/
def hcMixPartial (hcShard fnShard : ℕ → α) (slots : ℕ) : List (Access α) :=
  mixPartial kHcMix hcShard fnShard slots

/-- `hc_local_stable_sumsq_kernel`. -/
def hcLocalStableSumsq (hcShard globalMaxAbs : ℕ → α) (slots : ℕ) : List (Access α) :=
  rowStores 1 slots fun slot _ =>
    rowSquares (globalMaxAbs slot) (fun c => hcShard (slot * localCols + c)) localCols

/-- `hc_apply_reduced_mix_split_kernel`. -/
def hcApplyReducedMixSplit (rsqrtf expf : α → α) (globalMaxAbs globalSumsq globalMix scaleParam
    base : ℕ → α) (slots sinkhornIters : ℕ) (eps : α) : List (Access α) :=
  rowStores kHcMix slots fun slot i =>
    let scale := normScale rsqrtf eps hcCols (globalMaxAbs slot) (globalSumsq slot)
    hc4SplitOneDev expf (fun j => globalMix (slot * kHcMix + j) * scale) scaleParam base
      sinkhornIters normEps i

/-- A rank's slice of the mix weights, as it is cut at the start. -/
def attnFnRank (fn : ℕ → α) (rank i : ℕ) : α :=
  let c := i / kHcMix
  let globalC := c / shardCols * kHidden + rank * shardCols + c % shardCols
  fn (globalC * kHcMix + i % kHcMix)

end Kernels

/-- The orders of the launches and what their outputs hold before, by kernel and rank. -/
structure Runs (α : Type) where
  schedule : ℕ → ℕ → Schedule
  before : ℕ → ℕ → ℕ → α

/-- Each rank's columns of the four rows of a slot. -/
def hcCut : ColumnCut kGpus localCols hcCols := ColumnCut.rowwise kHcRows kGpus shardCols

section State
variable {α : Type}

/-- The hidden state of all slots, of which each rank has its columns. -/
structure HcState (α : Type) where
  slots : ℕ
  shard : ℕ → ℕ → α

namespace HcState
variable (x : HcState α) (r : Runs α)

/-- The full state, gathered from rank to rank. -/
def gathered : ℕ → α :=
  (List.range kGpus).foldl
    (fun mem rank =>
      launch (r.schedule 0 rank) (gatherHcShardToFull rank x.slots (x.shard rank)) mem)
    (r.before 0 0)

/-- A slot's row, by what the ranks hold of it. -/
def row (slot h : ℕ) : α := x.shard (hcCut.rankOf h) (slot * localCols + hcCut.localOf h)

variable {x r} {slot h : ℕ}

/-- The rank's part of a slot's row. -/
theorem row_shard (slot : ℕ) : ∀ rank < kGpus, ∀ c < localCols,
    x.shard rank (slot * localCols + c) = x.row slot (hcCut.column rank c) := by
  intro rank hrank c hc
  unfold row
  rw [hcCut.rankOf_column hrank hc, hcCut.localOf_column hrank hc]

/-- Where a rank's element goes in the full state. -/
theorem gather_dst (rank i : ℕ) :
    (i / (4 * shardCols) * 4 + i / shardCols % 4) * kHidden + rank * shardCols + i % shardCols =
      i / localCols * hcCols + hcCut.column rank (i % localCols) := by
  show (i / (4 * (4096 / 8)) * 4 + i / (4096 / 8) % 4) * 4096 + rank * (4096 / 8) + i % (4096 / 8) =
    i / (4 * (4096 / 8)) * (4 * 4096) + (i % (4 * (4096 / 8)) / (4096 / 8) * (8 * (4096 / 8)) +
      (rank * (4096 / 8) + i % (4 * (4096 / 8)) % (4096 / 8)))
  omega

/-- The gather puts each column where it belongs. -/
theorem gathered_eq (hslot : slot < x.slots) (hh : h < hcCols) :
    x.gathered r (slot * hcCols + h) = x.row slot h := by
  unfold gathered gatherHcShardToFull
  rw [Nat.mul_assoc]
  exact foldl_gather hcCut (by norm_num) (fun rank => r.schedule 0 rank) gather_dst hslot hh

end HcState

end State

section Reduced
variable {α : Type} [Field α] [LinearOrder α] {x : HcState α} {nccl : Collectives kGpus α}
variable {slot : ℕ}

/-- The ranks' maxima of a slot, reduced. -/
theorem allReduce_hcLocalMax (s : ℕ → Schedule) (before : ℕ → ℕ → α) (hslot : slot < x.slots) :
    nccl.allReduceMax x.slots
        (fun rank => launch (s rank) (hcLocalMax (x.shard rank) x.slots) (before rank)) slot =
      rowMax (x.row slot) hcCols :=
  allReduceMax_rowMax nccl hcCut hslot (fun rank _ => launch_cell (s rank) hslot)
    (HcState.row_shard slot)

/-- The ranks' squares of a slot, by the reduced maximum. -/
theorem allReduce_hcLocalStableSumsq (s : ℕ → Schedule) (before : ℕ → ℕ → α) {globalMaxAbs : ℕ → α}
    (hmax : globalMaxAbs slot = rowMax (x.row slot) hcCols) (hslot : slot < x.slots) :
    nccl.allReduceSum x.slots (fun rank =>
        launch (s rank) (hcLocalStableSumsq (x.shard rank) globalMaxAbs x.slots)
          (before rank)) slot =
      rowSquares (rowMax (x.row slot) hcCols) (x.row slot) hcCols := by
  rw [← hmax]
  exact allReduceSum_rowSquares nccl hcCut hslot (fun rank _ => launch_cell (s rank) hslot)
    (HcState.row_shard slot)

/-- The ranks' products of a slot add up to those of the row as it was before the norm. -/
theorem allReduce_mixPartial (s : ℕ → Schedule) (before : ℕ → ℕ → α) {n i : ℕ}
    {fnShard : ℕ → ℕ → α} {w : ℕ → α}
    (hfn : ∀ rank c, fnShard rank (c * n + i) = w (hcCut.column rank c))
    (hslot : slot < x.slots) (hi : i < n) :
    nccl.allReduceSum (x.slots * n) (fun rank =>
        launch (s rank) (mixPartial n (x.shard rank) (fnShard rank) x.slots) (before rank))
          (slot * n + i) =
      ∑ h ∈ Finset.range hcCols, w h * x.row slot h := by
  have hshard : ∀ rank < kGpus, ∀ c < localCols,
      fnShard rank (c * n + i) * x.shard rank (slot * localCols + c) =
        w (hcCut.column rank c) * x.row slot (hcCut.column rank c) := by
    intro rank hrank c hc
    rw [hfn, HcState.row_shard slot rank hrank c hc]
  exact allReduceSum_blockSum nccl hcCut (entry_lt hslot hi)
    (fun rank _ => launch_row (s rank) hslot hi) hshard

/-- The normalised row of a slot. -/
theorem launch_normPlain (rsqrtf : α → α) (eps : α) (s : Schedule) {src before : ℕ → α} {v : ℕ → α}
    {cols slots h : ℕ} (hsrc : ∀ c < cols, src (slot * cols + c) = v c) (hslot : slot < slots)
    (hh : h < cols) :
    launch s (rmsNormPlainRowsStable rsqrtf eps cols slots src) before (slot * cols + h) =
      v h * stableScale rsqrtf eps v cols := by
  unfold rmsNormPlainRowsStable
  rw [launch_row s hslot hh, hsrc h hh, stableScale_congr rsqrtf eps hsrc]

end Reduced

/-- What the layer mix of all slots is given: the hidden state on the ranks, and the weights. -/
structure LayerMix (α : Type) extends HcState α where
  rsqrtf : α → α
  expf : α → α
  fn : ℕ → α
  scale : ℕ → α
  base : ℕ → α
  sinkhornIters : ℕ

namespace LayerMix
variable {α : Type} [Field α] [LinearOrder α]
variable (x : LayerMix α) (nccl : Collectives kGpus α) (r : Runs α)

def hcNorm : ℕ → α :=
  launch (r.schedule 1 0) (rmsNormPlainRowsStable x.rsqrtf normEps hcCols x.slots (x.gathered r))
    (r.before 1 0)

def mix : ℕ → α :=
  launch (r.schedule 2 0)
    (f32DenseColmajor x.fn (x.hcNorm r) kHcMix hcCols x.slots) (r.before 2 0)

/-- The gather branch of `run_shared_hc_current_input`: the split that all ranks are sent. -/
def gatherSplit : ℕ → α :=
  launch (r.schedule 3 0) (hcSplitRows x.expf (x.mix r) x.scale x.base x.slots x.sinkhornIters)
    (r.before 3 0)

def reduceMax : ℕ → α :=
  nccl.allReduceMax x.slots fun rank =>
    launch (r.schedule 0 rank) (hcLocalMax (x.shard rank) x.slots) (r.before 0 rank)

def reduceMix : ℕ → α :=
  nccl.allReduceSum (x.slots * kHcMix) fun rank =>
    launch (r.schedule 1 rank) (hcMixPartial (x.shard rank) (attnFnRank x.fn rank) x.slots)
      (r.before 1 rank)

def reduceSumsq : ℕ → α :=
  nccl.allReduceSum x.slots fun rank =>
    launch (r.schedule 2 rank) (hcLocalStableSumsq (x.shard rank) (x.reduceMax nccl r) x.slots)
      (r.before 2 rank)

/-- The allreduce branch of `run_shared_hc_current_input`: the split of a rank. -/
def allreduceSplit (rank : ℕ) : ℕ → α :=
  launch (r.schedule 3 rank)
    (hcApplyReducedMixSplit x.rsqrtf x.expf (x.reduceMax nccl r) (x.reduceSumsq nccl r)
      (x.reduceMix nccl r) x.scale x.base x.slots x.sinkhornIters normEps)
    (r.before 3 rank)

variable {x nccl r} {slot i : ℕ}

omit [Field α] [LinearOrder α] in
theorem attnFnRank_eq (hi : i < kHcMix) (rank c : ℕ) :
    attnFnRank x.fn rank (c * kHcMix + i) = x.fn (hcCut.column rank c * kHcMix + i) := by
  unfold attnFnRank
  rw [entry_div hi, entry_mod hi]
  dsimp only
  rw [Nat.add_assoc]
  rfl

/-- The full product of a slot's normalised row. -/
theorem mix_eq (hslot : slot < x.slots) (hi : i < kHcMix) :
    x.mix r (slot * kHcMix + i) =
      (∑ h ∈ Finset.range hcCols, x.fn (h * kHcMix + i) * x.row slot h) *
        stableScale x.rsqrtf normEps (x.row slot) hcCols := by
  have hnorm : ∀ h < hcCols, x.hcNorm r (slot * hcCols + h) =
      x.row slot h * stableScale x.rsqrtf normEps (x.row slot) hcCols := fun h hh =>
    launch_normPlain x.rsqrtf normEps (r.schedule 1 0)
      (fun c hc => HcState.gathered_eq hslot hc) hslot hh
  unfold mix f32DenseColmajor
  rw [launch_row (r.schedule 2 0) hslot hi, blockSum_eq, Finset.sum_mul]
  refine Finset.sum_congr rfl fun h hh => ?_
  rw [hnorm h (Finset.mem_range.1 hh), mul_assoc]

theorem reduceMax_eq (hslot : slot < x.slots) :
    x.reduceMax nccl r slot = rowMax (x.row slot) hcCols :=
  allReduce_hcLocalMax (r.schedule 0) (r.before 0) hslot

theorem reduceSumsq_eq (hslot : slot < x.slots) :
    x.reduceSumsq nccl r slot = rowSquares (rowMax (x.row slot) hcCols) (x.row slot) hcCols :=
  allReduce_hcLocalStableSumsq (r.schedule 2) (r.before 2) (reduceMax_eq hslot) hslot

theorem reduceMix_eq (hslot : slot < x.slots) (hi : i < kHcMix) :
    x.reduceMix nccl r (slot * kHcMix + i) =
      ∑ h ∈ Finset.range hcCols, x.fn (h * kHcMix + i) * x.row slot h :=
  allReduce_mixPartial (r.schedule 1) (r.before 1) (attnFnRank_eq hi) hslot hi

/-- The split that the ranks make of what they reduce is that of the gathered row, in any order of
any launch. -/
theorem allreduceSplit_eq_gatherSplit (r' : Runs α) (rank : ℕ) (hslot : slot < x.slots)
    (hi : i < kHcMix) :
    x.allreduceSplit nccl r rank (slot * kHcMix + i) = x.gatherSplit r' (slot * kHcMix + i) := by
  unfold allreduceSplit gatherSplit hcApplyReducedMixSplit hcSplitRows
  rw [launch_row (r.schedule 3 rank) hslot hi, launch_row (r'.schedule 3 0) hslot hi]
  refine hc4SplitOneDev_congr x.expf (fun j hj => ?_) x.scale x.base x.sinkhornIters _ hi
  rw [mix_eq hslot hj, reduceMix_eq hslot hj, reduceMax_eq hslot, reduceSumsq_eq hslot]
  rfl

end LayerMix

end Ds4.Norm
