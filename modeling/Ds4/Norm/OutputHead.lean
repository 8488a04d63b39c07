import Ds4.Norm.RouterLogits

/-! The output head: on the ranks with the slices of its weights, and on full rows with the full
weights. -/
namespace Ds4.Norm
open Ds4.Parts

section Kernels
variable {α : Type} [Field α] [LinearOrder α]

/-- `output_head_hc_local_max_mix4_partial_kernel`: the maxima. -/
def outputHeadHcLocalMax (hcShard : ℕ → α) (slots : ℕ) : List (Access α) := hcLocalMax hcShard slots

/-- `output_head_hc_local_max_mix4_partial_kernel`: the products. -/
def outputHeadMix4Partial (hcShard fnShard : ℕ → α) (slots : ℕ) : List (Access α) :=
  mixPartial 4 hcShard fnShard slots

/-- `output_head_hc_local_stable_sumsq_kernel`. -/
def outputHeadHcLocalStableSumsq (hcShard globalMaxAbs : ℕ → α) (slots : ℕ) : List (Access α) :=
  hcLocalStableSumsq hcShard globalMaxAbs slots

/-- What a row of the hidden state is weighted with. -/
def headWeight (expf : α → α) (scale base : ℕ → α) (pre : α) (h : ℕ) : α :=
  1 / (1 + expf (-(pre * scale 0 + base h))) + normEps

/-- `output_head_weights_from_reduced_mix4_kernel`. -/
def outputHeadWeightsFromReducedMix4 (rsqrtf expf : α → α) (globalMaxAbs globalSumsq globalMix scale
    base : ℕ → α) (slots : ℕ) (eps : α) : List (Access α) :=
  itemStores 256 (slots * 4) fun i =>
    let slot := i / 4
    let s := normScale rsqrtf eps hcCols (globalMaxAbs slot) (globalSumsq slot)
    headWeight expf scale base (globalMix i * s) (i % 4)

/-- The four rows of `n` columns at `b`, weighted. -/
def weightedSum (n : ℕ) (hc w : ℕ → α) (b h : ℕ) : α :=
  hc (b + h) * w 0 + hc (b + n + h) * w 1 + hc (b + 2 * n + h) * w 2 + hc (b + 3 * n + h) * w 3

omit [LinearOrder α] in
theorem weightedSum_congr {n m b b' h h' : ℕ} {hc hc' w w' : ℕ → α}
    (hhc : ∀ k < 4, hc (b + k * n + h) = hc' (b' + k * m + h')) (hw : ∀ k < 4, w k = w' k) :
    weightedSum n hc w b h = weightedSum m hc' w' b' h' := by
  have hzero : hc (b + h) = hc' (b' + h') := by
    have h0 := hhc 0 (by norm_num)
    rwa [Nat.zero_mul, Nat.zero_mul, Nat.add_zero, Nat.add_zero] at h0
  have hone : hc (b + n + h) = hc' (b' + m + h') := by
    have h1 := hhc 1 (by norm_num)
    rwa [Nat.one_mul, Nat.one_mul] at h1
  unfold weightedSum
  rw [hzero, hone, hhc 2 (by norm_num), hhc 3 (by norm_num), hw 0 (by norm_num), hw 1 (by norm_num),
    hw 2 (by norm_num), hw 3 (by norm_num)]

/-- `output_head_weighted_sum_shard_kernel`. -/
def outputHeadWeightedSumShard (hcShard weights : ℕ → α) (slots : ℕ) : List (Access α) :=
  itemStores 256 (slots * shardCols) fun i =>
    let slot := i / shardCols
    let localH := i - slot * shardCols
    weightedSum shardCols hcShard (fun k => weights (slot * 4 + k)) (slot * 4 * shardCols) localH

/-- `output_head_embd_local_max_kernel`. -/
def outputHeadEmbdLocalMax (slots : ℕ) (embdShard : ℕ → α) : List (Access α) :=
  currentShardMax shardCols slots embdShard

/-- `output_head_embd_local_stable_sumsq_kernel`. -/
def outputHeadEmbdLocalStableSumsq (slots : ℕ) (embdShard globalMaxAbs : ℕ → α) : List (Access α) :=
  currentShardStableSumsq shardCols slots embdShard globalMaxAbs

/-- `output_head_apply_output_norm_shard_kernel`. -/
def outputHeadApplyOutputNormShard (rsqrtf : α → α) (embdShard normWeightShard globalMaxAbs
    globalSumsq : ℕ → α) (slots : ℕ) (eps : α) : List (Access α) :=
  itemStores 256 (slots * shardCols) fun i =>
    let slot := i / shardCols
    let localH := i - slot * shardCols
    embdShard i * normScale rsqrtf eps kHidden (globalMaxAbs slot) (globalSumsq slot) *
      normWeightShard localH

/-- `output_head_rank_major_to_slot_major_kernel`. -/
def outputHeadRankMajorToSlotMajor (slots : ℕ) (rankMajor : ℕ → α) : List (Access α) :=
  itemStores 256 (slots * kHidden) fun i =>
    let slot := i / kHidden
    rankMajor (RouteInput.Shards.entry ⟨shardCols, kGpus, slots⟩ slot (i - slot * kHidden))

/-- `bf16_dense_kernel`. -/
def bf16Dense (bf16ToF32 : ℕ → α) (weights : ℕ → ℕ) (x : ℕ → α) (rows cols rowStride slots : ℕ) :
    List (Access α) :=
  rowStores rows slots fun slot row =>
    blockSum cols fun c => bf16ToF32 (weights (row * rowStride + c)) * x (slot * cols + c)

/-- `f32_dense_kernel`. -/
def f32Dense (weights x : ℕ → α) (rows cols slots : ℕ) : List (Access α) :=
  rowStores rows slots fun slot row =>
    blockSum cols fun c => weights (row * cols + c) * x (slot * cols + c)

/-- `output_hc_weights_rows_kernel`. -/
def outputHcWeightsRows (expf : α → α) (pre scale base : ℕ → α) (rows : ℕ) : List (Access α) :=
  itemStores 256 (rows * 4) fun i => headWeight expf scale base (pre i) (i % 4)

/-- `hc_weighted_sum_rows_kernel`. -/
def hcWeightedSumRows (hc weights : ℕ → α) (slots : ℕ) : List (Access α) :=
  itemStores 256 (slots * kHidden) fun i =>
    let slot := i / kHidden
    weightedSum kHidden hc (fun k => weights (slot * 4 + k)) (slot * 4 * kHidden) (i % kHidden)

/-- A rank's slice of the head's mix weights, as it is cut at the start. -/
def headFnRank (hcHeadFn : ℕ → α) (gpu i : ℕ) : α :=
  let c := i / 4
  let hcRow := c / shardCols
  let localC := c - hcRow * shardCols
  let globalC := hcRow * kHidden + gpu * shardCols + localC
  hcHeadFn (i % 4 * (4 * kHidden) + globalC)

/-- A rank's slice of the output norm's weights. -/
def outputNormRank (outputNorm : ℕ → α) (gpu c : ℕ) : α := outputNorm (gpu * shardCols + c)

end Kernels

/-- What the head is given: the hidden state on the ranks, and the weights. -/
structure OutputHead (α : Type) extends HcState α where
  rsqrtf : α → α
  expf : α → α
  bf16ToF32 : ℕ → α
  hcHeadFn : ℕ → α
  hcHeadBase : ℕ → α
  hcHeadScale : ℕ → α
  outputNorm : ℕ → α
  outputWeight : ℕ → ℕ
  rowsPerGpu : ℕ

namespace OutputHead
variable {α : Type} [Field α] [LinearOrder α]
variable (x : OutputHead α) (nccl : Collectives kGpus α) (r : Runs α)

def vocab : ℕ := kGpus * x.rowsPerGpu

/-- The vocabulary's rows on a GPU. -/
def weightShard (gpu i : ℕ) : ℕ := x.outputWeight (gpu * (x.rowsPerGpu * kHidden) + i)

def reduceMax : ℕ → α :=
  nccl.allReduceMax x.slots fun rank =>
    launch (r.schedule 0 rank) (outputHeadHcLocalMax (x.shard rank) x.slots) (r.before 0 rank)

def headPre : ℕ → α :=
  nccl.allReduceSum (x.slots * 4) fun rank =>
    launch (r.schedule 1 rank)
      (outputHeadMix4Partial (x.shard rank) (headFnRank x.hcHeadFn rank) x.slots)
      (r.before 1 rank)

def reduceSumsq : ℕ → α :=
  nccl.allReduceSum x.slots fun rank =>
    launch (r.schedule 2 rank)
      (outputHeadHcLocalStableSumsq (x.shard rank) (x.reduceMax nccl r) x.slots)
      (r.before 2 rank)

def headWeights (rank : ℕ) : ℕ → α :=
  launch (r.schedule 3 rank)
    (outputHeadWeightsFromReducedMix4 x.rsqrtf x.expf (x.reduceMax nccl r) (x.reduceSumsq nccl r)
      (x.headPre nccl r) x.hcHeadScale x.hcHeadBase x.slots normEps)
    (r.before 3 rank)

def embdShard (rank : ℕ) : ℕ → α :=
  launch (r.schedule 4 rank)
    (outputHeadWeightedSumShard (x.shard rank) (x.headWeights nccl r rank) x.slots)
    (r.before 4 rank)

def embdMax : ℕ → α :=
  nccl.allReduceMax x.slots fun rank =>
    launch (r.schedule 5 rank) (outputHeadEmbdLocalMax x.slots (x.embdShard nccl r rank))
      (r.before 5 rank)

def embdSumsq : ℕ → α :=
  nccl.allReduceSum x.slots fun rank =>
    launch (r.schedule 6 rank)
      (outputHeadEmbdLocalStableSumsq x.slots (x.embdShard nccl r rank) (x.embdMax nccl r))
      (r.before 6 rank)

def embdNormShard (rank : ℕ) : ℕ → α :=
  launch (r.schedule 7 rank)
    (outputHeadApplyOutputNormShard x.rsqrtf (x.embdShard nccl r rank)
      (outputNormRank x.outputNorm rank) (x.embdMax nccl r) (x.embdSumsq nccl r) x.slots normEps)
    (r.before 7 rank)

def headX (rank : ℕ) : ℕ → α :=
  launch (r.schedule 8 rank)
    (outputHeadRankMajorToSlotMajor x.slots
      (nccl.allGather (x.slots * shardCols) (x.embdNormShard nccl r)))
    (r.before 8 rank)

/-- `run_shared_output_head_from_rank_hc`, down to a GPU's logits. -/
def shardLogits (gpu : ℕ) : ℕ → α :=
  launch (r.schedule 9 gpu)
    (bf16Dense x.bf16ToF32 (x.weightShard gpu) (x.headX nccl r gpu) x.rowsPerGpu kHidden kHidden
      x.slots)
    (r.before 9 gpu)

def fullPre : ℕ → α :=
  let hcNorm := launch (r.schedule 1 0)
    (rmsNormPlainRowsStable x.rsqrtf normEps hcCols x.slots (x.gathered r)) (r.before 1 0)
  launch (r.schedule 2 0) (f32Dense x.hcHeadFn hcNorm 4 hcCols x.slots) (r.before 2 0)

def fullWeights : ℕ → α :=
  launch (r.schedule 3 0)
    (outputHcWeightsRows x.expf (x.fullPre r) x.hcHeadScale x.hcHeadBase x.slots) (r.before 3 0)

def fullEmbd : ℕ → α :=
  launch (r.schedule 4 0) (hcWeightedSumRows (x.gathered r) (x.fullWeights r) x.slots)
    (r.before 4 0)

def fullEmbdNorm : ℕ → α :=
  normWeightRows x.rsqrtf normEps x.outputNorm kHidden x.slots (r.schedule 5 0) (x.fullEmbd r)
    (r.before 5 0)

/-- The head on the gathered rows with the full weights. -/
def fullLogits : ℕ → α :=
  launch (r.schedule 6 0)
    (bf16Dense x.bf16ToF32 x.outputWeight (x.fullEmbdNorm r) x.vocab kHidden kHidden x.slots)
    (r.before 6 0)

/-- A slot's product with one of the head's four rows. -/
def pre (slot h : ℕ) : α :=
  (∑ c ∈ Finset.range hcCols, x.hcHeadFn (h * hcCols + c) * x.row slot c) *
    stableScale x.rsqrtf normEps (x.row slot) hcCols

/-- A slot's weights. -/
def weight (slot h : ℕ) : α := headWeight x.expf x.hcHeadScale x.hcHeadBase (x.pre slot h) h

/-- A slot's weighted row. -/
def embd (slot h : ℕ) : α := weightedSum kHidden (x.row slot) (x.weight slot) 0 h

/-- A slot's weighted row, normalised. -/
def embdNorm (slot h : ℕ) : α :=
  x.embd slot h * stableScale x.rsqrtf normEps (x.embd slot) kHidden * x.outputNorm h

/-- A logit, by the slot's row. -/
def logit (slot token : ℕ) : α :=
  ∑ h ∈ Finset.range kHidden,
    x.bf16ToF32 (x.outputWeight (token * kHidden + h)) * x.embdNorm slot h

variable {x nccl r} {slot h : ℕ}

omit [Field α] [LinearOrder α] in
theorem headFnRank_eq (hh : h < 4) (rank c : ℕ) :
    headFnRank x.hcHeadFn rank (c * 4 + h) = x.hcHeadFn (h * hcCols + hcCut.column rank c) := by
  have hsub : c - c / shardCols * shardCols = c % shardCols := by
    have hsplit := Nat.div_add_mod' c shardCols
    omega
  unfold headFnRank
  dsimp only
  rw [entry_div hh, entry_mod hh, hsub, Nat.add_assoc]
  rfl

theorem reduceMax_eq (hslot : slot < x.slots) :
    x.reduceMax nccl r slot = rowMax (x.row slot) hcCols :=
  allReduce_hcLocalMax (r.schedule 0) (r.before 0) hslot

theorem reduceSumsq_eq (hslot : slot < x.slots) :
    x.reduceSumsq nccl r slot = rowSquares (rowMax (x.row slot) hcCols) (x.row slot) hcCols :=
  allReduce_hcLocalStableSumsq (r.schedule 2) (r.before 2) (reduceMax_eq hslot) hslot

theorem headPre_eq (hslot : slot < x.slots) (hh : h < 4) :
    x.headPre nccl r (slot * 4 + h) =
      ∑ c ∈ Finset.range hcCols, x.hcHeadFn (h * hcCols + c) * x.row slot c :=
  allReduce_mixPartial (w := fun c => x.hcHeadFn (h * hcCols + c)) (r.schedule 1) (r.before 1)
    (headFnRank_eq hh) hslot hh

/-- The weights of a slot on a rank. -/
theorem headWeights_eq (rank : ℕ) (hslot : slot < x.slots) (hh : h < 4) :
    x.headWeights nccl r rank (slot * 4 + h) = x.weight slot h := by
  unfold headWeights outputHeadWeightsFromReducedMix4
  rw [launch_item (r.schedule 3 rank) (by norm_num) (entry_lt hslot hh)]
  dsimp only
  rw [entry_div hh, entry_mod hh, headPre_eq hslot hh, reduceMax_eq hslot, reduceSumsq_eq hslot]
  rfl

/-- The weights of a slot by the full row. -/
theorem fullWeights_eq (hslot : slot < x.slots) (hh : h < 4) :
    x.fullWeights r (slot * 4 + h) = x.weight slot h := by
  have hnorm : ∀ c < hcCols, launch (r.schedule 1 0)
      (rmsNormPlainRowsStable x.rsqrtf normEps hcCols x.slots (x.gathered r)) (r.before 1 0)
        (slot * hcCols + c) = x.row slot c * stableScale x.rsqrtf normEps (x.row slot) hcCols :=
    fun c hc => launch_normPlain x.rsqrtf normEps (r.schedule 1 0)
      (fun c hc => HcState.gathered_eq hslot hc) hslot hc
  have hpre : x.fullPre r (slot * 4 + h) = x.pre slot h := by
    unfold fullPre f32Dense pre
    rw [launch_row (r.schedule 2 0) hslot hh, blockSum_eq, Finset.sum_mul]
    refine Finset.sum_congr rfl fun c hc => ?_
    rw [hnorm c (Finset.mem_range.1 hc), mul_assoc]
  unfold fullWeights outputHcWeightsRows
  rw [launch_item (r.schedule 3 0) (by norm_num) (entry_lt hslot hh), hpre, entry_mod hh]
  rfl

/-- The weighted row of a slot on a rank. -/
theorem embdShard_eq (slot : ℕ) (hslot : slot < x.slots) : ∀ rank < kGpus, ∀ c < shardCols,
    x.embdShard nccl r rank (slot * shardCols + c) = x.embd slot (currentCut.column rank c) := by
  intro rank hrank c hc
  unfold embdShard outputHeadWeightedSumShard
  rw [launch_item (r.schedule 4 rank) (by norm_num) (entry_lt hslot hc)]
  dsimp only
  rw [entry_div hc, Nat.add_sub_cancel_left]
  refine weightedSum_congr (fun k hk => ?_) fun k hk => headWeights_eq rank hslot hk
  have hrow := HcState.row_shard (x := x.toHcState) slot rank hrank (k * shardCols + c)
    (entry_lt hk hc)
  have hcolumn : hcCut.column rank (k * shardCols + c) =
      0 + k * kHidden + currentCut.column rank c := by
    show (k * shardCols + c) / shardCols * kHidden + (rank * shardCols + (k * shardCols + c) %
      shardCols) = _
    rw [entry_div hc, entry_mod hc, Nat.zero_add]
    rfl
  have haddr :
      slot * 4 * shardCols + k * shardCols + c = slot * localCols + (k * shardCols + c) := by
    unfold localCols kHcRows
    ring
  rw [← hcolumn, ← hrow, haddr]

/-- The weighted row of a slot by the full row. -/
theorem fullEmbd_eq (hslot : slot < x.slots) (hh : h < kHidden) :
    x.fullEmbd r (slot * kHidden + h) = x.embd slot h := by
  unfold fullEmbd hcWeightedSumRows
  rw [launch_item (r.schedule 4 0) (by norm_num) (entry_lt hslot hh)]
  dsimp only
  rw [entry_div hh, entry_mod hh]
  refine weightedSum_congr (fun k hk => ?_) fun k hk => fullWeights_eq hslot hk
  have hrow := HcState.gathered_eq (x := x.toHcState) (r := r) hslot (entry_lt hk hh)
  have haddr : slot * 4 * kHidden + k * kHidden + h = slot * hcCols + (k * kHidden + h) := by
    unfold hcCols kHcRows
    ring
  rw [Nat.zero_add, ← hrow, haddr]

/-- The weighted rows, as the ranks have them. -/
def embdState (x : OutputHead α) (nccl : Collectives kGpus α) (r : Runs α) : CurrentState α :=
  ⟨x.slots, x.embdShard nccl r⟩

theorem embdState_row (hslot : slot < x.slots) (hh : h < kHidden) :
    (x.embdState nccl r).row slot h = x.embd slot h := by
  unfold CurrentState.row embdState
  dsimp only
  rw [embdShard_eq slot hslot _ (currentCut.rankOf_lt hh) _ (currentCut.localOf_lt hh),
    currentCut.column_of hh]

/-- The scale that the ranks make of the maxima and squares of their columns. -/
theorem embdScale_eq (hslot : slot < x.slots) :
    normScale x.rsqrtf normEps kHidden (x.embdMax nccl r slot) (x.embdSumsq nccl r slot) =
      stableScale x.rsqrtf normEps (x.embd slot) kHidden := by
  have hmax : x.embdMax nccl r slot = rowMax ((x.embdState nccl r).row slot) kHidden :=
    allReduce_currentShardMax (x := x.embdState nccl r) (r.schedule 5) (r.before 5) hslot
  have hsumsq : x.embdSumsq nccl r slot =
      rowSquares (rowMax ((x.embdState nccl r).row slot) kHidden)
        ((x.embdState nccl r).row slot) kHidden :=
    allReduce_currentShardStableSumsq (x := x.embdState nccl r) (r.schedule 6) (r.before 6) hmax
      hslot
  rw [hmax, hsumsq]
  exact stableScale_congr x.rsqrtf normEps fun h hh => embdState_row hslot hh

/-- The normalised row of a slot on a rank. -/
theorem embdNormShard_eq (slot : ℕ) (hslot : slot < x.slots) : ∀ rank < kGpus, ∀ c < shardCols,
    x.embdNormShard nccl r rank (slot * shardCols + c) =
      x.embdNorm slot (currentCut.column rank c) := by
  intro rank hrank c hc
  unfold embdNormShard outputHeadApplyOutputNormShard
  rw [launch_item (r.schedule 7 rank) (by norm_num) (entry_lt hslot hc)]
  dsimp only
  rw [entry_div hc, Nat.add_sub_cancel_left, embdShard_eq slot hslot rank hrank c hc,
    embdScale_eq hslot]
  rfl

/-- The normalised row of a slot on each GPU. -/
theorem headX_eq (gpu : ℕ) (hslot : slot < x.slots) (hh : h < kHidden) :
    x.headX nccl r gpu (slot * kHidden + h) = x.embdNorm slot h := by
  have hentry := CurrentState.rankMajor_entry (x := ⟨x.slots, x.embdNormShard nccl r⟩) nccl
    hslot hh
  unfold headX outputHeadRankMajorToSlotMajor
  rw [launch_item (r.schedule 8 gpu) (by norm_num) (entry_lt hslot hh)]
  dsimp only
  rw [entry_div hh, Nat.add_sub_cancel_left]
  refine hentry.trans ?_
  unfold CurrentState.row
  dsimp only
  rw [embdNormShard_eq slot hslot _ (currentCut.rankOf_lt hh) _ (currentCut.localOf_lt hh),
    currentCut.column_of hh]

/-- A GPU's logits are those of its tokens. -/
theorem shardLogits_eq (gpu : ℕ) {row : ℕ} (hslot : slot < x.slots) (hrow : row < x.rowsPerGpu) :
    x.shardLogits nccl r gpu (slot * x.rowsPerGpu + row) =
      x.logit slot (gpu * x.rowsPerGpu + row) := by
  unfold shardLogits bf16Dense logit
  rw [launch_row (r.schedule 9 gpu) hslot hrow, blockSum_eq]
  refine Finset.sum_congr rfl fun h hh => ?_
  rw [headX_eq gpu hslot (Finset.mem_range.1 hh)]
  unfold weightShard
  congr 3
  ring

theorem fullLogits_eq {token : ℕ} (hslot : slot < x.slots) (htoken : token < x.vocab) :
    x.fullLogits r (slot * x.vocab + token) = x.logit slot token := by
  have hnorm : ∀ h < kHidden, x.fullEmbdNorm r (slot * kHidden + h) = x.embdNorm slot h :=
    fun h hh => normWeightRows_eq x.rsqrtf normEps (r.schedule 5 0)
      (fun c hc => fullEmbd_eq hslot hc) hslot hh
  unfold fullLogits bf16Dense logit
  rw [launch_row (r.schedule 6 0) hslot htoken, blockSum_eq]
  refine Finset.sum_congr rfl fun h hh => ?_
  rw [hnorm h (Finset.mem_range.1 hh)]

/-- A GPU's logits are the full head's. -/
theorem shardLogits_eq_fullLogits (r' : Runs α) {gpu row : ℕ} (hgpu : gpu < kGpus)
    (hslot : slot < x.slots) (hrow : row < x.rowsPerGpu) :
    x.shardLogits nccl r gpu (slot * x.rowsPerGpu + row) =
      x.fullLogits r' (slot * x.vocab + (gpu * x.rowsPerGpu + row)) := by
  rw [shardLogits_eq gpu hslot hrow, fullLogits_eq hslot (entry_lt hgpu hrow)]

end OutputHead

/-- What is normalised and multiplied in shards is what comes of full rows and full weights, in any
order of any launch: the ranks' splits of the layer mix, the three forms of the router's logits, and
the GPUs' logits of the head. -/
theorem sharded_eq_unsharded {α : Type} [Field α] [LinearOrder α] (nccl : Collectives kGpus α)
    (mix : LayerMix α) (router : RouterInput α) (head : OutputHead α) (r r' r'' : Runs α) :
    (∀ rank < kGpus, ∀ slot < mix.slots, ∀ i < kHcMix,
      mix.allreduceSplit nccl r rank (slot * kHcMix + i) =
        mix.gatherSplit r' (slot * kHcMix + i)) ∧
    (∀ slot < router.slots, ∀ expert < kGlobalExperts,
      router.rankMajorLogits nccl r (slot * kGlobalExperts + expert) =
          router.denseLogits r' (slot * kGlobalExperts + expert) ∧
        router.allreduceLogits nccl r'' (slot * kGlobalExperts + expert) =
          router.denseLogits r' (slot * kGlobalExperts + expert)) ∧
    ∀ gpu < kGpus, ∀ slot < head.slots, ∀ row < head.rowsPerGpu,
      head.shardLogits nccl r gpu (slot * head.rowsPerGpu + row) =
        head.fullLogits r' (slot * head.vocab + (gpu * head.rowsPerGpu + row)) := by
  refine ⟨fun rank _ slot hslot i hi => ?_, fun slot hslot expert hexpert => ⟨?_, ?_⟩,
    fun gpu hgpu slot hslot row hrow => ?_⟩
  · exact LayerMix.allreduceSplit_eq_gatherSplit r' rank hslot hi
  · rw [RouterInput.rankMajorLogits_eq hslot hexpert, RouterInput.denseLogits_eq hslot hexpert]
  · rw [RouterInput.allreduceLogits_eq hslot hexpert, RouterInput.denseLogits_eq hslot hexpert]
  · exact OutputHead.shardLogits_eq_fullLogits r' hgpu hslot hrow

section Sample

/-- Two slots, in which rank, slot and column can be told apart. -/
def sampleShard (rank i : ℕ) : ℚ := (rank + 1) * (i + 1)

def sampleRouter : RouterInput ℚ where
  slots := 2
  shard := sampleShard
  rsqrtf y := 1 / (1 + y)
  normWeight h := h + 1
  routerW i := i

def sampleMix : LayerMix ℚ where
  slots := 2
  shard := sampleShard
  rsqrtf y := 1 / (1 + y)
  expf y := 1 + y * y
  fn i := i
  scale k := k + 1
  base i := i
  sinkhornIters := 3

def sampleHead : OutputHead ℚ where
  slots := 2
  shard := sampleShard
  rsqrtf y := 1 / (1 + y)
  expf y := 1 + y * y
  bf16ToF32 n := n
  hcHeadFn i := i
  hcHeadBase i := i
  hcHeadScale _ := 2
  outputNorm h := h + 1
  outputWeight i := i
  rowsPerGpu := 3

/-- With the collectives computed directly, in one order of the launches and in the other. -/
theorem sample_sharded :
    let nccl : Collectives kGpus ℚ := Collectives.direct ranks_nonempty
    let r : Runs ℚ := ⟨fun _ _ => Schedule.inOrder, fun _ _ _ => 0⟩
    let r' : Runs ℚ := ⟨fun _ _ => Schedule.reversed, fun _ _ _ => 7⟩
    sampleMix.allreduceSplit nccl r 5 (1 * kHcMix + 9) = sampleMix.gatherSplit r' (1 * kHcMix + 9) ∧
      sampleRouter.rankMajorLogits nccl r (1 * kGlobalExperts + 100) =
        sampleRouter.allreduceLogits nccl r' (1 * kGlobalExperts + 100) ∧
      sampleHead.shardLogits nccl r 4 (1 * 3 + 2) =
        sampleHead.fullLogits r' (1 * sampleHead.vocab + (4 * 3 + 2)) := by
  intro nccl r r'
  obtain ⟨hmix, hrouter, hhead⟩ :=
    sharded_eq_unsharded nccl sampleMix sampleRouter sampleHead r r' r'
  have hlogits := hrouter 1 (by decide) 100 (by decide)
  exact ⟨hmix 5 (by decide) 1 (by decide) 9 (by decide), hlogits.1.trans hlogits.2.symm,
    hhead 4 (by decide) 1 (by decide) 2 (by decide)⟩

end Sample

end Ds4.Norm
