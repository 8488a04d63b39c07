import Ds4.Norm.LayerMix
import Ds4.RouteInput.Kernels
import Mathlib.Tactic.Ring

/-! The router's logits: of the gathered rows on one GPU, of all rows on the GPU that has the
expert, and of the ranks' columns, added up over the ranks. -/
namespace Ds4.Norm
open Ds4.Parts

section Kernels
variable {α : Type} [Field α] [LinearOrder α]

/-- `gather_current_shard_to_full_kernel`. -/
def gatherCurrentShardToFull (rank slots : ℕ) (shard : ℕ → α) : List (Access α) :=
  scatterStores 256 (slots * shardCols)
    (fun i => i / shardCols * kHidden + rank * shardCols + i % shardCols) shard

/-- What `rms_norm_weight_rows_stable_kernel` leaves of rows whose values are finite. -/
def normWeightRows (rsqrtf : α → α) (eps : α) (weight : ℕ → α) (cols rows : ℕ) (s : Schedule)
    (src before : ℕ → α) (i : ℕ) : α :=
  finite (launch s (rmsNormWeightRowsStable rsqrtf eps weight cols rows fun i => some (src i))
    (fun i => some (before i)) i)

/-- What the kernels on rank-major rows read. -/
def rankMajorRead (sh : RouteInput.Shards) (rankMajor : ℕ → α) (slot h : ℕ) : α :=
  if h / sh.shardCols < sh.ranks then rankMajor (sh.entry slot h) else 0

/-- `rank_major_norm_scale_kernel`. -/
def rankMajorNormScale (rsqrtf : α → α) (eps : α) (sh : RouteInput.Shards) (rankMajor : ℕ → α) :
    List (Access α) :=
  rowStores 1 sh.slots fun slot _ =>
    stableScale rsqrtf eps (rankMajorRead sh rankMajor slot) kHidden

/-- `router_logits_ep_from_rank_major_kernel`. -/
def routerLogitsEpFromRankMajor (sh : RouteInput.Shards)
    (rankMajor normWeight normScale routerWEp : ℕ → α) : List (Access α) :=
  rowStores kLocalExperts sh.slots fun slot localExpert =>
    blockSum kHidden fun h =>
      rankMajorRead sh rankMajor slot h * normScale slot * normWeight h *
        routerWEp (h * kLocalExperts + localExpert)

/-- `router_logits_rank_major_to_slot_major_kernel`. -/
def routerLogitsRankMajorToSlotMajor (slots : ℕ) (rankMajorLogits : ℕ → α) : List (Access α) :=
  itemStores 256 (slots * kGlobalExperts) fun i =>
    let slot := i / kGlobalExperts
    let expert := i - slot * kGlobalExperts
    let srcRank := expert / kLocalExperts
    let localExpert := expert - srcRank * kLocalExperts
    rankMajorLogits ((srcRank * slots + slot) * kLocalExperts + localExpert)

/-- `current_shard_max_kernel`. -/
def currentShardMax (cols slots : ℕ) (shard : ℕ → α) : List (Access α) :=
  rowStores 1 slots fun slot _ => rowMax (fun h => shard (slot * cols + h)) cols

/-- `current_shard_stable_sumsq_kernel`. -/
def currentShardStableSumsq (cols slots : ℕ) (shard globalMax : ℕ → α) : List (Access α) :=
  rowStores 1 slots fun slot _ =>
    rowSquares (globalMax slot) (fun h => shard (slot * cols + h)) cols

/-- `router_logits_allreduce_partial_kernel`. -/
def routerLogitsAllreducePartial (rsqrtf : α → α) (eps : α) (rank cols slots : ℕ)
    (shard normWeight globalMax globalSumsq routerWShard : ℕ → α) : List (Access α) :=
  rowStores kGlobalExperts slots fun slot expert =>
    let scale := normScale rsqrtf eps kHidden (globalMax slot) (globalSumsq slot)
    blockSum cols fun localH =>
      shard (slot * cols + localH) * scale * normWeight (rank * cols + localH) *
        routerWShard (localH * kGlobalExperts + expert)

/-- The router's columns of a rank's experts, as they are cut at the start. -/
def routerWEp (routerW : ℕ → α) (rank i : ℕ) : α :=
  routerW (i / kLocalExperts * kGlobalExperts + (rank * kLocalExperts + i % kLocalExperts))

/-- The router's rows of a rank's hidden columns. -/
def routerWShard (routerW : ℕ → α) (rank i : ℕ) : α :=
  routerW ((rank * shardCols + i / kGlobalExperts) * kGlobalExperts + i % kGlobalExperts)

end Kernels

/-- Each rank's columns of a row. -/
def currentCut : ColumnCut kGpus shardCols kHidden := ColumnCut.contiguous kGpus shardCols

section State
variable {α : Type} [Field α] [LinearOrder α]

/-- A row of all slots, of which each rank has its columns. -/
structure CurrentState (α : Type) where
  slots : ℕ
  shard : ℕ → ℕ → α

namespace CurrentState
variable (x : CurrentState α) (nccl : Collectives kGpus α) (r : Runs α)

def shards : RouteInput.Shards := ⟨shardCols, kGpus, x.slots⟩

/-- The full rows, gathered from rank to rank. -/
def gathered : ℕ → α :=
  (List.range kGpus).foldl
    (fun mem rank =>
      launch (r.schedule 0 rank) (gatherCurrentShardToFull rank x.slots (x.shard rank)) mem)
    (r.before 0 0)

/-- The rows that each rank has of all ranks. -/
def rankMajor : ℕ → α := nccl.allGather (x.slots * shardCols) x.shard

/-- A slot's row, by what the ranks hold of it. -/
def row (slot h : ℕ) : α :=
  x.shard (currentCut.rankOf h) (slot * shardCols + currentCut.localOf h)

variable {x nccl r} {slot h : ℕ}

omit [Field α] [LinearOrder α] in
theorem row_shard (slot : ℕ) : ∀ rank < kGpus, ∀ c < shardCols,
    x.shard rank (slot * shardCols + c) = x.row slot (currentCut.column rank c) := by
  intro rank hrank c hc
  unfold row
  rw [currentCut.rankOf_column hrank hc, currentCut.localOf_column hrank hc]

omit [Field α] [LinearOrder α] in
/-- The gather puts each column where it belongs. -/
theorem gathered_eq (hslot : slot < x.slots) (hh : h < kHidden) :
    x.gathered r (slot * kHidden + h) = x.row slot h := by
  unfold gathered gatherCurrentShardToFull
  exact foldl_gather currentCut (by norm_num) (fun rank => r.schedule 0 rank)
    (fun rank i => Nat.add_assoc _ _ _) hslot hh

/-- Where the rows of all ranks have a slot's column. -/
theorem rankMajor_entry (nccl : Collectives kGpus α) (hslot : slot < x.slots)
    (hh : h < kHidden) :
    x.rankMajor nccl (x.shards.entry slot h) = x.row slot h := by
  have hcol : h - h / shardCols * shardCols = h % shardCols := by
    have hsplit := Nat.div_add_mod' h shardCols
    omega
  have hlocal : slot * shardCols + h % shardCols < x.slots * shardCols :=
    entry_lt hslot (currentCut.localOf_lt hh)
  have hentry : x.shards.entry slot h =
      h / shardCols * (x.slots * shardCols) + (slot * shardCols + h % shardCols) := by
    unfold RouteInput.Shards.entry
    show (h / shardCols * x.slots + slot) * shardCols + (h - h / shardCols * shardCols) = _
    rw [hcol]
    ring
  rw [hentry]
  exact nccl.gather_eq _ _ _ hlocal _ (currentCut.rankOf_lt hh)

theorem rankMajorRead_eq (hslot : slot < x.slots) (hh : h < kHidden) :
    rankMajorRead x.shards (x.rankMajor nccl) slot h = x.row slot h := by
  have hrank : h / shardCols < kGpus := currentCut.rankOf_lt hh
  rw [← rankMajor_entry nccl hslot hh]
  exact if_pos hrank

end CurrentState

end State

section Reduced
variable {α : Type} [Field α] [LinearOrder α] {x : CurrentState α} {nccl : Collectives kGpus α}
variable {slot : ℕ}

/-- The ranks' maxima of a slot, reduced. -/
theorem allReduce_currentShardMax (s : ℕ → Schedule) (before : ℕ → ℕ → α)
    (hslot : slot < x.slots) :
    nccl.allReduceMax x.slots (fun rank =>
        launch (s rank) (currentShardMax shardCols x.slots (x.shard rank)) (before rank)) slot =
      rowMax (x.row slot) kHidden :=
  allReduceMax_rowMax nccl currentCut hslot (fun rank _ => launch_cell (s rank) hslot)
    (CurrentState.row_shard slot)

/-- The ranks' squares of a slot, by the reduced maximum. -/
theorem allReduce_currentShardStableSumsq (s : ℕ → Schedule) (before : ℕ → ℕ → α)
    {globalMax : ℕ → α} (hmax : globalMax slot = rowMax (x.row slot) kHidden)
    (hslot : slot < x.slots) :
    nccl.allReduceSum x.slots (fun rank =>
        launch (s rank) (currentShardStableSumsq shardCols x.slots (x.shard rank) globalMax)
          (before rank)) slot =
      rowSquares (rowMax (x.row slot) kHidden) (x.row slot) kHidden := by
  rw [← hmax]
  exact allReduceSum_rowSquares nccl currentCut hslot (fun rank _ => launch_cell (s rank) hslot)
    (CurrentState.row_shard slot)

/-- The normalised and weighted row of a slot. -/
theorem normWeightRows_eq (rsqrtf : α → α) (eps : α) (s : Schedule) {src before weight v : ℕ → α}
    {cols slots h : ℕ} (hsrc : ∀ c < cols, src (slot * cols + c) = v c) (hslot : slot < slots)
    (hh : h < cols) :
    normWeightRows rsqrtf eps weight cols slots s src before (slot * cols + h) =
      v h * stableScale rsqrtf eps v cols * weight h := by
  unfold normWeightRows rmsNormWeightRowsStable
  rw [launch_row s hslot hh, ← stableScale_congr rsqrtf eps hsrc, ← hsrc h hh]
  rfl

end Reduced

/-- What the router is given: the hidden state on the ranks, and the weights. -/
structure RouterInput (α : Type) extends CurrentState α where
  rsqrtf : α → α
  normWeight : ℕ → α
  routerW : ℕ → α

namespace RouterInput
variable {α : Type} [Field α] [LinearOrder α]
variable (x : RouterInput α) (nccl : Collectives kGpus α) (r : Runs α)

def ffnNormed : ℕ → α :=
  normWeightRows x.rsqrtf normEps x.normWeight kHidden x.slots (r.schedule 1 0) (x.gathered r)
    (r.before 1 0)

/-- `run_model_router_dense_logits`. -/
def denseLogits : ℕ → α :=
  launch (r.schedule 2 0)
    (f32DenseColmajor x.routerW (x.ffnNormed r) kGlobalExperts kHidden x.slots)
    (r.before 2 0)

def logitsShard (rank : ℕ) : ℕ → α :=
  let scale := launch (r.schedule 0 rank)
    (rankMajorNormScale x.rsqrtf normEps x.shards (x.rankMajor nccl)) (r.before 0 rank)
  launch (r.schedule 1 rank)
    (routerLogitsEpFromRankMajor x.shards (x.rankMajor nccl) x.normWeight scale
      (routerWEp x.routerW rank))
    (r.before 1 rank)

/-- `run_model_router_rank_major_logits`. -/
def rankMajorLogits : ℕ → α :=
  launch (r.schedule 2 0)
    (routerLogitsRankMajorToSlotMajor x.slots
      (nccl.allGather (x.slots * kLocalExperts) (x.logitsShard nccl r)))
    (r.before 2 0)

def reduceMax : ℕ → α :=
  nccl.allReduceMax x.slots fun rank =>
    launch (r.schedule 0 rank) (currentShardMax shardCols x.slots (x.shard rank)) (r.before 0 rank)

def reduceSumsq : ℕ → α :=
  nccl.allReduceSum x.slots fun rank =>
    launch (r.schedule 1 rank)
      (currentShardStableSumsq shardCols x.slots (x.shard rank) (x.reduceMax nccl r))
      (r.before 1 rank)

/-- `run_model_router_allreduce_logits`. -/
def allreduceLogits : ℕ → α :=
  nccl.allReduceSum (x.slots * kGlobalExperts) fun rank =>
    launch (r.schedule 2 rank)
      (routerLogitsAllreducePartial x.rsqrtf normEps rank shardCols x.slots (x.shard rank)
        x.normWeight (x.reduceMax nccl r) (x.reduceSumsq nccl r) (routerWShard x.routerW rank))
      (r.before 2 rank)

/-- A logit, by the slot's row. -/
def logit (slot expert : ℕ) : α :=
  ∑ h ∈ Finset.range kHidden, x.row slot h * stableScale x.rsqrtf normEps (x.row slot) kHidden *
    x.normWeight h * x.routerW (h * kGlobalExperts + expert)

variable {x nccl r} {slot expert : ℕ}

/-- The dense form. -/
theorem denseLogits_eq (hslot : slot < x.slots) (hexpert : expert < kGlobalExperts) :
    x.denseLogits r (slot * kGlobalExperts + expert) = x.logit slot expert := by
  have hnorm : ∀ h < kHidden, x.ffnNormed r (slot * kHidden + h) =
      x.row slot h * stableScale x.rsqrtf normEps (x.row slot) kHidden * x.normWeight h :=
    fun h hh => normWeightRows_eq x.rsqrtf normEps (r.schedule 1 0)
      (fun c hc => CurrentState.gathered_eq hslot hc) hslot hh
  unfold denseLogits f32DenseColmajor logit
  rw [launch_row (r.schedule 2 0) hslot hexpert, blockSum_eq]
  refine Finset.sum_congr rfl fun h hh => ?_
  rw [hnorm h (Finset.mem_range.1 hh), mul_comm]

/-- A logit on the GPU that has its expert. -/
theorem logitsShard_eq {rank localExpert : ℕ} (hslot : slot < x.slots)
    (hlocal : localExpert < kLocalExperts) :
    x.logitsShard nccl r rank (slot * kLocalExperts + localExpert) =
      x.logit slot (rank * kLocalExperts + localExpert) := by
  have hrow : ∀ h < kHidden, rankMajorRead x.shards (x.rankMajor nccl) slot h = x.row slot h :=
    fun h hh => CurrentState.rankMajorRead_eq hslot hh
  have hscale : launch (r.schedule 0 rank)
      (rankMajorNormScale x.rsqrtf normEps x.shards (x.rankMajor nccl)) (r.before 0 rank) slot =
        stableScale x.rsqrtf normEps (x.row slot) kHidden := by
    rw [← stableScale_congr x.rsqrtf normEps hrow]
    exact launch_cell (r.schedule 0 rank) hslot
  unfold logit
  refine (launch_row (r.schedule 1 rank) hslot hlocal).trans ?_
  rw [blockSum_eq, hscale]
  refine Finset.sum_congr rfl fun h hh => ?_
  rw [hrow h (Finset.mem_range.1 hh)]
  unfold routerWEp
  rw [entry_div hlocal, entry_mod hlocal]

/-- The rank-major form. -/
theorem rankMajorLogits_eq (hslot : slot < x.slots) (hexpert : expert < kGlobalExperts) :
    x.rankMajorLogits nccl r (slot * kGlobalExperts + expert) = x.logit slot expert := by
  have hlocal : expert % kLocalExperts < kLocalExperts := Nat.mod_lt expert (by decide)
  have hrank : expert / kLocalExperts < kGpus := Nat.div_lt_of_lt_mul hexpert
  have hsub : expert - expert / kLocalExperts * kLocalExperts = expert % kLocalExperts := by
    have hsplit := Nat.div_add_mod' expert kLocalExperts
    omega
  have hentry : (expert / kLocalExperts * x.slots + slot) * kLocalExperts + expert % kLocalExperts =
      expert / kLocalExperts * (x.slots * kLocalExperts) +
        (slot * kLocalExperts + expert % kLocalExperts) := by
    ring
  unfold rankMajorLogits routerLogitsRankMajorToSlotMajor
  rw [launch_item (r.schedule 2 0) (by norm_num) (entry_lt hslot hexpert)]
  dsimp only
  rw [entry_div hexpert, Nat.add_sub_cancel_left, hsub, hentry,
    nccl.gather_eq _ _ _ (entry_lt hslot hlocal) _ hrank, logitsShard_eq hslot hlocal,
    Nat.div_add_mod']

theorem reduceMax_eq (hslot : slot < x.slots) :
    x.reduceMax nccl r slot = rowMax (x.row slot) kHidden :=
  allReduce_currentShardMax (r.schedule 0) (r.before 0) hslot

theorem reduceSumsq_eq (hslot : slot < x.slots) :
    x.reduceSumsq nccl r slot = rowSquares (rowMax (x.row slot) kHidden) (x.row slot) kHidden :=
  allReduce_currentShardStableSumsq (r.schedule 1) (r.before 1) (reduceMax_eq hslot) hslot

/-- The form that is added up over the ranks. -/
theorem allreduceLogits_eq (hslot : slot < x.slots) (hexpert : expert < kGlobalExperts) :
    x.allreduceLogits nccl r (slot * kGlobalExperts + expert) = x.logit slot expert := by
  have hscale : normScale x.rsqrtf normEps kHidden (x.reduceMax nccl r slot)
      (x.reduceSumsq nccl r slot) = stableScale x.rsqrtf normEps (x.row slot) kHidden := by
    rw [reduceMax_eq hslot, reduceSumsq_eq hslot]
    rfl
  have hshard : ∀ rank < kGpus, ∀ c < shardCols,
      x.shard rank (slot * shardCols + c) * stableScale x.rsqrtf normEps (x.row slot) kHidden *
          x.normWeight (rank * shardCols + c) *
          routerWShard x.routerW rank (c * kGlobalExperts + expert) =
        x.row slot (currentCut.column rank c) * stableScale x.rsqrtf normEps (x.row slot) kHidden *
          x.normWeight (currentCut.column rank c) *
          x.routerW (currentCut.column rank c * kGlobalExperts + expert) := by
    intro rank hrank c hc
    unfold routerWShard
    rw [CurrentState.row_shard slot rank hrank c hc, entry_div hexpert, entry_mod hexpert]
    rfl
  unfold logit
  refine allReduceSum_blockSum nccl currentCut (entry_lt hslot hexpert) (fun rank _ => ?_) hshard
  rw [← hscale]
  exact launch_row (r.schedule 2 rank) hslot hexpert

end RouterInput

end Ds4.Norm
