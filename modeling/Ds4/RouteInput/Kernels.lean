import Ds4.Engine.Constants
import Ds4.Norm.Stable
import Ds4.Parts.Rows

/-! The kernels that make the routed experts' input out of the hidden rows: the transpose and the
norm of whole rows, the four that pack rows to routes, and the one that takes the routes' scale
back behind the gate and up projections. -/
namespace Ds4.RouteInput
open Ds4.Parts Ds4.Norm

/-- The slots of a rank's routes, and how many routes of a longer buffer are in use. -/
structure RoutePlan where
  rank : ℕ
  routes : ℕ
  routeSlots : ℕ → ℤ
  routeTotals : Option (ℕ → ℕ)

/-- `route_totals && rank < kGpus && route >= route_totals[rank]`. -/
def RoutePlan.Unused (plan : RoutePlan) (route : ℕ) : Prop :=
  plan.rank < kGpus ∧ ∃ totals ∈ plan.routeTotals, totals plan.rank ≤ route

instance (plan : RoutePlan) : DecidablePred plan.Unused := fun route =>
  match h : plan.routeTotals with
  | none => isFalse fun hunused => by
      obtain ⟨-, totals, hmem, -⟩ := hunused
      rw [h] at hmem
      cases hmem
  | some totals => decidable_of_iff (plan.rank < kGpus ∧ totals plan.rank ≤ route) (by
      unfold RoutePlan.Unused
      rw [h]
      simp only [Option.mem_some_iff, exists_eq_left'])

/-- How the hidden rows are kept: as many columns of all slots, rank behind rank. -/
structure Shards where
  shardCols : ℕ
  ranks : ℕ
  slots : ℕ

/-- Where a slot's column is. -/
def Shards.entry (sh : Shards) (slot h : ℕ) : ℕ :=
  let srcRank := h / sh.shardCols
  (srcRank * sh.slots + slot) * sh.shardCols + (h - srcRank * sh.shardCols)

/-- TurboMind's product of the routes in use with the gate and up weights, each route with those of
its expert. -/
structure GateUp (α : Type) [Field α] where
  gateUp : RoutePlan → (ℕ → ℕ → ℕ → α) → (ℕ → α) → ℕ → α
  row_eq : ∀ plan weights routes route, route < plan.routes → ¬ plan.Unused route → ∀ c < kFusedN,
    gateUp plan weights routes (route * kFusedN + c) =
      ∑ h ∈ Finset.range kHidden, routes (route * kHidden + h) * weights route c h

section Kernels
variable {α : Type} [Field α] [LinearOrder α]

def kFp16Max : α := 65504

/-- `f32_to_half_saturate`. -/
def f32ToHalfSaturate : F32 α → α
  | none => 0
  | some v => min kFp16Max (max (-kFp16Max) v)

/-- `rank_major_current_shards_to_slot_major_kernel`. -/
def rankMajorToSlotMajor (sh : Shards) (rankMajor : ℕ → F32 α) : List (Access (F32 α)) :=
  let cols := sh.shardCols * sh.ranks
  itemStores 256 (sh.slots * cols) fun i => rankMajor (sh.entry (i / cols) (i % cols))

/-- `pack_current_full_to_routes_kernel`. The slot is read as an unsigned number. -/
def packCurrentFull (plan : RoutePlan) (currentFull : ℕ → F32 α) : List (Access α) :=
  itemStores 256 (plan.routes * kHidden) fun i =>
    f32ToHalfSaturate (currentFull ((plan.routeSlots (i / kHidden)).toNat * kHidden + i % kHidden))

/-- The greatest magnitude of a route's values, by the tree in shared memory. -/
def valuesMax (values : ℕ → α) : α :=
  treeReduce max 8 (fun t => (items 256 kHidden t).foldl (fun m h => max m |values h|) 0) 0

/-- The scale that brings a route's values down to the target. -/
def routeScale (target : α) (values : ℕ → α) : α :=
  let safeTarget := max target 1
  if safeTarget < valuesMax values then safeTarget / valuesMax values else 1

/-- `scale > 0.0f ? 1.0f / scale : 1.0f`. -/
def inverseScale (scale : α) : α := if 0 < scale then 1 / scale else 1

/-- The route of a slot's row that is already normalised. -/
def fullValues (plan : RoutePlan) (currentFull : ℕ → F32 α) (route h : ℕ) : α :=
  finite (currentFull ((plan.routeSlots route).toNat * kHidden + h))

/-- `pack_current_full_to_routes_scaled_kernel`: the routes. -/
def packCurrentFullScaled (target : α) (plan : RoutePlan) (currentFull : ℕ → F32 α) :
    List (Access α) :=
  rowStores kHidden plan.routes fun route h =>
    let values := fullValues plan currentFull route
    f32ToHalfSaturate (some (values h * routeScale target values))

/-- `pack_current_full_to_routes_scaled_kernel`: the routes' scales. -/
def packCurrentFullInverse (target : α) (plan : RoutePlan) (currentFull : ℕ → F32 α) :
    List (Access α) :=
  rowStores 1 plan.routes fun route _ =>
    inverseScale (routeScale target (fullValues plan currentFull route))

/-- What the fused kernels read for a route. A column of no rank and a route of no slot are
zeros, for which the loops over them add nothing. -/
def routeRead (sh : Shards) (plan : RoutePlan) (rankMajor : ℕ → F32 α) (route h : ℕ) : F32 α :=
  let slot := plan.routeSlots route
  if 0 ≤ slot ∧ slot < sh.slots then
    if h / sh.shardCols < sh.ranks then rankMajor (sh.entry slot.toNat h) else some 0
  else some 0

/-- The norm in the fused kernels, where values that are not finite count as zeros in the sum. -/
def fusedScale (rsqrtf : α → α) (eps : α) (v : ℕ → F32 α) : α :=
  normScale rsqrtf eps kHidden (maxAbs v kHidden)
    (sumSquares (maxAbs v kHidden) (fun h => some (finite (v h))) kHidden)

/-- A route's normalised values. -/
def routeValues (rsqrtf : α → α) (eps : α) (weight : ℕ → α) (sh : Shards) (plan : RoutePlan)
    (rankMajor : ℕ → F32 α) (route h : ℕ) : α :=
  let v := routeRead sh plan rankMajor route
  finite (v h) * fusedScale rsqrtf eps v * weight h

/-- `pack_rank_major_norm_current_to_routes_kernel`. -/
def packRankMajorNorm (rsqrtf : α → α) (eps : α) (weight : ℕ → α) (sh : Shards)
    (plan : RoutePlan) (rankMajor : ℕ → F32 α) : List (Access α) :=
  keptRowStores plan.Unused kHidden plan.routes fun route h =>
    f32ToHalfSaturate (some (routeValues rsqrtf eps weight sh plan rankMajor route h))

/-- `pack_rank_major_norm_current_to_routes_scaled_kernel`: the routes. -/
def packRankMajorNormScaled (rsqrtf : α → α) (eps target : α) (weight : ℕ → α) (sh : Shards)
    (plan : RoutePlan) (rankMajor : ℕ → F32 α) : List (Access α) :=
  keptRowStores plan.Unused kHidden plan.routes fun route h =>
    let values := routeValues rsqrtf eps weight sh plan rankMajor route
    f32ToHalfSaturate (some (values h * routeScale target values))

/-- `pack_rank_major_norm_current_to_routes_scaled_kernel`: the routes' scales, one for an unused
route. -/
def packRankMajorNormInverse (rsqrtf : α → α) (eps target : α) (weight : ℕ → α) (sh : Shards)
    (plan : RoutePlan) (rankMajor : ℕ → F32 α) : List (Access α) :=
  rowStores 1 plan.routes fun route _ =>
    if plan.Unused route then 1
    else inverseScale (routeScale target (routeValues rsqrtf eps weight sh plan rankMajor route))

/-- `if (route_inv_scale) x *= route_inv_scale[row]`. -/
def takeBack (inv : Option (ℕ → α)) (row : ℕ) (x : α) : α :=
  match inv with
  | none => x
  | some inv => x * inv row

attribute [local instance] atLeastTwo_million in
/-- `routed_fused_gate_up_swiglu_clamp_kernel`. -/
def swigluClamp (expf : α → α) (clamp : α) (routes : ℕ) (inv : Option (ℕ → α)) (gateUp : ℕ → α) :
    List (Access α) :=
  itemStores 256 (routes * kMid) fun i =>
    let row := i / kMid
    let base := row * kFusedN + (i - row * kMid)
    let g := takeBack inv row (gateUp base)
    let u := takeBack inv row (gateUp (base + kMid))
    let g := if 1 / 1000000 < clamp then min g clamp else g
    let u := if 1 / 1000000 < clamp then min (max u (-clamp)) clamp else u
    g / (1 + expf (-g)) * u

end Kernels

end Ds4.RouteInput
