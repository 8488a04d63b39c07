import Ds4.Routing.Planner
import Mathlib.Data.Rat.Init

/-! The expert outputs of the ranks come together: packed by route, or summed densely. -/
namespace Ds4.Routing

open Parts

/-- The buffers of a device around the composition. -/
structure ComposeBuffers where
  down : ℕ → ℚ
  contribAll : ℕ → ℚ
  remote : ℕ → ℕ → ℚ
  current : Option (ℕ → ℚ)
  attn : ℕ → ℚ
  shared : ℕ → ℚ
  nextHidden : ℕ → ℚ

abbrev Composes := ℕ → ComposeBuffers

/-- How a composition is scheduled and copied. -/
structure ComposeMode where
  sched : ℕ → ℕ → Schedule
  skipSelfCopy : Bool
  directRemote : Bool
  /-- Whether the kernels read the device's own route totals as a limit. -/
  fixedCapacity : Bool

/-- The route is within the totals of a device that keeps room for more. -/
def WithinTotals (limit : Option (ℕ → ℤ)) (rank route : ℕ) : Prop :=
  match limit with
  | none => True
  | some totals => ¬ (rank < kGpus ∧ totals rank ≤ route)

instance (limit : Option (ℕ → ℤ)) (rank route : ℕ) : Decidable (WithinTotals limit rank route) := by
  unfold WithinTotals
  cases limit <;> infer_instance

def zeroF32Kernel (n i : ℕ) : List (Access ℚ) := if n ≤ i then [] else [Access.store i 0]

def epReduceAllDestShardsKernel (down : ℕ → ℚ) (routeSlots : ℕ → ℤ) (routeWeights : ℕ → ℚ)
    (limit : Option (ℕ → ℤ)) (routes slots rank i : ℕ) : List (Access ℚ) :=
  if routes * kHidden ≤ i then []
  else
    let route := i / kHidden
    let h := i % kHidden
    let slot := routeSlots route
    if WithinTotals limit rank route ∧ 0 ≤ slot ∧ slot < slots then
      [Access.add ((h / shardCols * slots + slot.toNat) * shardCols + h % shardCols)
        (down i * routeWeights route)]
    else []

/-- The columns one thread of a block visits. -/
def strided (thread : ℕ) : List ℕ :=
  (List.range (kHidden / block)).map fun j => thread + j * block

def epPackRouteDestShardsKernel (down routeWeights : ℕ → ℚ) (limit : Option (ℕ → ℤ))
    (segmentRoutes rank route thread : ℕ) : List (Access ℚ) :=
  if WithinTotals limit rank route then
    (strided thread).map fun h =>
      Access.store ((h / shardCols * segmentRoutes + route) * shardCols + h % shardCols)
        (down (route * kHidden + h) * routeWeights route)
  else []

def epPackRouteDestShards (down routeWeights : ℕ → ℚ) (limit : Option (ℕ → ℤ))
    (routes segmentRoutes rank : ℕ) : List (Access ℚ) :=
  (List.range routes).flatMap fun route => (List.range block).flatMap
    (epPackRouteDestShardsKernel down routeWeights limit segmentRoutes rank route)

/-- The residual of a cell, or a made-up one where the device has none. -/
def residualAt (current : Option (ℕ → ℚ)) (rank i : ℕ) : ℚ :=
  match current with
  | some c => c i
  | none => (rank + 1 : ℚ) / 100 + (i / shardCols : ℕ) / 1000 + (i % shardCols : ℕ) / 100000

def compactMoeSumSrcRoutes (rows : ℕ → ℚ) (indices counts : ℕ → ℤ) (slot localH topK : ℕ) : ℚ :=
  (List.range topK).foldl (fun acc (k : ℕ) =>
    if (k : ℤ) < counts slot ∧ 0 ≤ indices (slot * topK + k) then
      acc + rows ((indices (slot * topK + k)).toNat * shardCols + localH)
    else acc) 0

def composeNextHiddenCompact8MultiKernel (current : Option (ℕ → ℚ)) (attn shared : ℕ → ℚ)
    (rows : ℕ → ℕ → ℚ) (indices counts : ℕ → ℕ → ℤ) (rank slots topK i : ℕ) :
    List (Access ℚ) :=
  if slots * shardCols ≤ i then []
  else
    let ep := (List.range kGpus).foldl (fun ep src => ep +
      compactMoeSumSrcRoutes (rows src) (indices src) (counts src) (i / shardCols)
        (i % shardCols) topK) 0
    [Access.store i (residualAt current rank i + attn i + shared i + ep)]

def composeNextHiddenSum8Kernel (current : Option (ℕ → ℚ)) (attn shared : ℕ → ℚ)
    (rows : ℕ → ℕ → ℚ) (rank slots i : ℕ) : List (Access ℚ) :=
  if slots * shardCols ≤ i then []
  else
    let ep := rows 0 i + rows 1 i + rows 2 i + rows 3 i + rows 4 i + rows 5 i + rows 6 i + rows 7 i
    [Access.store i (residualAt current rank i + attn i + shared i + ep)]

section Pipelines
variable (opt : RouteOptions) (mode : ComposeMode) (ranks : Ranks ℚ)

/-- The limit a device's kernels read. -/
def ComposeMode.limit (rank : ℕ) : Option (ℕ → ℤ) :=
  if mode.fixedCapacity then some (ranks rank).routeTotals else none

/-- The slices of one source, closed up and sent to every device. -/
def broadcastSlices (stride copy : ℕ) (contribAll : ℕ → ℚ) : ℕ → ℚ :=
  if copy ≠ stride then fun j => contribAll (j / copy * stride + j % copy) else contribAll

/-- Every device gets its slice of every source. -/
def broadcastEpReturnSlices (stride : ℕ) (copy : ℕ → ℕ) (cs : Composes) : Except ℕ Composes :=
  if (List.range kGpus).any fun src => decide (stride < copy src) then .error 14
  else .ok fun dst => { cs dst with
    remote := fun src =>
      if copy src = 0 ∨ (mode.skipSelfCopy = true ∧ src = dst) then (cs dst).remote src
      else pasteAt 0 (copy src)
        (fun j => broadcastSlices stride (copy src) (cs src).contribAll (dst * copy src + j))
        ((cs dst).remote src) }

/-- Where a device reads the rows of a source: its own buffer, the source's, or the copy. -/
def rowsFrom (direct : Bool) (stride : ℕ) (cs : Composes) (dst src : ℕ) : ℕ → ℚ :=
  if (mode.skipSelfCopy = true ∧ src = dst) ∨ direct = true then
    fun j => (cs src).contribAll (dst * stride + j)
  else (cs dst).remote src

def packAll (cs : Composes) : Composes := fun p => { cs p with
  contribAll := launch (mode.sched p 0) (epPackRouteDestShards (cs p).down (ranks p).routeWeights
    (mode.limit ranks p) (ranks p).routes opt.entries p) (cs p).contribAll }

def composeCompactDst (cs : Composes) (dst : ℕ) : ComposeBuffers :=
  let plan := (ranks dst).routeCompactPlan
  { cs dst with
    nextHidden := launch (mode.sched dst 1) (grid block (opt.slots * shardCols)
      (composeNextHiddenCompact8MultiKernel (cs dst).current (cs dst).attn (cs dst).shared
        (rowsFrom mode false (opt.entries * shardCols) cs dst)
        (fun src j => plan (src * opt.entries + j))
        (fun src j => plan (kGpus * opt.entries + src * opt.slots + j)) dst opt.slots opt.topK))
      (cs dst).nextHidden }

/-- Packed by route, returned, and composed with the compact plan. -/
def composeCompact (cs : Composes) : Except ℕ Composes := do
  let cs := packAll opt mode ranks cs
  let cs ← broadcastEpReturnSlices mode (opt.entries * shardCols)
    (fun src => (ranks src).routes * shardCols) cs
  .ok fun dst => composeCompactDst opt mode ranks cs dst

def reduceAll (cs : Composes) : Composes := fun p =>
  let cleared := launch (mode.sched p 0)
    (grid block (kGpus * (opt.slots * shardCols)) (zeroF32Kernel (kGpus * (opt.slots * shardCols))))
    (cs p).contribAll
  { cs p with
    contribAll := launch (mode.sched p 1) (grid block ((ranks p).routes * kHidden)
      (epReduceAllDestShardsKernel (cs p).down (ranks p).routeSlots (ranks p).routeWeights
        (mode.limit ranks p) (ranks p).routes opt.slots p)) cleared }

def composeDenseDst (cs : Composes) (dst : ℕ) : ComposeBuffers :=
  { cs dst with
    nextHidden := launch (mode.sched dst 2) (grid block (opt.slots * shardCols)
      (composeNextHiddenSum8Kernel (cs dst).current (cs dst).attn (cs dst).shared
        (rowsFrom mode mode.directRemote (opt.slots * shardCols) cs dst) dst opt.slots))
      (cs dst).nextHidden }

/-- Summed densely by slot, returned unless read in place, and composed by the plain sum. -/
def composeDense (cs : Composes) : Except ℕ Composes := do
  let cs := reduceAll opt mode ranks cs
  let cs ← if mode.directRemote then .ok cs
    else broadcastEpReturnSlices mode (opt.slots * shardCols) (fun _ => opt.slots * shardCols) cs
  .ok fun dst => composeDenseDst opt mode cs dst

end Pipelines

end Ds4.Routing
