import Ds4.Engine.Constants
import Ds4.Parts.Launch

/-! The route planners: two on the host, and the kernels that plan on every device. -/
namespace Ds4.Routing

open Parts

structure RouteOptions where
  slots : ℕ
  topK : ℕ
  compactMoeDecodeGate : Bool
  compactRouteCompose : Bool
  routedFfnNormInputGate : Bool

namespace RouteOptions

/-- Entries of the selected experts, slot after slot. -/
def entries (opt : RouteOptions) : ℕ := opt.slots * opt.topK

def compactRoutePlanInts (opt : RouteOptions) : ℕ := kGpus * (opt.entries + opt.slots)

end RouteOptions

/-- A host vector. -/
structure HostVec (α : Type) where
  size : ℕ
  data : ℕ → α

/-- The state of one device. A memory is a function of the index. -/
structure RankState (W : Type) where
  routes : ℕ
  routeCapacity : ℕ
  activeExperts : ℕ
  maxRoutesPerExpert : ℕ
  routeIndexBySlot : ℕ → ℕ → ℤ
  routeCompactPlan : ℕ → ℤ
  routeCompactPlanInts : ℕ
  routerSelectedPlan : ℕ → ℤ
  routerWeightsPlan : ℕ → W
  routeOffsetsAll : ℕ → ℤ
  routeTotals : ℕ → ℤ
  offsets : ℕ → ℤ
  routeSlots : ℕ → ℤ
  routeWeights : ℕ → W

abbrev Ranks (W : Type) := ℕ → RankState W

/-- What a planner answers: its return code and the devices. -/
abbrev Planned (W : Type) := ℕ × Ranks W

def rankOf (expert : ℤ) : ℕ := (expert / kLocalExperts).toNat

def localOf (expert : ℤ) : ℕ := (expert % kLocalExperts).toNat

/-- A block of memory copied to an offset of another. -/
def pasteAt {α : Type} (start n : ℕ) (src mem : ℕ → α) : ℕ → α :=
  fun i => if start ≤ i ∧ i < start + n then src (i - start) else mem i

section Counting

structure CountState where
  counts : ℕ → ℕ → ℕ
  seenRank : ℕ → Bool
  compactDuplicate : Bool

def countRoute (expert : ℤ) (st : CountState) : Except ℕ CountState :=
  if expert < 0 then .ok st
  else if kGlobalExperts ≤ expert then .error 2
  else
    let rank := rankOf expert
    let loc := localOf expert
    .ok
      { counts := Function.update st.counts rank
          (Function.update (st.counts rank) loc (st.counts rank loc + 1))
        seenRank := Function.update st.seenRank rank true
        compactDuplicate := st.compactDuplicate || st.seenRank rank }

def countSlot (opt : RouteOptions) (selected : ℕ → ℤ) (st : CountState) (slot : ℕ) :
    Except ℕ CountState :=
  (List.range opt.topK).foldlM
    (fun st k => countRoute (selected (slot * opt.topK + k)) st)
    { st with seenRank := fun _ => false }

def countRoutes (opt : RouteOptions) (selected : ℕ → ℤ) : Except ℕ CountState :=
  (List.range opt.slots).foldlM (countSlot opt selected) ⟨fun _ _ => 0, fun _ => false, false⟩

end Counting

section Offsets

structure OffsetScan where
  offsets : ℕ → ℕ
  running : ℕ

def offsetStep (counts : ℕ → ℕ) (st : OffsetScan) (e : ℕ) : OffsetScan :=
  { offsets := Function.update st.offsets e st.running, running := st.running + counts e }

def offsetScan (counts : ℕ → ℕ) (old : ℕ → ℕ) : OffsetScan :=
  let st := (List.range kLocalExperts).foldl (offsetStep counts) ⟨old, 0⟩
  { st with offsets := Function.update st.offsets kLocalExperts st.running }

/-- The experts with a route, and the most routes of one expert. -/
def activity (counts : ℕ → ℤ) : ℕ × ℤ :=
  (List.range kLocalExperts).foldl
    (fun st e => (if 0 < counts e then st.1 + 1 else st.1, max st.2 (counts e))) (0, 0)

end Offsets

section Filling
variable {W : Type}

/-- The host vectors of one rank. -/
structure HostRoutes (W : Type) where
  cursor : ℕ → ℕ
  routeSlots : ℕ → ℤ
  routeWeights : ℕ → W
  routeIndexBySlot : ℕ → ℤ
  routeIndicesBySlot : ℕ → ℤ
  routeCountBySlot : ℕ → ℕ

/-- One route of a rank goes to the cursor of its expert. -/
def fillRoute (opt : RouteOptions) (isFinite : W → Bool) (slot loc : ℕ) (w : W)
    (r : HostRoutes W) : Except ℕ (HostRoutes W) :=
  let idx := r.cursor loc
  if !isFinite w then .error 5
  else
    let count := r.routeCountBySlot slot
    if opt.topK ≤ count then .error 6
    else .ok
      { cursor := Function.update r.cursor loc (idx + 1)
        routeSlots := Function.update r.routeSlots idx slot
        routeWeights := Function.update r.routeWeights idx w
        routeIndexBySlot :=
          if !opt.compactMoeDecodeGate && decide (r.routeIndexBySlot slot < 0) then
            Function.update r.routeIndexBySlot slot idx
          else r.routeIndexBySlot
        routeIndicesBySlot :=
          Function.update r.routeIndicesBySlot (slot * opt.topK + count) idx
        routeCountBySlot := Function.update r.routeCountBySlot slot (count + 1) }

/-- The synchronous planner passes over all entries once for each rank. -/
def fillRank (opt : RouteOptions) (isFinite : W → Bool) (selected : ℕ → ℤ) (weights : ℕ → W)
    (rank : ℕ) (r : HostRoutes W) : Except ℕ (HostRoutes W) :=
  (List.range opt.slots).foldlM (fun r slot =>
    (List.range opt.topK).foldlM (fun r k =>
      let expert := selected (slot * opt.topK + k)
      if expert < 0 then .ok r
      else if rankOf expert ≠ rank then .ok r
      else fillRoute opt isFinite slot (localOf expert) (weights (slot * opt.topK + k)) r) r) r

/-- The asynchronous planner passes over all entries once and serves every rank. -/
def fillAll (opt : RouteOptions) (isFinite : W → Bool) (selected : ℕ → ℤ) (weights : ℕ → W)
    (rs : ℕ → HostRoutes W) : Except ℕ (ℕ → HostRoutes W) :=
  (List.range opt.slots).foldlM (fun rs slot =>
    (List.range opt.topK).foldlM (fun rs k =>
      let expert := selected (slot * opt.topK + k)
      if expert < 0 then .ok rs
      else do
        let rank := rankOf expert
        let r ← fillRoute opt isFinite slot (localOf expert) (weights (slot * opt.topK + k))
          (rs rank)
        .ok (Function.update rs rank r)) rs) rs

end Filling

section Upload
variable {W : Type}

def uploadRank (counts : ℕ → ℕ) (scan : OffsetScan) (filled : HostRoutes W) (r : RankState W) :
    RankState W :=
  { r with
    routes := scan.running
    activeExperts := (activity fun e => counts e).1
    maxRoutesPerExpert := (activity fun e => counts e).2.toNat
    offsets := pasteAt 0 (kLocalExperts + 1) (fun i => scan.offsets i) r.offsets
    routeSlots := pasteAt 0 scan.running filled.routeSlots r.routeSlots
    routeWeights := pasteAt 0 scan.running filled.routeWeights r.routeWeights }

/-- The indices and the counts of a source rank, at their places of a plan. -/
def pasteSource (opt : RouteOptions) (filled : ℕ → HostRoutes W) (plan : ℕ → ℤ) (src : ℕ) :
    ℕ → ℤ :=
  pasteAt (kGpus * opt.entries + src * opt.slots) opt.slots
    (fun i => (filled src).routeCountBySlot i)
    (pasteAt (src * opt.entries) opt.entries (filled src).routeIndicesBySlot plan)

def packSources (opt : RouteOptions) (filled : ℕ → HostRoutes W) (plan : ℕ → ℤ) : ℕ → ℤ :=
  (List.range kGpus).foldl (pasteSource opt filled) plan

def singleIndices (opt : RouteOptions) (filled : ℕ → HostRoutes W) (r : RankState W) :
    ℕ → ℕ → ℤ :=
  (List.range kGpus).foldl (fun idx src =>
    Function.update idx src (pasteAt 0 opt.slots (filled src).routeIndexBySlot (idx src)))
    r.routeIndexBySlot

/-- The plan over all source ranks reaches one device. Without the packed plan the rows are
copied one by one to the places of the same memory that the device's pointers are bound to. -/
def publish (opt : RouteOptions) (planInts : ℕ) (filled : ℕ → HostRoutes W) (r : RankState W) :
    Except ℕ (RankState W) :=
  if opt.compactMoeDecodeGate then
    if r.routeCompactPlanInts < planInts then .error 7
    else .ok { r with
      routeCompactPlan :=
        pasteAt 0 planInts (packSources opt filled fun _ => -1) r.routeCompactPlan }
  else .ok { r with
    routeIndexBySlot := singleIndices opt filled r
    routeCompactPlan := packSources opt filled r.routeCompactPlan }

def publishAll (opt : RouteOptions) (planInts : ℕ) (filled : ℕ → HostRoutes W)
    (ranks : Ranks W) : Except (Planned W) (Ranks W) :=
  (List.range kGpus).foldlM (fun ranks dst =>
    match publish opt planInts filled (ranks dst) with
    | .error rc => .error (rc, ranks)
    | .ok r => .ok (Function.update ranks dst r)) ranks

end Upload

/-- The code and the devices at a return. -/
def finish {W : Type} (x : Except (Planned W) (Ranks W)) : Planned W :=
  match x with
  | .error e => e
  | .ok ranks => (0, ranks)

section Sync
variable {W : Type} [Zero W]

def freshRoutes (cursor : ℕ → ℕ) : HostRoutes W :=
  { cursor
    routeSlots := fun _ => -1
    routeWeights := fun _ => 0
    routeIndexBySlot := fun _ => -1
    routeIndicesBySlot := fun _ => -1
    routeCountBySlot := fun _ => 0 }

def planRank (opt : RouteOptions) (isFinite : W → Bool) (selected : ℕ → ℤ) (weights : ℕ → W)
    (counts : ℕ → ℕ → ℕ) (st : Ranks W × (ℕ → HostRoutes W)) (rank : ℕ) :
    Except (Planned W) (Ranks W × (ℕ → HostRoutes W)) :=
  let scan := offsetScan (counts rank) fun _ => 0
  if (st.1 rank).routeCapacity < scan.running then .error (4, st.1)
  else
    match fillRank opt isFinite selected weights rank (freshRoutes scan.offsets) with
    | .error rc => .error (rc, st.1)
    | .ok filled => .ok
        (Function.update st.1 rank (uploadRank (counts rank) scan filled (st.1 rank)),
          Function.update st.2 rank filled)

def uploadModelRouterRoutePlan (opt : RouteOptions) (isFinite : W → Bool)
    (selected : HostVec ℤ) (weights : HostVec W) (ranks : Ranks W) : Planned W :=
  if selected.size < opt.entries ∨ weights.size < opt.entries then (1, ranks)
  else
    match countRoutes opt selected.data with
    | .error rc => (rc, ranks)
    | .ok counted =>
      if opt.compactRouteCompose && counted.compactDuplicate && !opt.compactMoeDecodeGate then
        (3, ranks)
      else
        finish do
          let (ranks, filled) ← (List.range kGpus).foldlM
            (planRank opt isFinite selected.data weights.data counted.counts)
            (ranks, fun _ => freshRoutes fun _ => 0)
          publishAll opt opt.compactRoutePlanInts filled ranks

end Sync

section Async
variable {W : Type} [Zero W]

/-- The pinned buffers that every call of the asynchronous planner uses again. -/
structure RoutePlanHostWorkspace (W : Type) where
  initialized : Bool
  slots : ℕ
  topK : ℕ
  routeCapacity : ℕ
  compactPlanInts : ℕ
  offsets : ℕ → ℕ → ℕ
  routes : ℕ → HostRoutes W

def initRoutePlanHostWorkspace (opt : RouteOptions) (offsets : ℕ → ℕ → ℕ)
    (routes : ℕ → HostRoutes W) : RoutePlanHostWorkspace W :=
  { initialized := true
    slots := opt.slots
    topK := opt.topK
    routeCapacity := opt.entries
    compactPlanInts := kGpus * (opt.entries + opt.slots)
    offsets
    routes }

/-- The buffers of a rank before the pass: reset as far as this call will use them. -/
def resetRoutes (opt : RouteOptions) (scan : OffsetScan) (old : HostRoutes W) : HostRoutes W :=
  { cursor := scan.offsets
    routeSlots := pasteAt 0 scan.running (fun _ => -1) old.routeSlots
    routeWeights := pasteAt 0 scan.running (fun _ => 0) old.routeWeights
    routeIndexBySlot :=
      if opt.compactMoeDecodeGate then old.routeIndexBySlot
      else pasteAt 0 opt.slots (fun _ => -1) old.routeIndexBySlot
    routeIndicesBySlot := pasteAt 0 opt.entries (fun _ => -1) old.routeIndicesBySlot
    routeCountBySlot := pasteAt 0 opt.slots (fun _ => 0) old.routeCountBySlot }

def overCapacity (ws : RoutePlanHostWorkspace W) (counts : ℕ → ℕ → ℕ) (ranks : Ranks W)
    (rank : ℕ) : Bool :=
  let scan := offsetScan (counts rank) (ws.offsets rank)
  decide ((ranks rank).routeCapacity < scan.running) || decide (ws.routeCapacity < scan.running)

def uploadModelRouterRoutePlanAsync (opt : RouteOptions) (isFinite : W → Bool)
    (selected : ℕ → ℤ) (weights : ℕ → W) (ws : RoutePlanHostWorkspace W) (ranks : Ranks W) :
    Planned W :=
  if !ws.initialized ∨ ws.slots ≠ opt.slots ∨ ws.topK ≠ opt.topK ∨ ws.routeCapacity < opt.entries
  then (1, ranks)
  else if opt.routedFfnNormInputGate then (8, ranks)
  else
    match countRoutes opt selected with
    | .error rc => (rc, ranks)
    | .ok counted =>
      if opt.compactRouteCompose && counted.compactDuplicate && !opt.compactMoeDecodeGate then
        (3, ranks)
      else if (List.range kGpus).any (overCapacity ws counted.counts ranks) then (4, ranks)
      else
        let scan := fun rank => offsetScan (counted.counts rank) (ws.offsets rank)
        match fillAll opt isFinite selected weights
          fun rank => resetRoutes opt (scan rank) (ws.routes rank) with
        | .error rc => (rc, ranks)
        | .ok filled =>
          let ranks := (List.range kGpus).foldl (fun ranks rank =>
            Function.update ranks rank
              (uploadRank (counted.counts rank) (scan rank) (filled rank) (ranks rank))) ranks
          if opt.compactMoeDecodeGate ∧
            ws.compactPlanInts < kGpus * (opt.entries + opt.slots) then (7, ranks)
          else finish (publishAll opt ws.compactPlanInts filled ranks)

end Async

section Kernels
variable {W : Type}

/-- The threads of a block. -/
def block : ℕ := 256

/-- The place of an expert in the offsets of all ranks. -/
def offsetAt (rank loc : ℕ) : ℕ := rank * (kLocalExperts + 1) + loc

def IsExpert (expert : ℤ) : Prop := 0 ≤ expert ∧ expert < kGlobalExperts

instance (expert : ℤ) : Decidable (IsExpert expert) := inferInstanceAs (Decidable (_ ∧ _))

def gpuRouteCountAllKernel (selected : ℕ → ℤ) (total : ℕ) (i : ℕ) : List (Access ℤ) :=
  if total ≤ i then []
  else if IsExpert (selected i) then
    [Access.add (offsetAt (rankOf (selected i)) (localOf (selected i) + 1)) 1]
  else []

/-- The thread of a rank turns its counts into offsets in place. -/
def gpuRoutePrefixAllKernel (st : (ℕ → ℤ) × (ℕ → ℤ)) (rank : ℕ) : (ℕ → ℤ) × (ℕ → ℤ) :=
  let scan := (List.range kLocalExperts).foldl (fun (st : (ℕ → ℤ) × ℤ) loc =>
    (Function.update st.1 (offsetAt rank loc) st.2, st.2 + st.1 (offsetAt rank (loc + 1))))
    (st.1, 0)
  (Function.update scan.1 (offsetAt rank kLocalExperts) scan.2,
    Function.update st.2 rank scan.2)

def gpuRouteInitCompactPlanKernel (opt : RouteOptions) (i : ℕ) : List (Access ℤ) :=
  (if i < kGpus * opt.entries then [Access.store i (-1)] else []) ++
    if i < kGpus * opt.slots then [Access.store (kGpus * opt.entries + i) 0] else []

def gpuRouteCopyOwnOffsetsKernel (offsetsAll : ℕ → ℤ) (rank i : ℕ) : List (Access ℤ) :=
  if i ≤ kLocalExperts then [Access.store i (offsetsAll (offsetAt rank i))] else []

/-- Where a fill thread puts its route. -/
def routeIdx (selected offsetsAll : ℕ → ℤ) (i : ℕ) : ℤ :=
  offsetsAll (offsetAt (rankOf (selected i)) (localOf (selected i))) +
    (List.range i).countP fun j => selected j = selected i

/-- How many earlier choices of the slot went to the same rank. -/
def routeOrder (opt : RouteOptions) (selected : ℕ → ℤ) (i : ℕ) : ℕ :=
  (List.range (i - i / opt.topK * opt.topK)).countP fun k =>
    IsExpert (selected (i / opt.topK * opt.topK + k)) ∧
      rankOf (selected (i / opt.topK * opt.topK + k)) = rankOf (selected i)

/-- What the fill threads write to the compact plan. -/
def gpuRouteFillCompact (opt : RouteOptions) (selected offsetsAll : ℕ → ℤ) (i : ℕ) :
    List (Access ℤ) :=
  if opt.entries ≤ i then []
  else if IsExpert (selected i) then
    let src := rankOf (selected i)
    let slot := i / opt.topK
    (if routeOrder opt selected i < opt.topK then
      [Access.store (src * opt.entries + slot * opt.topK + routeOrder opt selected i)
        (routeIdx selected offsetsAll i)]
    else []) ++ [Access.add (kGpus * opt.entries + src * opt.slots + slot) 1]
  else []

/-- What the fill threads write to a buffer of their own rank: the slots or the weights. -/
def gpuRouteFillOwn {β : Type} (opt : RouteOptions) (selected offsetsAll : ℕ → ℤ)
    (localRank : ℕ) (value : ℕ → β) (i : ℕ) : List (Access β) :=
  if opt.entries ≤ i then []
  else if IsExpert (selected i) ∧ rankOf (selected i) = localRank then
    [Access.store (routeIdx selected offsetsAll i).toNat (value i)]
  else []

/-- The five launches of one device, in their stream's order. -/
def gpuPlanRank (opt : RouteOptions) (sched : ℕ → Schedule) (rank : ℕ) (r : RankState W) :
    RankState W :=
  let selected := r.routerSelectedPlan
  let counted := launch (sched 0) (grid block opt.entries (gpuRouteCountAllKernel selected
    opt.entries)) (pasteAt 0 (kGpus * (kLocalExperts + 1)) (fun _ => 0) r.routeOffsetsAll)
  let scanned := ((sched 1).order (List.range kGpus)).foldl gpuRoutePrefixAllKernel
    (counted, pasteAt 0 kGpus (fun _ => 0) r.routeTotals)
  let cleared := launch (sched 2) (grid block opt.compactRoutePlanInts
    (gpuRouteInitCompactPlanKernel opt)) r.routeCompactPlan
  { r with
    routeOffsetsAll := scanned.1
    routeTotals := scanned.2
    offsets := launch (sched 3) ((List.range (kLocalExperts + 1)).flatMap
      (gpuRouteCopyOwnOffsetsKernel scanned.1 rank)) r.offsets
    routeCompactPlan := launch (sched 4) (grid block opt.entries
      (gpuRouteFillCompact opt selected scanned.1)) cleared
    routeSlots := launch (sched 4) (grid block opt.entries
      (gpuRouteFillOwn opt selected scanned.1 rank fun i => ((i / opt.topK : ℕ) : ℤ)))
      r.routeSlots
    routeWeights := launch (sched 4) (grid block opt.entries
      (gpuRouteFillOwn opt selected scanned.1 rank r.routerWeightsPlan)) r.routeWeights }

/-- The router's choices reach every device. -/
def broadcast (opt : RouteOptions) (selected : ℕ → ℤ) (weights : ℕ → W) (r : RankState W) :
    RankState W :=
  { r with
    routerSelectedPlan := pasteAt 0 opt.entries selected r.routerSelectedPlan
    routerWeightsPlan := pasteAt 0 opt.entries weights r.routerWeightsPlan }

/-- The host reads the totals and the offsets of the first device back. -/
def readTotals (totals offsetsAll : ℕ → ℤ) (ranks : Ranks W) (rank : ℕ) :
    Except (Planned W) (Ranks W) :=
  if ((ranks rank).routeCapacity : ℤ) < totals rank then .error (3, ranks)
  else
    let act := activity fun loc =>
      offsetsAll (offsetAt rank (loc + 1)) - offsetsAll (offsetAt rank loc)
    .ok (Function.update ranks rank { ranks rank with
      routes := (totals rank).toNat
      activeExperts := act.1
      maxRoutesPerExpert := act.2.toNat })

/-- All devices after their launches. -/
def gpuPlanRanks (opt : RouteOptions) (sched : ℕ → ℕ → Schedule) (selected : ℕ → ℤ)
    (weights : ℕ → W) (ranks : Ranks W) : Ranks W := fun rank =>
  if rank < kGpus then
    gpuPlanRank opt (sched rank) rank (broadcast opt selected weights (ranks rank))
  else ranks rank

def uploadModelRouterRoutePlanGpu (opt : RouteOptions) (sched : ℕ → ℕ → Schedule)
    (selected : ℕ → ℤ) (weights : ℕ → W) (ranks : Ranks W) : Planned W :=
  if !opt.compactMoeDecodeGate then (1, ranks)
  else
    let ranks := gpuPlanRanks opt sched selected weights ranks
    finish ((List.range kGpus).foldlM
      (readTotals (ranks 0).routeTotals (ranks 0).routeOffsetsAll) ranks)

/-- The variant for a captured graph: every device keeps room for all routes. -/
def uploadPostAttentionFixedCapacityRoutePlanGpu [Zero W] (opt : RouteOptions)
    (sched : ℕ → ℕ → Schedule) (selected : ℕ → ℤ) (weights : ℕ → W) (ranks : Ranks W) :
    Planned W :=
  if !opt.compactMoeDecodeGate then (1, ranks)
  else
    (0, gpuPlanRanks opt sched selected weights fun rank => { ranks rank with
      routes := (ranks rank).routeCapacity
      activeExperts := kLocalExperts
      maxRoutesPerExpert := (ranks rank).routeCapacity
      routeSlots := pasteAt 0 (ranks rank).routeCapacity (fun _ => 0) (ranks rank).routeSlots
      routeWeights := pasteAt 0 (ranks rank).routeCapacity (fun _ => 0)
        (ranks rank).routeWeights })

end Kernels

end Ds4.Routing
