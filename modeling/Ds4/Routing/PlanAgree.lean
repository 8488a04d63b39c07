import Ds4.Routing.GpuPlanner
import Ds4.Routing.HostPlanners

/-! The three planners answer with one plan, the stable grouping of the choices. -/
namespace Ds4.Routing

open Parts

variable {W : Type} {opt : RouteOptions} {isFinite : W → Bool} {selected : ℕ → ℤ}
  {weights : ℕ → W} {rank : ℕ}

/-- A plan is the stable grouping of the choices: `routes src` lists the entries that source rank
`src` serves, in the order of its routes. -/
structure IsStableGrouping (opt : RouteOptions) (selected : ℕ → ℤ) (weights : ℕ → W)
    (routes : ℕ → List ℕ) (rank : ℕ) (p : DevicePlan W) : Prop where
  /-- Every choice of an expert of the rank is exactly one route. -/
  once : ∀ slot < opt.slots, ∀ k < opt.topK, Owned selected rank (slot * opt.topK + k) →
    ∃! a : ℕ, (routes rank)[a]? = some (slot * opt.topK + k)
  /-- Every route is such a choice. -/
  sound : ∀ a < p.routes, ∃ slot < opt.slots, ∃ k < opt.topK,
    Owned selected rank (slot * opt.topK + k) ∧
      (routes rank)[a]? = some (slot * opt.topK + k)
  /-- Local expert after local expert, the choices of one expert in their order. -/
  ordered : (routes rank).Pairwise fun i j => localOf (selected i) < localOf (selected j) ∨
    localOf (selected i) = localOf (selected j) ∧ i < j
  count : p.routes = (routes rank).length
  slots : ∀ a i, (routes rank)[a]? = some i → p.routeSlots a = (i / opt.topK : ℕ)
  weights : ∀ a i, (routes rank)[a]? = some i → p.routeWeights a = weights i
  /-- An expert's routes start behind those of all experts before it. -/
  offsets : ∀ e ≤ kLocalExperts,
    p.offsets e = (routes rank).countP fun i => localOf (selected i) < e
  monotone : ∀ e < kLocalExperts, p.offsets e ≤ p.offsets (e + 1)
  last : p.offsets kLocalExperts = p.routes ∧ p.routes ≤ opt.slots * opt.topK
  /-- A row of the compact plan is as long as its slot has choices on the source rank. -/
  rowLength : ∀ src < kGpus, ∀ slot < opt.slots,
    p.routeCompactPlan (kGpus * opt.entries + src * opt.slots + slot) =
      (chosen selected opt.topK src slot).length
  /-- It points at the routes of these choices, in their order. -/
  rowEntry : ∀ src < kGpus, ∀ slot < opt.slots, ∀ c k,
    (chosen selected opt.topK src slot)[c]? = some k →
    ∃ a : ℕ, p.routeCompactPlan (src * opt.entries + slot * opt.topK + c) = a ∧
      (routes src)[a]? = some (slot * opt.topK + k)
  rowRest : ∀ src < kGpus, ∀ slot < opt.slots, ∀ c < opt.topK,
    (chosen selected opt.topK src slot).length ≤ c →
    p.routeCompactPlan (src * opt.entries + slot * opt.topK + c) = -1

theorem existsUnique_place {i : ℕ} (hi : i < opt.entries) (h : Owned selected rank i) :
    ∃! a : ℕ, (routesOf selected opt.entries rank)[a]? = some i :=
  ⟨place selected opt.entries i, routesOf_place hi h, fun _ ha => (place_of_route ha).symm⟩

/-- The offset of an expert counts the routes of the experts before it. -/
theorem offsetOf_countP (e : ℕ) : offsetOf selected opt.entries rank e =
    (routesOf selected opt.entries rank).countP fun i => localOf (selected i) < e := by
  rw [routesOf_perm.countP_eq, ← grouped_length_countP ownedBefore_nodup, grouped_length]
  rfl

/-- The compact cell of a choice number of a slot. -/
theorem rowCell {src slot c : ℕ} (hsrc : src < kGpus) (hslot : slot < opt.slots)
    (hc : c < opt.topK) (old : ℕ → ℤ) :
    pasteAt 0 opt.compactRoutePlanInts (compactValue opt selected) old
      (src * opt.entries + slot * opt.topK + c) =
      rowValue selected opt.entries opt.topK src slot c := by
  have hb : slot * opt.topK + c < opt.entries := entry_lt hslot hc
  have hcell : src * opt.entries + (slot * opt.topK + c) < kGpus * opt.entries := entry_lt hsrc hb
  have hints : opt.compactRoutePlanInts = kGpus * opt.entries + kGpus * opt.slots :=
    Nat.mul_add _ _ _
  rw [Nat.add_assoc, pasteAt_zero_in (by omega), compactValue, if_pos hcell, entry_div hb,
    entry_mod hb, entry_div hc, entry_mod hc]

theorem countCell {src slot : ℕ} (hsrc : src < kGpus) (hslot : slot < opt.slots) (old : ℕ → ℤ) :
    pasteAt 0 opt.compactRoutePlanInts (compactValue opt selected) old
      (kGpus * opt.entries + src * opt.slots + slot) =
      (chosen selected opt.topK src slot).length := by
  have hcell : src * opt.slots + slot < kGpus * opt.slots := entry_lt hsrc hslot
  have hints : opt.compactRoutePlanInts = kGpus * opt.entries + kGpus * opt.slots :=
    Nat.mul_add _ _ _
  rw [Nat.add_assoc, pasteAt_zero_in (by omega), compactValue, if_neg (by omega),
    Nat.add_sub_cancel_left, entry_div hslot, entry_mod hslot]

theorem chosen_length_le {topK src slot : ℕ} : (chosen selected topK src slot).length ≤ topK := by
  calc (chosen selected topK src slot).length ≤ (List.range topK).length :=
        List.length_filter_le _ _
    _ = topK := List.length_range

theorem mem_chosen {topK src slot k : ℕ} : k ∈ chosen selected topK src slot ↔
    k < topK ∧ Owned selected src (slot * topK + k) := by
  simp [chosen]

/-- What the planners lay over a device is the stable grouping. -/
theorem plannedOn_stable (rank : ℕ) (old : DevicePlan W) :
    IsStableGrouping opt selected weights (routesOf selected opt.entries) rank
      (plannedOn opt selected weights rank old) where
  once := by
    intro slot hslot k hk hown
    exact existsUnique_place (entry_lt hslot hk) hown
  sound := by
    intro a ha
    have ha' : a < (routesOf selected opt.entries rank).length := ha
    obtain ⟨hi, hown⟩ := mem_routesOf.1 (List.getElem_mem ha')
    have hpos := topK_pos hi
    refine ⟨(routesOf selected opt.entries rank)[a] / opt.topK,
      (Nat.div_lt_iff_lt_mul hpos).2 hi, (routesOf selected opt.entries rank)[a] % opt.topK,
      Nat.mod_lt _ hpos, ?_, ?_⟩
    · rw [Nat.div_add_mod']
      exact hown
    · rw [Nat.div_add_mod']
      exact List.getElem?_eq_getElem ha'
  ordered := by
    apply grouped_ordered
    exact List.pairwise_lt_range.filter _
  count := rfl
  slots := by
    intro a i ha
    obtain ⟨hlt, hget⟩ := List.getElem?_eq_some_iff.1 ha
    simp only [plannedOn]
    rw [pasteAt_zero_in hlt, List.getD_eq_getElem _ _ hlt, hget]
  weights := by
    intro a i ha
    obtain ⟨hlt, hget⟩ := List.getElem?_eq_some_iff.1 ha
    simp only [plannedOn]
    rw [pasteAt_zero_in hlt, List.getD_eq_getElem _ _ hlt, hget]
  offsets := by
    intro e he
    simp only [plannedOn]
    rw [pasteAt_zero_in (Nat.lt_succ_of_le he), offsetOf_countP]
  monotone := by
    intro e he
    simp only [plannedOn]
    rw [pasteAt_zero_in (Nat.lt_succ_of_lt he), pasteAt_zero_in (Nat.succ_lt_succ he),
      offsetOf_succ]
    push_cast
    omega
  last := by
    constructor
    · simp only [plannedOn]
      rw [pasteAt_zero_in (Nat.lt_succ_self _), routesOf_length]
    · exact routesOf_length_le
  rowLength := fun src hsrc slot hslot => countCell hsrc hslot old.routeCompactPlan
  rowEntry := by
    intro src hsrc slot hslot c k hk
    obtain ⟨hlt, hget⟩ := List.getElem?_eq_some_iff.1 hk
    obtain ⟨hk', hown⟩ := mem_chosen.1 (hget ▸ List.getElem_mem hlt)
    refine ⟨place selected opt.entries (slot * opt.topK + k), ?_,
      routesOf_place (entry_lt hslot hk') hown⟩
    simp only [plannedOn]
    rw [rowCell hsrc hslot (lt_of_lt_of_le hlt chosen_length_le), rowValue, hk]
  rowRest := by
    intro src hsrc slot hslot c hc hlen
    simp only [plannedOn]
    rw [rowCell hsrc hslot hc, rowValue, List.getElem?_eq_none hlen]

/-- The host planners have no row for two routes of one slot on one rank. -/
def DuplicateRefused (opt : RouteOptions) (selected : ℕ → ℤ) : Prop :=
  opt.compactRouteCompose ∧ !opt.compactMoeDecodeGate ∧ HasDuplicate opt selected

/-- One plan, the stable grouping, is what every planner leaves on the devices that its options
let it plan for; in the other cases each refuses and leaves the devices alone. -/
theorem planners_agree [Zero W] (opt : RouteOptions) (isFinite : W → Bool)
    (selected : HostVec ℤ) (weights : HostVec W) (oldOffsets : ℕ → ℕ → ℕ)
    (oldRoutes : ℕ → HostRoutes W) (sched : ℕ → ℕ → Schedule) (ranks : Ranks W)
    (hsize : opt.entries ≤ selected.size) (hsize' : opt.entries ≤ weights.size)
    (hv : ValidChoices opt isFinite selected.data weights.data)
    (hroom : ∀ rank < kGpus, Roomy opt (ranks rank)) :
    let sync := uploadModelRouterRoutePlan opt isFinite selected weights ranks
    let async := uploadModelRouterRoutePlanAsync opt isFinite selected.data weights.data
      (initRoutePlanHostWorkspace opt oldOffsets oldRoutes) ranks
    let gpu := uploadModelRouterRoutePlanGpu opt sched selected.data weights.data ranks
    ∃ (routes : ℕ → List ℕ) (plan : ℕ → DevicePlan W),
      (∀ rank < kGpus,
        IsStableGrouping opt selected.data weights.data routes rank (plan rank)) ∧
      (¬ DuplicateRefused opt selected.data →
        sync.1 = 0 ∧ ∀ rank < kGpus, (sync.2 rank).plan = plan rank) ∧
      (¬ DuplicateRefused opt selected.data → ¬ opt.routedFfnNormInputGate →
        async.1 = 0 ∧ ∀ rank < kGpus, (async.2 rank).plan = plan rank) ∧
      (opt.compactMoeDecodeGate → gpu.1 = 0 ∧ ∀ rank < kGpus, (gpu.2 rank).plan = plan rank) ∧
      (DuplicateRefused opt selected.data → sync = (3, ranks)) ∧
      (DuplicateRefused opt selected.data → ¬ opt.routedFfnNormInputGate → async = (3, ranks)) ∧
      (opt.routedFfnNormInputGate → async = (8, ranks)) ∧
      (¬ opt.compactMoeDecodeGate → gpu = (1, ranks)) := by
  intro sync async gpu
  obtain ⟨hrefuse, hplan⟩ := uploadModelRouterRoutePlan_spec hsize hsize' hv hroom
  refine ⟨routesOf selected.data opt.entries, fun rank => plannedOn opt selected.data
    weights.data rank (ranks rank).plan, ?_, ?_, ?_, ?_, hrefuse, ?_, ?_, ?_⟩
  · intro rank _
    exact plannedOn_stable rank (ranks rank).plan
  · intro hno
    obtain ⟨ranks', hok, hplans⟩ := hplan hno
    simp only [sync, hok]
    exact ⟨trivial, hplans⟩
  · intro hno hnorm
    obtain ⟨ranks', hok, hplans⟩ : ∃ ranks', async = (0, ranks') ∧ ∀ rank < kGpus,
        (ranks' rank).plan = plannedOn opt selected.data weights.data rank (ranks rank).plan :=
      uploadModelRouterRoutePlanAsync_ok hv hroom hnorm hno
    rw [hok]
    exact ⟨rfl, hplans⟩
  · intro hgate
    obtain ⟨ranks', hok, hplans⟩ := uploadModelRouterRoutePlanGpu_ok sched selected.data
      weights.data ranks hroom hgate
    simp only [gpu, hok]
    exact ⟨trivial, fun rank hrank => (hplans rank hrank).1⟩
  · intro hdup hnorm
    exact uploadModelRouterRoutePlanAsync_duplicate hv hnorm hdup
  · intro hnorm
    exact uploadModelRouterRoutePlanAsync_norm hnorm
  · intro hgate
    exact if_pos (by rw [Bool.not_eq_true] at hgate; rw [hgate]; rfl)

section Sample

/-- Two slots with two choices each: one expert twice, then one expert and nothing. -/
def sampleOptions : RouteOptions :=
  { slots := 2
    topK := 2
    compactMoeDecodeGate := true
    compactRouteCompose := false
    routedFfnNormInputGate := false }

def sampleSelected : HostVec ℤ := ⟨4, fun i => [5, 5, 40, -1].getD i (-1)⟩

def sampleWeights : HostVec ℤ := ⟨4, fun i => [1, 2, 3, 4].getD i 0⟩

def sampleRanks : Ranks ℤ := fun _ =>
  { routes := 0
    routeCapacity := 4
    activeExperts := 0
    maxRoutesPerExpert := 0
    routeIndexBySlot := fun _ _ => -1
    routeCompactPlan := fun _ => -1
    routeCompactPlanInts := 48
    routerSelectedPlan := fun _ => 0
    routerWeightsPlan := fun _ => 0
    routeOffsetsAll := fun _ => 0
    routeTotals := fun _ => 0
    offsets := fun _ => 0
    routeSlots := fun _ => 0
    routeWeights := fun _ => 0 }

def sampleRoutes : HostRoutes ℤ := freshRoutes fun _ => 0

theorem sample_agrees : ∃ plan : ℕ → DevicePlan ℤ,
    (uploadModelRouterRoutePlan sampleOptions (fun _ => true) sampleSelected sampleWeights
      sampleRanks).1 = 0 ∧
    ∀ rank < kGpus, ((uploadModelRouterRoutePlan sampleOptions (fun _ => true) sampleSelected
      sampleWeights sampleRanks).2 rank).plan = plan rank ∧
      ((uploadModelRouterRoutePlanGpu sampleOptions (fun _ _ => Schedule.reversed)
        sampleSelected.data sampleWeights.data sampleRanks).2 rank).plan = plan rank := by
  have hno : ¬ DuplicateRefused sampleOptions sampleSelected.data :=
    fun h => Bool.false_ne_true h.1
  obtain ⟨routes, plan, -, hsync, -, hgpu, -⟩ := planners_agree sampleOptions (fun _ => true)
    sampleSelected sampleWeights (fun _ _ => 0) (fun _ => sampleRoutes)
    (fun _ _ => Schedule.reversed) sampleRanks (by decide) (by decide)
    (by unfold ValidChoices; decide) (fun _ _ => ⟨rfl, rfl⟩)
  refine ⟨plan, (hsync hno).1, ?_⟩
  intro rank hrank
  exact ⟨(hsync hno).2 rank hrank, (hgpu rfl).2 rank hrank⟩

end Sample

end Ds4.Routing
