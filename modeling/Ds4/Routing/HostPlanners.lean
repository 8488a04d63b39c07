import Ds4.Routing.HostPlan

/-! Both host planners lay the stable grouping over the devices. -/
namespace Ds4.Routing

open Parts

variable {W : Type} {opt : RouteOptions} {isFinite : W → Bool} {selected : ℕ → ℤ}
  {weights : ℕ → W}

/-- A device whose routes are uploaded and whose compact plan is still the old one. -/
structure Uploaded (opt : RouteOptions) (selected : ℕ → ℤ) (weights : ℕ → W) (rank : ℕ)
    (old now : RankState W) : Prop where
  plan : now.plan = (plannedOn opt selected weights rank old.plan).withCompact old.routeCompactPlan
  ints : now.routeCompactPlanInts = old.routeCompactPlanInts

theorem Uploaded.compact {rank : ℕ} {old now : RankState W}
    (h : Uploaded opt selected weights rank old now) :
    now.routeCompactPlan = old.routeCompactPlan := congrArg DevicePlan.routeCompactPlan h.plan

theorem uploadRank_uploaded {rank : ℕ} {counts old : ℕ → ℕ} {base filled : HostRoutes W}
    {r : RankState W} (hcounts : counts = expertCount selected opt.entries rank)
    (hfilled : FilledTo opt selected weights rank base opt.entries filled) :
    Uploaded opt selected weights rank r (uploadRank counts (offsetScan counts old) filled r) :=
  ⟨uploadRank_plan hcounts hfilled, rfl⟩

theorem plannedOn_withCompact (rank : ℕ) (old : DevicePlan W) (plan : ℕ → ℤ) :
    ((plannedOn opt selected weights rank old).withCompact plan).withCompact
      (pasteAt 0 opt.compactRoutePlanInts (compactValue opt selected) old.routeCompactPlan) =
      plannedOn opt selected weights rank old := by
  unfold plannedOn DevicePlan.withCompact
  simp only

/-- With the routes uploaded everywhere, the publication completes the plan. -/
theorem publish_uploaded {filled : ℕ → HostRoutes W} {ranks now : Ranks W}
    (hroom : ∀ rank < kGpus, Roomy opt (ranks rank))
    (hrows : ∀ src < kGpus, RowsOf opt selected src (filled src))
    (hup : ∀ rank < kGpus, Uploaded opt selected weights rank (ranks rank) (now rank)) :
    ∃ ranks', finish (publishAll opt opt.compactRoutePlanInts filled now) = (0, ranks') ∧
      ∀ rank < kGpus, (ranks' rank).plan =
        plannedOn opt selected weights rank (ranks rank).plan := by
  obtain ⟨ranks', hok, hplans⟩ := publishAll_ok hrows
    fun rank hrank => (hup rank hrank).ints.trans (hroom rank hrank).compact
  refine ⟨ranks', by rw [hok]; rfl, ?_⟩
  intro rank hrank
  rw [hplans rank hrank, (hup rank hrank).plan, (hup rank hrank).compact]
  exact plannedOn_withCompact rank (ranks rank).plan _

section Sync
variable [Zero W]

theorem planRank_ok {counts : ℕ → ℕ → ℕ} {rank : ℕ} {st : Ranks W × (ℕ → HostRoutes W)}
    (hv : ValidChoices opt isFinite selected weights)
    (hcounts : counts rank = expertCount selected opt.entries rank)
    (hroom : Roomy opt (st.1 rank)) :
    ∃ r filled, planRank opt isFinite selected weights counts st rank =
        .ok (Function.update st.1 rank r, Function.update st.2 rank filled) ∧
      Uploaded opt selected weights rank (st.1 rank) r ∧ RowsOf opt selected rank filled := by
  have hrun : (offsetScan (counts rank) fun _ => 0).running =
      (routesOf selected opt.entries rank).length := by
    rw [offsetScan_running, routesOf_length, hcounts]
    rfl
  have hfresh : Fresh opt selected rank
      (freshRoutes (offsetScan (counts rank) fun _ => 0).offsets : HostRoutes W) := by
    apply freshRoutes_fresh
    intro e he
    rw [offsetScan_offsets he.le, hcounts]
    rfl
  obtain ⟨filled, hok, hfilled⟩ := fillRank_ok hv hfresh
  refine ⟨uploadRank (counts rank) (offsetScan (counts rank) fun _ => 0) filled (st.1 rank),
    filled, ?_, uploadRank_uploaded hcounts hfilled, hfilled.rows hfresh⟩
  unfold planRank
  have hcap : ¬ (st.1 rank).routeCapacity < (offsetScan (counts rank) fun _ => 0).running := by
    rw [hrun, hroom.routes]
    exact Nat.not_lt.2 routesOf_length_le
  simp only [if_neg hcap, hok]

theorem planRanks_ok {counts : ℕ → ℕ → ℕ} {ranks : Ranks W} {s : ℕ → HostRoutes W}
    (hv : ValidChoices opt isFinite selected weights)
    (hcounts : ∀ rank, counts rank = expertCount selected opt.entries rank)
    (hroom : ∀ rank < kGpus, Roomy opt (ranks rank)) :
    ∃ st, (List.range kGpus).foldlM (planRank opt isFinite selected weights counts)
        (ranks, s) = .ok st ∧
      ∀ rank, (rank < kGpus → Uploaded opt selected weights rank (ranks rank) (st.1 rank) ∧
        RowsOf opt selected rank (st.2 rank)) ∧ (¬ rank < kGpus → st.1 rank = ranks rank) := by
  apply foldlM_range_ok (P := fun m (st : Ranks W × (ℕ → HostRoutes W)) =>
    ∀ rank, (rank < m → Uploaded opt selected weights rank (ranks rank) (st.1 rank) ∧
      RowsOf opt selected rank (st.2 rank)) ∧ (¬ rank < m → st.1 rank = ranks rank))
  · intro rank
    exact ⟨fun h => absurd h (Nat.not_lt_zero rank), fun _ => rfl⟩
  · intro m hm st hst
    have hsame : st.1 m = ranks m := (hst m).2 (lt_irrefl m)
    have hroom' : Roomy opt (st.1 m) := by
      rw [hsame]
      exact hroom m hm
    obtain ⟨r, filled, hok, hup, hrows⟩ := planRank_ok hv (hcounts m) hroom'
    refine ⟨_, hok, ?_⟩
    intro rank
    by_cases hrank : rank = m
    · subst hrank
      rw [hsame] at hup
      simp only [Function.update_self]
      exact ⟨fun _ => ⟨hup, hrows⟩, fun h => absurd (Nat.lt_succ_self rank) h⟩
    · simp only [Function.update_of_ne hrank]
      exact ⟨fun h => (hst rank).1 (by omega), fun h => (hst rank).2 (by omega)⟩

/-- The synchronous planner either refuses a duplicate it has no row for, or plans the stable
grouping on every device. -/
theorem uploadModelRouterRoutePlan_spec {selected : HostVec ℤ} {weights : HostVec W}
    {ranks : Ranks W} (hsize : opt.entries ≤ selected.size) (hsize' : opt.entries ≤ weights.size)
    (hv : ValidChoices opt isFinite selected.data weights.data)
    (hroom : ∀ rank < kGpus, Roomy opt (ranks rank)) :
    (opt.compactRouteCompose ∧ !opt.compactMoeDecodeGate ∧ HasDuplicate opt selected.data →
      uploadModelRouterRoutePlan opt isFinite selected weights ranks = (3, ranks)) ∧
    (¬ (opt.compactRouteCompose ∧ !opt.compactMoeDecodeGate ∧ HasDuplicate opt selected.data) →
      ∃ ranks', uploadModelRouterRoutePlan opt isFinite selected weights ranks = (0, ranks') ∧
        ∀ rank < kGpus, (ranks' rank).plan =
          plannedOn opt selected.data weights.data rank (ranks rank).plan) := by
  obtain ⟨counted, hcount, hcounts, hdup⟩ := countRoutes_ok fun i hi => (hv i hi).2.1
  have hlong : ¬ (selected.size < opt.entries ∨ weights.size < opt.entries) := by omega
  unfold uploadModelRouterRoutePlan
  rw [if_neg hlong, hcount]
  constructor
  · rintro ⟨hcompose, hgate, hrep⟩
    have hflag : (opt.compactRouteCompose && counted.compactDuplicate &&
        !opt.compactMoeDecodeGate) = true := by
      rw [hcompose, hdup.2 hrep, hgate]
      rfl
    exact if_pos hflag
  · intro hno
    have hflag : ¬ (opt.compactRouteCompose && counted.compactDuplicate &&
        !opt.compactMoeDecodeGate) = true := by
      simp only [Bool.and_eq_true]
      rintro ⟨⟨hcompose, hseen⟩, hgate⟩
      exact hno ⟨hcompose, hgate, hdup.1 hseen⟩
    obtain ⟨st, hok, hst⟩ := planRanks_ok (s := fun _ => freshRoutes fun _ => 0) hv
      (fun rank => funext (hcounts rank)) hroom
    simp only [if_neg hflag, hok]
    exact publish_uploaded hroom (fun src hsrc => ((hst src).1 hsrc).2)
      fun rank hrank => ((hst rank).1 hrank).1

end Sync

section Async
variable [Zero W]

omit [Zero W] in
theorem uploadAll_loop (up : ℕ → RankState W → RankState W) (ranks : Ranks W) (m rank : ℕ) :
    ((List.range m).foldl (fun now r => Function.update now r (up r (now r))) ranks) rank =
      if rank < m then up rank (ranks rank) else ranks rank := by
  induction m with
  | zero => rfl
  | succ m ih =>
    rw [List.range_succ, List.foldl_append, List.foldl_cons, List.foldl_nil]
    by_cases hrank : rank = m
    · subst hrank
      rw [Function.update_self, ih, if_neg (lt_irrefl rank), if_pos (Nat.lt_succ_self rank)]
    · rw [Function.update_of_ne hrank, ih]
      by_cases hlt : rank < m
      · rw [if_pos hlt, if_pos (Nat.lt_succ_of_lt hlt)]
      · rw [if_neg hlt, if_neg (by omega)]

variable {oldOffsets : ℕ → ℕ → ℕ} {oldRoutes : ℕ → HostRoutes W} {ranks : Ranks W}

omit [Zero W] in
theorem workspace_ready :
    ¬ (!(initRoutePlanHostWorkspace opt oldOffsets oldRoutes).initialized ∨
      (initRoutePlanHostWorkspace opt oldOffsets oldRoutes).slots ≠ opt.slots ∨
      (initRoutePlanHostWorkspace opt oldOffsets oldRoutes).topK ≠ opt.topK ∨
      (initRoutePlanHostWorkspace opt oldOffsets oldRoutes).routeCapacity < opt.entries) := by
  simp [initRoutePlanHostWorkspace]

theorem uploadModelRouterRoutePlanAsync_norm (hnorm : opt.routedFfnNormInputGate) :
    uploadModelRouterRoutePlanAsync opt isFinite selected weights
      (initRoutePlanHostWorkspace opt oldOffsets oldRoutes) ranks = (8, ranks) := by
  unfold uploadModelRouterRoutePlanAsync
  rw [if_neg workspace_ready, if_pos hnorm]

theorem uploadModelRouterRoutePlanAsync_duplicate
    (hv : ValidChoices opt isFinite selected weights) (hnorm : ¬ opt.routedFfnNormInputGate)
    (hno : opt.compactRouteCompose ∧ !opt.compactMoeDecodeGate ∧ HasDuplicate opt selected) :
    uploadModelRouterRoutePlanAsync opt isFinite selected weights
      (initRoutePlanHostWorkspace opt oldOffsets oldRoutes) ranks = (3, ranks) := by
  obtain ⟨counted, hcount, -, hdup⟩ := countRoutes_ok fun i hi => (hv i hi).2.1
  obtain ⟨hcompose, hgate, hrep⟩ := hno
  have hflag : (opt.compactRouteCompose && counted.compactDuplicate &&
      !opt.compactMoeDecodeGate) = true := by
    rw [hcompose, hdup.2 hrep, hgate]
    rfl
  unfold uploadModelRouterRoutePlanAsync
  rw [if_neg workspace_ready, if_neg hnorm, hcount]
  exact if_pos hflag

/-- The asynchronous planner plans the stable grouping as well, whatever an earlier call left in
its buffers. -/
theorem uploadModelRouterRoutePlanAsync_ok (hv : ValidChoices opt isFinite selected weights)
    (hroom : ∀ rank < kGpus, Roomy opt (ranks rank)) (hnorm : ¬ opt.routedFfnNormInputGate)
    (hno : ¬ (opt.compactRouteCompose ∧ !opt.compactMoeDecodeGate ∧ HasDuplicate opt selected)) :
    ∃ ranks', uploadModelRouterRoutePlanAsync opt isFinite selected weights
        (initRoutePlanHostWorkspace opt oldOffsets oldRoutes) ranks = (0, ranks') ∧
      ∀ rank < kGpus, (ranks' rank).plan =
        plannedOn opt selected weights rank (ranks rank).plan := by
  obtain ⟨counted, hcount, hcounts, hdup⟩ := countRoutes_ok fun i hi => (hv i hi).2.1
  have hcounts' : ∀ rank, counted.counts rank = expertCount selected opt.entries rank :=
    fun rank => funext (hcounts rank)
  have hflag : ¬ (opt.compactRouteCompose && counted.compactDuplicate &&
      !opt.compactMoeDecodeGate) = true := by
    simp only [Bool.and_eq_true]
    rintro ⟨⟨hcompose, hseen⟩, hgate⟩
    exact hno ⟨hcompose, hgate, hdup.1 hseen⟩
  have hrun : ∀ rank, (offsetScan (counted.counts rank) (oldOffsets rank)).running =
      (routesOf selected opt.entries rank).length := by
    intro rank
    rw [offsetScan_running, routesOf_length, hcounts']
    rfl
  have hover : ¬ (List.range kGpus).any (overCapacity
      (initRoutePlanHostWorkspace opt oldOffsets oldRoutes) counted.counts ranks) = true := by
    rw [List.any_eq_true]
    rintro ⟨rank, hrank, hover⟩
    simp only [overCapacity, Bool.or_eq_true, decide_eq_true_eq] at hover
    have hlen := @routesOf_length_le selected opt.entries rank
    have hcap := (hroom rank (List.mem_range.1 hrank)).routes
    rcases hover with h | h
    · rw [show (initRoutePlanHostWorkspace opt oldOffsets oldRoutes).offsets = oldOffsets from rfl,
        hrun, hcap] at h
      exact absurd hlen (Nat.not_le.2 h)
    · rw [show (initRoutePlanHostWorkspace opt oldOffsets oldRoutes).offsets = oldOffsets from rfl,
        hrun, show (initRoutePlanHostWorkspace opt oldOffsets oldRoutes).routeCapacity =
          opt.entries from rfl] at h
      exact absurd hlen (Nat.not_le.2 h)
  have hfresh : ∀ rank, Fresh opt selected rank
      (resetRoutes opt (offsetScan (counted.counts rank) (oldOffsets rank)) (oldRoutes rank)) := by
    intro rank
    apply resetRoutes_fresh
    intro e he
    rw [offsetScan_offsets he.le, hcounts']
    rfl
  obtain ⟨filled, hok, hfilled⟩ := fillAll_ok hv hfresh
  have hup : ∀ rank < kGpus, Uploaded opt selected weights rank (ranks rank)
      (((List.range kGpus).foldl (fun now r => Function.update now r
        (uploadRank (counted.counts r) (offsetScan (counted.counts r) (oldOffsets r)) (filled r)
          (now r))) ranks) rank) := by
    intro rank hrank
    rw [uploadAll_loop (fun r => uploadRank (counted.counts r)
      (offsetScan (counted.counts r) (oldOffsets r)) (filled r)), if_pos hrank]
    exact uploadRank_uploaded (hcounts' rank) (hfilled rank)
  have hints : ¬ (opt.compactMoeDecodeGate ∧
      (initRoutePlanHostWorkspace opt oldOffsets oldRoutes).compactPlanInts <
        kGpus * (opt.entries + opt.slots)) := fun h => lt_irrefl _ h.2
  unfold uploadModelRouterRoutePlanAsync
  rw [if_neg workspace_ready, if_neg hnorm, hcount]
  simp only [if_neg hflag, if_neg hover]
  rw [show (initRoutePlanHostWorkspace opt oldOffsets oldRoutes).offsets = oldOffsets from rfl,
    show (initRoutePlanHostWorkspace opt oldOffsets oldRoutes).routes = oldRoutes from rfl]
  simp only [hok, if_neg hints]
  exact publish_uploaded hroom (fun src _ => (hfilled src).rows (hfresh src)) hup

end Async

end Ds4.Routing
