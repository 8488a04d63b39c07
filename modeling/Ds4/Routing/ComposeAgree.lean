import Ds4.Routing.ComposeSum

/-! The compact composition and the dense one give the same next hidden state. -/
namespace Ds4.Routing

open Parts

section Returned
variable {mode : ComposeMode} {stride : ℕ} {copy : ℕ → ℕ} {cs : Composes}

theorem broadcastSlices_at {contribAll : ℕ → ℚ} {dst n j : ℕ} (hj : j < n) :
    broadcastSlices stride n contribAll (dst * n + j) = contribAll (dst * stride + j) := by
  unfold broadcastSlices
  by_cases hn : n ≠ stride
  · rw [if_pos hn, entry_div hj, entry_mod hj]
  · rw [if_neg hn, not_not.1 hn]

/-- The return succeeds when every slice fits, and changes nothing but the copies. -/
theorem broadcast_ok (h : ∀ src < kGpus, copy src ≤ stride) :
    ∃ cs', broadcastEpReturnSlices mode stride copy cs = .ok cs' ∧
      (∀ dst, (cs' dst).current = (cs dst).current ∧ (cs' dst).attn = (cs dst).attn ∧
        (cs' dst).shared = (cs dst).shared) ∧
      ∀ direct dst src j, j < copy src →
        rowsFrom mode direct stride cs' dst src j = (cs src).contribAll (dst * stride + j) := by
  have hfits : ¬ ((List.range kGpus).any fun src => decide (stride < copy src)) = true := by
    rw [List.any_eq_true]
    rintro ⟨src, hsrc, hlt⟩
    exact Nat.not_lt.2 (h src (List.mem_range.1 hsrc)) (of_decide_eq_true hlt)
  refine ⟨_, if_neg hfits, fun dst => ⟨rfl, rfl, rfl⟩, ?_⟩
  intro direct dst src j hj
  unfold rowsFrom
  by_cases hself : (mode.skipSelfCopy = true ∧ src = dst) ∨ direct = true
  · rw [if_pos hself]
  · rw [if_neg hself]
    have hcopied : ¬ (copy src = 0 ∨ (mode.skipSelfCopy = true ∧ src = dst)) := by
      rintro (h0 | hs)
      · exact Nat.not_lt_zero j (h0 ▸ hj)
      · exact hself (Or.inl hs)
    simp only [if_neg hcopied]
    rw [pasteAt_zero_in hj, broadcastSlices_at hj]

end Returned

variable {opt : RouteOptions} {selected : ℕ → ℤ} {weights : ℕ → ℚ} {mode : ComposeMode}
  {ranks : Ranks ℚ}

/-- The devices as a planner leaves them to the composition. -/
structure ReadyToCompose (opt : RouteOptions) (selected : ℕ → ℤ) (weights : ℕ → ℚ)
    (mode : ComposeMode) (ranks : Ranks ℚ) : Prop where
  served : ∀ src < kGpus, Served opt selected weights src (mode.limit ranks src) (ranks src)
  compact : ∀ dst < kGpus, CompactRows opt selected (ranks dst).routeCompactPlan

/-- The next hidden value of a device's cell. -/
def composedAt (opt : RouteOptions) (selected : ℕ → ℤ) (weights : ℕ → ℚ) (cs : Composes)
    (dst slot col : ℕ) : ℚ :=
  residualAt (cs dst).current dst (slot * shardCols + col) +
    (cs dst).attn (slot * shardCols + col) +
    (cs dst).shared (slot * shardCols + col) +
    expertSum opt selected weights (fun src => (cs src).down) slot (dst * shardCols + col)

theorem sum8 (f : ℕ → ℚ) : f 0 + f 1 + f 2 + f 3 + f 4 + f 5 + f 6 + f 7 =
    ∑ s ∈ Finset.range kGpus, f s := by
  simp only [kGpus, Finset.sum_range_succ, Finset.sum_range_zero, zero_add]

theorem hidden_lt {dst col : ℕ} (hdst : dst < kGpus) (hcol : col < shardCols) :
    dst * shardCols + col < kHidden := entry_lt hdst hcol

/-- What a device sums over the rows of one source. -/
theorem compactSource_eq (h : ReadyToCompose opt selected weights mode ranks) {cs : Composes}
    {rows : ℕ → ℚ} {dst src slot col : ℕ} (hdst : dst < kGpus) (hsrc : src < kGpus)
    (hslot : slot < opt.slots) (hcol : col < shardCols)
    (hrows : ∀ j < (ranks src).routes * shardCols, rows j =
      (packAll opt mode ranks cs src).contribAll (dst * (opt.entries * shardCols) + j)) :
    compactMoeSumSrcRoutes rows
      (fun j => (ranks dst).routeCompactPlan (src * opt.entries + j))
      (fun j => (ranks dst).routeCompactPlan (kGpus * opt.entries + src * opt.slots + j))
      slot col opt.topK =
      contribution opt selected weights (cs src).down src slot (dst * shardCols + col) := by
  have hcount : (fun j => (ranks dst).routeCompactPlan
      (kGpus * opt.entries + src * opt.slots + j)) slot =
      (chosen selected opt.topK src slot).length :=
    (h.compact dst hdst).counts src hsrc slot hslot
  have hindex : ∀ c < opt.topK, (fun j => (ranks dst).routeCompactPlan (src * opt.entries + j))
      (slot * opt.topK + c) = rowValue selected opt.entries opt.topK src slot c := by
    intro c hc
    simp only [← Nat.add_assoc]
    exact (h.compact dst hdst).rows src hsrc slot hslot c hc
  have hpacked : ∀ k ∈ chosen selected opt.topK src slot,
      rows (place selected opt.entries (slot * opt.topK + k) * shardCols +
        (dst * shardCols + col) % shardCols) =
        (cs src).down (place selected opt.entries (slot * opt.topK + k) * kHidden +
          (dst * shardCols + col)) * weights (slot * opt.topK + k) := by
    intro k hk
    obtain ⟨hk', hown⟩ := mem_chosen.1 hk
    have hentry : slot * opt.topK + k < opt.entries := entry_lt hslot hk'
    have hroute := routesOf_place hentry hown
    have hlt := (List.getElem?_eq_some_iff.1 hroute).1
    have hcell := pack_at (cs src).down (mode.sched src 0) (cs src).contribAll
      (h.served src hsrc) hroute (hidden_lt hdst hcol)
    rw [entry_div hcol, entry_mod hcol] at hcell
    rw [entry_mod hcol, hrows _ (entry_lt (((h.served src hsrc).within _).2 hlt).1 hcol), ← hcell,
      Nat.add_mul, Nat.mul_assoc, Nat.add_assoc]
    rfl
  have hsum : compactMoeSumSrcRoutes rows
      (fun j => (ranks dst).routeCompactPlan (src * opt.entries + j))
      (fun j => (ranks dst).routeCompactPlan (kGpus * opt.entries + src * opt.slots + j)) slot
      ((dst * shardCols + col) % shardCols) opt.topK =
      contribution opt selected weights (cs src).down src slot (dst * shardCols + col) :=
    compactSum_eq hcount hindex hpacked
  rw [entry_mod hcol] at hsum
  exact hsum

/-- Every cell of a device's shard is composed from its rows. -/
theorem composeCompact_at (h : ReadyToCompose opt selected weights mode ranks) (cs : Composes) :
    ∃ cs', composeCompact opt mode ranks cs = .ok cs' ∧
      ∀ dst < kGpus, ∀ slot < opt.slots, ∀ col < shardCols,
        (cs' dst).nextHidden (slot * shardCols + col) =
          composedAt opt selected weights cs dst slot col := by
  obtain ⟨sent, hok, hsame, hrows⟩ : ∃ sent, broadcastEpReturnSlices mode
      (opt.entries * shardCols) (fun src => (ranks src).routes * shardCols)
      (packAll opt mode ranks cs) = .ok sent ∧ _ ∧ _ :=
    broadcast_ok fun src hsrc => Nat.mul_le_mul_right shardCols (h.served src hsrc).room
  refine ⟨fun dst => composeCompactDst opt mode ranks sent dst, ?_, ?_⟩
  · simp only [composeCompact, hok]
    rfl
  · intro dst hdst slot hslot col hcol
    have hcell : slot * shardCols + col < opt.slots * shardCols := entry_lt hslot hcol
    have hkernel := map_launch (mode.sched dst 1) (opt.slots * shardCols) (fun i =>
      residualAt (sent dst).current dst i + (sent dst).attn i + (sent dst).shared i +
        (List.range kGpus).foldl (fun ep src => ep + compactMoeSumSrcRoutes
          (rowsFrom mode false (opt.entries * shardCols) sent dst src)
          (fun j => (ranks dst).routeCompactPlan (src * opt.entries + j))
          (fun j => (ranks dst).routeCompactPlan (kGpus * opt.entries + src * opt.slots + j))
          (i / shardCols) (i % shardCols) opt.topK) 0) (sent dst).nextHidden
    have hnext := congrFun hkernel (slot * shardCols + col)
    rw [pasteAt_zero_in hcell, entry_div hcol, entry_mod hcol, foldl_add_sum,
      Finset.sum_congr rfl fun src hsrc => compactSource_eq h hdst (Finset.mem_range.1 hsrc) hslot
        hcol fun j hj => hrows false dst src j hj, sum_contribution] at hnext
    obtain ⟨hcurrent, hattn, hshared⟩ := hsame dst
    apply hnext.trans
    rw [hcurrent, hattn, hshared]
    rfl

/-- Every cell of a device's shard is composed from the sums of the sources. -/
theorem composeDense_at (h : ReadyToCompose opt selected weights mode ranks) (cs : Composes) :
    ∃ cs', composeDense opt mode ranks cs = .ok cs' ∧
      ∀ dst < kGpus, ∀ slot < opt.slots, ∀ col < shardCols,
        (cs' dst).nextHidden (slot * shardCols + col) =
          composedAt opt selected weights cs dst slot col := by
  obtain ⟨sent, hok, hsame, hrows⟩ : ∃ sent,
      composeDense opt mode ranks cs = .ok (fun dst => composeDenseDst opt mode sent dst) ∧
      (∀ dst, (sent dst).current = (cs dst).current ∧ (sent dst).attn = (cs dst).attn ∧
        (sent dst).shared = (cs dst).shared) ∧
      ∀ dst src j, j < opt.slots * shardCols →
        rowsFrom mode mode.directRemote (opt.slots * shardCols) sent dst src j =
          (reduceAll opt mode ranks cs src).contribAll (dst * (opt.slots * shardCols) + j) := by
    unfold composeDense
    by_cases hdirect : mode.directRemote = true
    · refine ⟨reduceAll opt mode ranks cs, if_pos hdirect, fun dst => ⟨rfl, rfl, rfl⟩, ?_⟩
      intro dst src j _
      rw [rowsFrom, if_pos (Or.inr hdirect)]
    · obtain ⟨sent, hok, hsame, hrows⟩ : ∃ sent, broadcastEpReturnSlices mode
          (opt.slots * shardCols) (fun _ => opt.slots * shardCols)
          (reduceAll opt mode ranks cs) = .ok sent ∧ _ ∧ _ :=
        broadcast_ok fun _ _ => le_rfl
      refine ⟨sent, ?_, hsame, fun dst src j hj => hrows _ dst src j hj⟩
      rw [if_neg hdirect, hok]
      rfl
  refine ⟨fun dst => composeDenseDst opt mode sent dst, hok, ?_⟩
  · intro dst hdst slot hslot col hcol
    have hcell : slot * shardCols + col < opt.slots * shardCols := entry_lt hslot hcol
    have hrow : ∀ src < kGpus, rowsFrom mode mode.directRemote (opt.slots * shardCols) sent dst src
        (slot * shardCols + col) =
        contribution opt selected weights (cs src).down src slot (dst * shardCols + col) := by
      intro src hsrc
      have hsum := reduce_at (cs src).down (mode.sched src 1)
        (launch (mode.sched src 0) (grid block (kGpus * (opt.slots * shardCols))
          (zeroF32Kernel (kGpus * (opt.slots * shardCols)))) (cs src).contribAll)
        (h.served src hsrc) hslot (hidden_lt hdst hcol)
      have hzero : launch (mode.sched src 0) (grid block (kGpus * (opt.slots * shardCols))
          (zeroF32Kernel (kGpus * (opt.slots * shardCols)))) (cs src).contribAll
          ((dst * opt.slots + slot) * shardCols + col) = 0 := by
        have hin : (dst * opt.slots + slot) * shardCols + col <
            kGpus * (opt.slots * shardCols) := by
          rw [← Nat.mul_assoc]
          exact entry_lt (entry_lt hdst hslot) hcol
        exact (congrFun (map_launch _ _ (fun _ => 0) _) _).trans (pasteAt_zero_in hin)
      rw [entry_div hcol, entry_mod hcol, hzero, zero_add] at hsum
      rw [hrows dst src _ hcell, ← hsum, Nat.add_mul, Nat.mul_assoc, Nat.add_assoc]
      rfl
    have hkernel := map_launch (mode.sched dst 2) (opt.slots * shardCols) (fun i =>
      residualAt (sent dst).current dst i + (sent dst).attn i + (sent dst).shared i +
        (rowsFrom mode mode.directRemote (opt.slots * shardCols) sent dst 0 i +
        rowsFrom mode mode.directRemote (opt.slots * shardCols) sent dst 1 i +
        rowsFrom mode mode.directRemote (opt.slots * shardCols) sent dst 2 i +
        rowsFrom mode mode.directRemote (opt.slots * shardCols) sent dst 3 i +
        rowsFrom mode mode.directRemote (opt.slots * shardCols) sent dst 4 i +
        rowsFrom mode mode.directRemote (opt.slots * shardCols) sent dst 5 i +
        rowsFrom mode mode.directRemote (opt.slots * shardCols) sent dst 6 i +
        rowsFrom mode mode.directRemote (opt.slots * shardCols) sent dst 7 i))
      (sent dst).nextHidden
    have hnext := congrFun hkernel (slot * shardCols + col)
    rw [pasteAt_zero_in hcell, sum8 fun src => rowsFrom mode mode.directRemote
      (opt.slots * shardCols) sent dst src (slot * shardCols + col),
      Finset.sum_congr rfl fun src hsrc => hrow src (Finset.mem_range.1 hsrc),
      sum_contribution] at hnext
    obtain ⟨hcurrent, hattn, hshared⟩ := hsame dst
    apply hnext.trans
    rw [hcurrent, hattn, hshared]
    rfl

section Planned
variable {isFinite : ℚ → Bool}

/-- A planner ran and answered that the plan is there. Only the planners on the devices write the
totals that a composition with a fixed capacity reads. -/
inductive PlannedBy (opt : RouteOptions) (isFinite : ℚ → Bool) (selected : ℕ → ℤ)
    (weights : ℕ → ℚ) : Bool → Ranks ℚ → Prop where
  | sync (size size' : ℕ) {old ranks : Ranks ℚ} (hsize : opt.entries ≤ size)
      (hsize' : opt.entries ≤ size') (hroom : ∀ rank < kGpus, Roomy opt (old rank))
      (h : uploadModelRouterRoutePlan opt isFinite ⟨size, selected⟩ ⟨size', weights⟩ old =
        (0, ranks)) : PlannedBy opt isFinite selected weights false ranks
  | async {oldOffsets : ℕ → ℕ → ℕ} {oldRoutes : ℕ → HostRoutes ℚ} {old ranks : Ranks ℚ}
      (hroom : ∀ rank < kGpus, Roomy opt (old rank))
      (h : uploadModelRouterRoutePlanAsync opt isFinite selected weights
        (initRoutePlanHostWorkspace opt oldOffsets oldRoutes) old = (0, ranks)) :
      PlannedBy opt isFinite selected weights false ranks
  | gpu {sched : ℕ → ℕ → Schedule} {old ranks : Ranks ℚ} (fixed : Bool)
      (hroom : ∀ rank < kGpus, Roomy opt (old rank))
      (h : uploadModelRouterRoutePlanGpu opt sched selected weights old = (0, ranks)) :
      PlannedBy opt isFinite selected weights fixed ranks
  | fixed {sched : ℕ → ℕ → Schedule} {old ranks : Ranks ℚ}
      (hroom : ∀ rank < kGpus, Roomy opt (old rank))
      (h : uploadPostAttentionFixedCapacityRoutePlanGpu opt sched selected weights old =
        (0, ranks)) : PlannedBy opt isFinite selected weights true ranks

theorem compactRows_of_plan {plan old : ℕ → ℤ}
    (h : plan = pasteAt 0 opt.compactRoutePlanInts (compactValue opt selected) old) :
    CompactRows opt selected plan := by
  subst h
  exact ⟨fun src hsrc slot hslot => countCell hsrc hslot old,
    fun src hsrc slot hslot c hc => rowCell hsrc hslot hc old⟩

/-- A device with the stable grouping as its plan serves it: without a limit, or with the totals
of its own rank. -/
theorem served_of_plan {src : ℕ} {r : RankState ℚ} {old : DevicePlan ℚ} {limit : Option (ℕ → ℤ)}
    (hplan : r.plan = plannedOn opt selected weights src old)
    (hlimit : ∀ a < r.routes, WithinTotals limit src a) :
    Served opt selected weights src limit r := by
  have hstable : IsStableGrouping opt selected weights (routesOf selected opt.entries) src r.plan :=
    hplan ▸ plannedOn_stable src old
  have hcount : r.routes = (routesOf selected opt.entries src).length := hstable.count
  constructor
  · rw [hcount]
    exact routesOf_length_le
  · intro a
    rw [← hcount]
    exact ⟨fun h => h.1, fun h => ⟨h, hlimit a h⟩⟩
  · exact hstable.slots
  · exact hstable.weights

theorem withinTotals_iff {totals : ℕ → ℤ} {src n a : ℕ} (hsrc : src < kGpus)
    (htot : totals src = n) : WithinTotals (some totals) src a ↔ a < n := by
  show ¬ (src < kGpus ∧ totals src ≤ a) ↔ a < n
  rw [htot]
  constructor
  · intro h
    by_contra hlt
    exact h ⟨hsrc, by omega⟩
  · rintro h ⟨-, hle⟩
    omega

theorem ready_of_plans (hlimit : mode.fixedCapacity = false) {old : Ranks ℚ}
    (hplans : ∀ rank < kGpus, (ranks rank).plan =
      plannedOn opt selected weights rank (old rank).plan) :
    ReadyToCompose opt selected weights mode ranks where
  served := by
    intro src hsrc
    apply served_of_plan (hplans src hsrc)
    intro a _
    rw [ComposeMode.limit, hlimit]
    trivial
  compact := fun dst hdst =>
    compactRows_of_plan (congrArg DevicePlan.routeCompactPlan (hplans dst hdst))

theorem ready_of_gpu {sched : ℕ → ℕ → Schedule} {old : Ranks ℚ}
    (hroom : ∀ rank < kGpus, Roomy opt (old rank))
    (h : uploadModelRouterRoutePlanGpu opt sched selected weights old = (0, ranks)) :
    ReadyToCompose opt selected weights mode ranks := by
  have hgate : opt.compactMoeDecodeGate = true := by
    by_contra hoff
    rw [uploadModelRouterRoutePlanGpu, if_pos (by rw [Bool.not_eq_true] at hoff; rw [hoff]; rfl)]
      at h
    exact absurd (congrArg Prod.fst h) (by simp)
  obtain ⟨ranks', hok, hplans⟩ := uploadModelRouterRoutePlanGpu_ok sched selected weights old
    hroom hgate
  obtain rfl : ranks' = ranks := congrArg Prod.snd (hok.symm.trans h)
  constructor
  · intro src hsrc
    obtain ⟨hplan, htotals⟩ := hplans src hsrc
    have hcount : (ranks' src).routes = (routesOf selected opt.entries src).length :=
      congrArg DevicePlan.routes hplan
    apply served_of_plan hplan
    intro a ha
    unfold ComposeMode.limit
    by_cases hfixed : mode.fixedCapacity = true
    · rw [if_pos hfixed, withinTotals_iff hsrc (htotals src hsrc), ← hcount]
      exact ha
    · rw [if_neg hfixed]
      trivial
  · intro dst hdst
    exact compactRows_of_plan (congrArg DevicePlan.routeCompactPlan (hplans dst hdst).1)

/-- A device that keeps room for all routes serves the planned ones. -/
theorem ready_of_fixed (hfixed : mode.fixedCapacity = true) {sched : ℕ → ℕ → Schedule}
    {old : Ranks ℚ} (hroom : ∀ rank < kGpus, Roomy opt (old rank))
    (h : uploadPostAttentionFixedCapacityRoutePlanGpu opt sched selected weights old =
      (0, ranks)) : ReadyToCompose opt selected weights mode ranks := by
  have hgate : ¬ (!opt.compactMoeDecodeGate) = true := by
    intro hoff
    rw [uploadPostAttentionFixedCapacityRoutePlanGpu, if_pos hoff] at h
    exact absurd (congrArg Prod.fst h) (by simp)
  rw [uploadPostAttentionFixedCapacityRoutePlanGpu, if_neg hgate] at h
  obtain rfl := congrArg Prod.snd h
  have hdev := gpuPlanRanks_planned opt sched selected weights fun rank => { old rank with
    routes := (old rank).routeCapacity
    activeExperts := kLocalExperts
    maxRoutesPerExpert := (old rank).routeCapacity
    routeSlots := pasteAt 0 (old rank).routeCapacity (fun _ => 0) (old rank).routeSlots
    routeWeights := pasteAt 0 (old rank).routeCapacity (fun _ => 0) (old rank).routeWeights }
  constructor
  · intro src hsrc
    have hsrcdev := hdev src hsrc
    have hlen : (routesOf selected opt.entries src).length ≤ opt.entries := routesOf_length_le
    generalize hranks : gpuPlanRanks opt sched selected weights _ = ranks at hsrcdev ⊢
    have hroutes : (ranks src).routes = opt.entries := by
      rw [← hranks, gpuPlanRanks, if_pos hsrc]
      exact (hroom src hsrc).routes
    constructor
    · exact hroutes.le
    · intro a
      rw [hroutes, ComposeMode.limit, if_pos hfixed,
        withinTotals_iff hsrc (hsrcdev.totals src hsrc)]
      exact ⟨fun ha => ha.2, fun ha => ⟨lt_of_lt_of_le ha hlen, ha⟩⟩
    · intro a i hai
      obtain ⟨hlt, hget⟩ := List.getElem?_eq_some_iff.1 hai
      rw [hsrcdev.slots, pasteAt_zero_in hlt, List.getD_eq_getElem _ _ hlt, hget]
    · intro a i hai
      obtain ⟨hlt, hget⟩ := List.getElem?_eq_some_iff.1 hai
      rw [hsrcdev.weights, pasteAt_zero_in hlt, List.getD_eq_getElem _ _ hlt, hget]
  · intro dst hdst
    exact compactRows_of_plan (hdev dst hdst).compact

theorem PlannedBy.ready (hv : ValidChoices opt isFinite selected weights)
    (h : PlannedBy opt isFinite selected weights mode.fixedCapacity ranks) :
    ReadyToCompose opt selected weights mode ranks := by
  generalize hfixed : mode.fixedCapacity = fixed at h
  cases h with
  | sync size size' hsize hsize' hroom h =>
    have hv' : ValidChoices opt isFinite (HostVec.mk size selected).data
        (HostVec.mk size' weights).data := hv
    obtain ⟨hrefuse, hplan⟩ := uploadModelRouterRoutePlan_spec hsize hsize' hv' hroom
    by_cases hdup : DuplicateRefused opt selected
    · rw [hrefuse hdup] at h
      exact absurd (congrArg Prod.fst h) (by simp)
    · obtain ⟨ranks', hok, hplans⟩ := hplan hdup
      obtain rfl : ranks' = ranks := congrArg Prod.snd (hok.symm.trans h)
      exact ready_of_plans hfixed hplans
  | async hroom h =>
    by_cases hnorm : opt.routedFfnNormInputGate = true
    · rw [uploadModelRouterRoutePlanAsync_norm hnorm] at h
      exact absurd (congrArg Prod.fst h) (by simp)
    by_cases hdup : DuplicateRefused opt selected
    · rw [uploadModelRouterRoutePlanAsync_duplicate hv hnorm hdup] at h
      exact absurd (congrArg Prod.fst h) (by simp)
    · obtain ⟨ranks', hok, hplans⟩ := uploadModelRouterRoutePlanAsync_ok hv hroom hnorm hdup
      obtain rfl : ranks' = ranks := congrArg Prod.snd (hok.symm.trans h)
      exact ready_of_plans hfixed hplans
  | gpu fixed hroom h => exact ready_of_gpu hroom h
  | fixed hroom h => exact ready_of_fixed hfixed hroom h

end Planned

/-- Composing by the compact plan and composing by dense sums give every cell the residual, the
attention, the shared expert and the weighted outputs of the slot's chosen experts. -/
theorem compose_agree (opt : RouteOptions) (isFinite : ℚ → Bool) (selected : ℕ → ℤ)
    (weights : ℕ → ℚ) (mode mode' : ComposeMode) (ranks : Ranks ℚ) (cs : Composes)
    (hv : ValidChoices opt isFinite selected weights)
    (h : PlannedBy opt isFinite selected weights mode.fixedCapacity ranks)
    (hmode : mode'.fixedCapacity = mode.fixedCapacity) :
    ∃ compact dense, composeCompact opt mode ranks cs = .ok compact ∧
      composeDense opt mode' ranks cs = .ok dense ∧
      ∀ dst < kGpus, ∀ slot < opt.slots, ∀ col < shardCols,
        (compact dst).nextHidden (slot * shardCols + col) =
          residualAt (cs dst).current dst (slot * shardCols + col) +
            (cs dst).attn (slot * shardCols + col) + (cs dst).shared (slot * shardCols + col) +
            (∑ k ∈ Finset.range opt.topK,
              if IsExpert (selected (slot * opt.topK + k)) then
                weights (slot * opt.topK + k) *
                  (cs (rankOf (selected (slot * opt.topK + k)))).down
                    (place selected opt.entries (slot * opt.topK + k) * kHidden +
                      (dst * shardCols + col))
              else 0) ∧
        (dense dst).nextHidden (slot * shardCols + col) =
          (compact dst).nextHidden (slot * shardCols + col) := by
  obtain ⟨compact, hcompact, hcell⟩ := composeCompact_at (h.ready hv) cs
  have hready' : ReadyToCompose opt selected weights mode' ranks := by
    rw [← hmode] at h
    exact h.ready hv
  obtain ⟨dense, hdense, hcell'⟩ := composeDense_at hready' cs
  refine ⟨compact, dense, hcompact, hdense, ?_⟩
  intro dst hdst slot hslot col hcol
  have hvalue := hcell dst hdst slot hslot col hcol
  exact ⟨hvalue, (hcell' dst hdst slot hslot col hcol).trans hvalue.symm⟩

section Sample

def sampleWeightsQ : ℕ → ℚ := fun i => [1 / 2, 1 / 2, 1, 0].getD i 0

def sampleRanksQ : Ranks ℚ := fun _ =>
  { routes := 0
    routeCapacity := 4
    activeExperts := 0
    maxRoutesPerExpert := 0
    routeIndexBySlot := fun _ _ => -1
    routeCompactPlan := fun _ => -1
    routeCompactPlanInts := 48
    routerSelectedPlan := fun _ => 0
    routerWeightsPlan := fun _ => 0
    routeOffsetsAll := fun _ => 0
    routeTotals := fun _ => 0
    offsets := fun _ => 0
    routeSlots := fun _ => 0
    routeWeights := fun _ => 0 }

def sampleBuffers : Composes := fun _ =>
  { down := fun i => i
    contribAll := fun _ => 7
    remote := fun _ _ => 7
    current := none
    attn := fun _ => 1
    shared := fun _ => 2
    nextHidden := fun _ => 0 }

/-- Copies within a device skipped, the totals read as a limit. -/
def sampleMode : ComposeMode :=
  { sched := fun _ _ => Schedule.reversed
    skipSelfCopy := true
    directRemote := false
    fixedCapacity := true }

theorem sample_composed : ∃ ranks compact dense,
    uploadModelRouterRoutePlanGpu sampleOptions (fun _ _ => Schedule.inOrder) sampleSelected.data
      sampleWeightsQ sampleRanksQ = (0, ranks) ∧
    composeCompact sampleOptions sampleMode ranks sampleBuffers = .ok compact ∧
    composeDense sampleOptions sampleMode ranks sampleBuffers = .ok dense ∧
    (dense 0).nextHidden (1 * shardCols + 3) = (compact 0).nextHidden (1 * shardCols + 3) := by
  have hroom : ∀ rank < kGpus, Roomy sampleOptions (sampleRanksQ rank) := fun _ _ => ⟨rfl, rfl⟩
  obtain ⟨ranks, hok, -⟩ := uploadModelRouterRoutePlanGpu_ok (fun _ _ => Schedule.inOrder)
    sampleSelected.data sampleWeightsQ sampleRanksQ hroom rfl
  obtain ⟨compact, dense, hcompact, hdense, hcells⟩ := compose_agree sampleOptions (fun _ => true)
    sampleSelected.data sampleWeightsQ sampleMode sampleMode ranks sampleBuffers
    (by unfold ValidChoices; decide) (PlannedBy.gpu true hroom hok) rfl
  exact ⟨ranks, compact, dense, hok, hcompact, hdense,
    (hcells 0 (by decide) 1 (by decide) 3 (by decide)).2⟩

end Sample

end Ds4.Routing
