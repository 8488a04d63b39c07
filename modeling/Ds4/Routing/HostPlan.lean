import Ds4.Routing.HostLoops

/-! What the two host planners put on the devices. -/
namespace Ds4.Routing

open Parts

/-- The part of a device's state that is its route plan. -/
structure DevicePlan (W : Type) where
  routes : ℕ
  activeExperts : ℕ
  maxRoutesPerExpert : ℕ
  offsets : ℕ → ℤ
  routeSlots : ℕ → ℤ
  routeWeights : ℕ → W
  routeCompactPlan : ℕ → ℤ

def RankState.plan {W : Type} (r : RankState W) : DevicePlan W :=
  { routes := r.routes
    activeExperts := r.activeExperts
    maxRoutesPerExpert := r.maxRoutesPerExpert
    offsets := r.offsets
    routeSlots := r.routeSlots
    routeWeights := r.routeWeights
    routeCompactPlan := r.routeCompactPlan }

/-- The stable grouping laid over what the device held before. -/
def plannedOn {W : Type} (opt : RouteOptions) (selected : ℕ → ℤ) (weights : ℕ → W) (rank : ℕ)
    (old : DevicePlan W) : DevicePlan W :=
  let routes := routesOf selected opt.entries rank
  { routes := routes.length
    activeExperts := (activity fun e => expertCount selected opt.entries rank e).1
    maxRoutesPerExpert := (activity fun e => expertCount selected opt.entries rank e).2.toNat
    offsets := pasteAt 0 (kLocalExperts + 1)
      (fun e => (offsetOf selected opt.entries rank e : ℤ)) old.offsets
    routeSlots := pasteAt 0 routes.length
      (fun a => ((routes.getD a 0 / opt.topK : ℕ) : ℤ)) old.routeSlots
    routeWeights := pasteAt 0 routes.length (fun a => weights (routes.getD a 0)) old.routeWeights
    routeCompactPlan := pasteAt 0 opt.compactRoutePlanInts (compactValue opt selected)
      old.routeCompactPlan }

section Fill
variable {W : Type} {opt : RouteOptions} {isFinite : W → Bool} {selected : ℕ → ℤ}
  {weights : ℕ → W} {rank i : ℕ} {base r : HostRoutes W}

/-- The vectors of a rank after the entries below `i`, from the vectors before the pass. -/
structure FilledTo (opt : RouteOptions) (selected : ℕ → ℤ) (weights : ℕ → W) (rank : ℕ)
    (base : HostRoutes W) (i : ℕ) (r : HostRoutes W) : Prop where
  cursor : ∀ e < kLocalExperts, r.cursor e = offsetOf selected opt.entries rank e +
    keyCount (fun j => localOf (selected j)) (ownedBefore selected i rank) e
  slots : r.routeSlots = perform base.routeSlots ((ownedBefore selected i rank).map fun j =>
    Access.store (place selected opt.entries j) ((j / opt.topK : ℕ) : ℤ))
  weights : r.routeWeights = perform base.routeWeights ((ownedBefore selected i rank).map fun j =>
    Access.store (place selected opt.entries j) (weights j))
  indices : r.routeIndicesBySlot = perform base.routeIndicesBySlot
    ((ownedBefore selected i rank).map fun j =>
      Access.store (j / opt.topK * opt.topK + orderOf selected opt.topK rank j)
        (place selected opt.entries j : ℤ))
  counts : ∀ slot < opt.slots, r.routeCountBySlot slot = slotCount selected opt.topK rank i slot

theorem FilledTo.skip (h : FilledTo opt selected weights rank base i r)
    (hnot : ¬ Owned selected rank i) : FilledTo opt selected weights rank base (i + 1) r := by
  have hsame : ownedBefore selected (i + 1) rank = ownedBefore selected i rank := by
    rw [ownedBefore_succ, if_neg hnot, List.append_nil]
  obtain ⟨hcursor, hslots, hweights, hindices, hcounts⟩ := h
  constructor
  · rw [hsame]
    exact hcursor
  · rw [hsame]
    exact hslots
  · rw [hsame]
    exact hweights
  · rw [hsame]
    exact hindices
  · intro slot hslot
    rw [hcounts slot hslot, slotCount, slotCount, hsame]

/-- An owned entry goes to its place, and its place to its order in the row of its slot. -/
theorem FilledTo.fill (h : FilledTo opt selected weights rank base i r) (hi : i < opt.entries)
    (hown : Owned selected rank i) (hfin : isFinite (weights i)) :
    ∃ r', fillRoute opt isFinite (i / opt.topK) (localOf (selected i)) (weights i) r = .ok r' ∧
      FilledTo opt selected weights rank base (i + 1) r' := by
  have hpos : 0 < opt.topK := Nat.pos_of_ne_zero fun h0 => by
    rw [RouteOptions.entries, h0, Nat.mul_zero] at hi
    exact Nat.not_lt_zero i hi
  have hslot : i / opt.topK < opt.slots := (Nat.div_lt_iff_lt_mul hpos).2 hi
  have hidx : r.cursor (localOf (selected i)) = place selected opt.entries i := by
    rw [h.cursor _ (localOf_lt _), keyCount_owned hown, place, hown.2]
  have hcount : r.routeCountBySlot (i / opt.topK) = orderOf selected opt.topK rank i := by
    rw [h.counts _ hslot, slotCount_own hpos]
  have hroom : ¬ opt.topK ≤ orderOf selected opt.topK rank i :=
    Nat.not_le.2 (lt_of_le_of_lt orderOf_le (Nat.mod_lt i hpos))
  have hnext : ownedBefore selected (i + 1) rank = ownedBefore selected i rank ++ [i] := by
    rw [ownedBefore_succ, if_pos hown]
  unfold fillRoute
  simp only [hfin, Bool.not_true, Bool.false_eq_true, if_false, hcount, if_neg hroom, hidx]
  refine ⟨_, rfl, ?_, ?_, ?_, ?_, ?_⟩
  · intro e he
    show Function.update r.cursor (localOf (selected i)) (place selected opt.entries i + 1) e = _
    rw [hnext]
    by_cases hloc : e = localOf (selected i)
    · subst hloc
      rw [Function.update_self, ← hidx, h.cursor _ he]
      simp [keyCount, List.countP_append, Nat.add_assoc]
    · have hloc' : ¬ localOf (selected i) = e := fun hc => hloc hc.symm
      rw [Function.update_of_ne hloc, h.cursor _ he]
      simp [keyCount, List.countP_append, hloc']
  · rw [hnext, List.map_append, perform_append, ← h.slots]
    rfl
  · rw [hnext, List.map_append, perform_append, ← h.weights]
    rfl
  · rw [hnext, List.map_append, perform_append, ← h.indices]
    rfl
  · intro slot hslot'
    show Function.update r.routeCountBySlot (i / opt.topK)
      (orderOf selected opt.topK rank i + 1) slot = _
    rw [slotCount, hnext, List.countP_append, ← slotCount, ← h.counts slot hslot']
    by_cases hs : slot = i / opt.topK
    · subst hs
      rw [Function.update_self, hcount]
      simp
    · have hs' : ¬ i / opt.topK = slot := fun hc => hs hc.symm
      rw [Function.update_of_ne hs]
      simp [hs']

/-- The vectors before the pass, as far as the pass relies on them. -/
structure Fresh (opt : RouteOptions) (selected : ℕ → ℤ) (rank : ℕ) (base : HostRoutes W) :
    Prop where
  cursor : ∀ e < kLocalExperts, base.cursor e = offsetOf selected opt.entries rank e
  indices : ∀ b < opt.entries, base.routeIndicesBySlot b = -1
  counts : ∀ slot < opt.slots, base.routeCountBySlot slot = 0

theorem Fresh.filledTo (h : Fresh opt selected rank base) :
    FilledTo opt selected weights rank base 0 base where
  cursor := h.cursor
  slots := rfl
  weights := rfl
  indices := rfl
  counts := h.counts

/-- The choices the router may leave: nothing, or an expert. -/
def ValidChoices (opt : RouteOptions) (isFinite : W → Bool) (selected : ℕ → ℤ)
    (weights : ℕ → W) : Prop :=
  ∀ i < opt.entries, -1 ≤ selected i ∧ selected i < kGlobalExperts ∧ isFinite (weights i)

theorem ValidChoices.expert (h : ValidChoices opt isFinite selected weights)
    (hi : i < opt.entries) (hneg : ¬ selected i < 0) : IsExpert (selected i) :=
  ⟨not_lt.1 hneg, (h i hi).2.1⟩

theorem fillRank_ok (hv : ValidChoices opt isFinite selected weights)
    (hfresh : Fresh opt selected rank base) :
    ∃ r, fillRank opt isFinite selected weights rank base = .ok r ∧
      FilledTo opt selected weights rank base opt.entries r := by
  apply foldlM_slots_ok (P := FilledTo opt selected weights rank base) hfresh.filledTo
  intro slot hslot k hk r hr
  have hi : slot * opt.topK + k < opt.entries := entry_lt hslot hk
  by_cases hneg : selected (slot * opt.topK + k) < 0
  · refine ⟨r, if_pos hneg, hr.skip ?_⟩
    intro hown
    exact absurd hown.1.1 (not_le.2 hneg)
  · by_cases hrank : rankOf (selected (slot * opt.topK + k)) = rank
    · obtain ⟨r', hr', hdone⟩ := hr.fill hi ⟨hv.expert hi hneg, hrank⟩ (hv _ hi).2.2
      rw [entry_div hk] at hr'
      refine ⟨r', ?_, hdone⟩
      rw [if_neg hneg, if_neg (not_not.2 hrank)]
      exact hr'
    · refine ⟨r, ?_, hr.skip fun hown => hrank hown.2⟩
      rw [if_neg hneg, if_pos hrank]

theorem fillAll_ok {bases : ℕ → HostRoutes W} (hv : ValidChoices opt isFinite selected weights)
    (hfresh : ∀ rank, Fresh opt selected rank (bases rank)) :
    ∃ rs, fillAll opt isFinite selected weights bases = .ok rs ∧
      ∀ rank, FilledTo opt selected weights rank (bases rank) opt.entries (rs rank) := by
  apply foldlM_slots_ok (P := fun i (rs : ℕ → HostRoutes W) =>
    ∀ rank, FilledTo opt selected weights rank (bases rank) i (rs rank))
    fun rank => (hfresh rank).filledTo
  intro slot hslot k hk rs hrs
  have hi : slot * opt.topK + k < opt.entries := entry_lt hslot hk
  by_cases hneg : selected (slot * opt.topK + k) < 0
  · refine ⟨rs, if_pos hneg, fun rank => (hrs rank).skip ?_⟩
    intro hown
    exact absurd hown.1.1 (not_le.2 hneg)
  · have hexp := hv.expert hi hneg
    obtain ⟨r', hr', hdone⟩ := (hrs (rankOf (selected (slot * opt.topK + k)))).fill hi
      ⟨hexp, rfl⟩ (hv _ hi).2.2
    rw [entry_div hk] at hr'
    refine ⟨Function.update rs (rankOf (selected (slot * opt.topK + k))) r', ?_, ?_⟩
    · simp only [if_neg hneg, hr']
      rfl
    · intro rank
      by_cases hrank : rank = rankOf (selected (slot * opt.topK + k))
      · subst hrank
        rw [Function.update_self]
        exact hdone
      · rw [Function.update_of_ne hrank]
        exact (hrs rank).skip fun hown => hrank hown.2.symm

/-- What the publication reads from the vectors of a rank. -/
structure RowsOf (opt : RouteOptions) (selected : ℕ → ℤ) (rank : ℕ) (r : HostRoutes W) :
    Prop where
  indices : ∀ b < opt.entries, r.routeIndicesBySlot b =
    rowValue selected opt.entries opt.topK rank (b / opt.topK) (b % opt.topK)
  counts : ∀ slot < opt.slots, r.routeCountBySlot slot =
    (chosen selected opt.topK rank slot).length

theorem FilledTo.rows (h : FilledTo opt selected weights rank base opt.entries r)
    (hfresh : Fresh opt selected rank base) : RowsOf opt selected rank r := by
  constructor
  · intro b hb
    have hpos : 0 < opt.topK := Nat.pos_of_ne_zero fun h0 => by
      rw [RouteOptions.entries, h0, Nat.mul_zero] at hb
      exact Nat.not_lt_zero b hb
    rw [h.indices]
    by_cases hhit : ∃ i < opt.entries, Owned selected rank i ∧
        i / opt.topK * opt.topK + orderOf selected opt.topK rank i = b
    · obtain ⟨i, hi, hown, hib⟩ := hhit
      apply perform_stored
      · exact ⟨_, List.mem_map_of_mem (mem_ownedBefore.2 ⟨hi, hown⟩), hib⟩
      · intro x hx hxb old
        obtain ⟨j, hj, rfl⟩ := List.mem_map.1 hx
        exact (row_hit hpos (mem_ownedBefore.1 hj).2 hxb).symm
    · push Not at hhit
      rw [row_miss hb hhit, perform_untouched, hfresh.indices b hb]
      intro x hx
      obtain ⟨j, hj, rfl⟩ := List.mem_map.1 hx
      exact hhit j (mem_ownedBefore.1 hj).1 (mem_ownedBefore.1 hj).2
  · intro slot hslot
    rw [h.counts slot hslot]
    exact slotCount_total hslot

end Fill

section Packing
variable {W : Type} {opt : RouteOptions} {selected : ℕ → ℤ} {filled : ℕ → HostRoutes W}
  {plan : ℕ → ℤ}

/-- The rows and the counts of the first source ranks are in place, the rest is as it was. -/
theorem packSources_loop (hrows : ∀ src < kGpus, RowsOf opt selected src (filled src)) (m : ℕ)
    (hm : m ≤ kGpus) (a : ℕ) :
    ((List.range m).foldl (pasteSource opt filled) plan) a =
      if a < m * opt.entries ∨
        kGpus * opt.entries ≤ a ∧ a < kGpus * opt.entries + m * opt.slots then
        compactValue opt selected a
      else plan a := by
  induction m with
  | zero =>
    rw [if_neg (by omega)]
    rfl
  | succ m ih =>
    have hle : m * opt.entries + opt.entries ≤ kGpus * opt.entries := by
      rw [← Nat.succ_mul]
      exact Nat.mul_le_mul_right _ hm
    have ih' := ih (Nat.le_of_succ_le hm)
    rw [List.range_succ, List.foldl_append, List.foldl_cons, List.foldl_nil, pasteSource,
      Nat.succ_mul, Nat.succ_mul]
    by_cases hcount : kGpus * opt.entries + m * opt.slots ≤ a ∧
        a < kGpus * opt.entries + m * opt.slots + opt.slots
    · have hj : a - (kGpus * opt.entries + m * opt.slots) < opt.slots := by omega
      have ha : a - kGpus * opt.entries =
          m * opt.slots + (a - (kGpus * opt.entries + m * opt.slots)) := by omega
      rw [pasteAt_in hcount.1 hcount.2, (hrows m hm).counts _ hj,
        if_pos (Or.inr ⟨by omega, by omega⟩), compactValue, if_neg (by omega), ha,
        entry_div hj, entry_mod hj]
    · rw [pasteAt_out hcount]
      by_cases hindex : m * opt.entries ≤ a ∧ a < m * opt.entries + opt.entries
      · have hj : a - m * opt.entries < opt.entries := by omega
        have ha : a = m * opt.entries + (a - m * opt.entries) := by omega
        have hdiv : a / opt.entries = m := by
          rw [ha]
          exact entry_div hj
        have hmod : a % opt.entries = a - m * opt.entries := by
          conv_lhs => rw [ha]
          exact entry_mod hj
        rw [pasteAt_in hindex.1 hindex.2, (hrows m hm).indices _ hj, if_pos (Or.inl hindex.2),
          compactValue, if_pos (by omega), hdiv, hmod]
      · rw [pasteAt_out hindex, ih']
        by_cases hin : a < m * opt.entries ∨
            kGpus * opt.entries ≤ a ∧ a < kGpus * opt.entries + m * opt.slots
        · rw [if_pos hin, if_pos (by omega)]
        · rw [if_neg hin, if_neg (by omega)]

theorem packSources_eq (hrows : ∀ src < kGpus, RowsOf opt selected src (filled src)) :
    packSources opt filled plan =
      pasteAt 0 opt.compactRoutePlanInts (compactValue opt selected) plan := by
  funext a
  have hints : opt.compactRoutePlanInts = kGpus * opt.entries + kGpus * opt.slots :=
    Nat.mul_add _ _ _
  rw [packSources, packSources_loop hrows kGpus le_rfl, pasteAt, hints]
  by_cases ha : a < kGpus * opt.entries + kGpus * opt.slots
  · rw [if_pos (by omega), if_pos (by omega), Nat.sub_zero]
  · rw [if_neg (by omega), if_neg (by omega)]

/-- The plan of a device with another compact plan. -/
def DevicePlan.withCompact (p : DevicePlan W) (plan : ℕ → ℤ) : DevicePlan W :=
  { p with routeCompactPlan := plan }

theorem publish_ok (hrows : ∀ src < kGpus, RowsOf opt selected src (filled src))
    {r : RankState W} (hints : r.routeCompactPlanInts = opt.compactRoutePlanInts) :
    ∃ r', publish opt opt.compactRoutePlanInts filled r = .ok r' ∧
      r'.plan = r.plan.withCompact
        (pasteAt 0 opt.compactRoutePlanInts (compactValue opt selected) r.routeCompactPlan) := by
  unfold publish
  by_cases hgate : opt.compactMoeDecodeGate = true
  · rw [if_pos hgate, if_neg (by rw [hints]; exact lt_irrefl _)]
    refine ⟨_, rfl, ?_⟩
    rw [packSources_eq hrows]
    show r.plan.withCompact (pasteAt 0 opt.compactRoutePlanInts
      (pasteAt 0 opt.compactRoutePlanInts (compactValue opt selected) _) r.routeCompactPlan) = _
    congr 1
    apply pasteAt_congr
    intro i hi
    exact pasteAt_zero_in hi
  · rw [if_neg hgate]
    refine ⟨_, rfl, ?_⟩
    rw [packSources_eq hrows]
    rfl

theorem publishAll_ok (hrows : ∀ src < kGpus, RowsOf opt selected src (filled src))
    {ranks : Ranks W}
    (hints : ∀ rank < kGpus, (ranks rank).routeCompactPlanInts = opt.compactRoutePlanInts) :
    ∃ ranks', publishAll opt opt.compactRoutePlanInts filled ranks = .ok ranks' ∧
      ∀ rank < kGpus, (ranks' rank).plan = (ranks rank).plan.withCompact
        (pasteAt 0 opt.compactRoutePlanInts (compactValue opt selected)
          (ranks rank).routeCompactPlan) := by
  have hloop : ∃ ranks', publishAll opt opt.compactRoutePlanInts filled ranks = .ok ranks' ∧
      ∀ rank, (rank < kGpus → (ranks' rank).plan = (ranks rank).plan.withCompact
        (pasteAt 0 opt.compactRoutePlanInts (compactValue opt selected)
          (ranks rank).routeCompactPlan)) ∧ (¬ rank < kGpus → ranks' rank = ranks rank) := by
    unfold publishAll
    apply foldlM_range_ok (P := fun m (ranks' : Ranks W) =>
      ∀ rank, (rank < m → (ranks' rank).plan = (ranks rank).plan.withCompact
        (pasteAt 0 opt.compactRoutePlanInts (compactValue opt selected)
          (ranks rank).routeCompactPlan)) ∧ (¬ rank < m → ranks' rank = ranks rank))
    · intro rank
      exact ⟨fun h => absurd h (Nat.not_lt_zero rank), fun _ => rfl⟩
    · intro dst hdst now hnow
      have hsame : now dst = ranks dst := (hnow dst).2 (lt_irrefl dst)
      obtain ⟨r', hr', hplan⟩ := publish_ok hrows (hints dst hdst)
      refine ⟨Function.update now dst r', ?_, ?_⟩
      · simp only [hsame, hr']
      · intro rank
        by_cases hrank : rank = dst
        · subst hrank
          rw [Function.update_self]
          exact ⟨fun _ => hplan, fun h => absurd (Nat.lt_succ_self rank) h⟩
        · rw [Function.update_of_ne hrank]
          exact ⟨fun h => (hnow rank).1 (by omega), fun h => (hnow rank).2 (by omega)⟩
  obtain ⟨ranks', hok, hranks⟩ := hloop
  exact ⟨ranks', hok, fun rank hrank => (hranks rank).1 hrank⟩

end Packing

section Uploading
variable {W : Type} {opt : RouteOptions} {isFinite : W → Bool} {selected : ℕ → ℤ}
  {weights : ℕ → W} {rank : ℕ}

/-- The upload of a rank's vectors lays its routes over the device's plan. -/
theorem uploadRank_plan {counts old : ℕ → ℕ} {base filled : HostRoutes W} {r : RankState W}
    (hcounts : counts = expertCount selected opt.entries rank)
    (hfilled : FilledTo opt selected weights rank base opt.entries filled) :
    (uploadRank counts (offsetScan counts old) filled r).plan =
      (plannedOn opt selected weights rank r.plan).withCompact r.routeCompactPlan := by
  have hrun : (offsetScan counts old).running = (routesOf selected opt.entries rank).length := by
    rw [offsetScan_running, routesOf_length, hcounts]
    rfl
  have hoffsets : pasteAt 0 (kLocalExperts + 1)
      (fun i => ((offsetScan counts old).offsets i : ℤ)) r.offsets =
      pasteAt 0 (kLocalExperts + 1) (fun e => (offsetOf selected opt.entries rank e : ℤ))
        r.offsets := by
    apply pasteAt_congr
    intro e he
    rw [offsetScan_offsets (Nat.lt_succ_iff.1 he), hcounts]
    rfl
  have hslots : pasteAt 0 (offsetScan counts old).running filled.routeSlots r.routeSlots =
      pasteAt 0 (routesOf selected opt.entries rank).length
        (fun a => (((routesOf selected opt.entries rank).getD a 0 / opt.topK : ℕ) : ℤ))
        r.routeSlots := by
    rw [hrun, hfilled.slots, perform_routes _ (fun j => ((j / opt.topK : ℕ) : ℤ)) 0]
    exact pasteAt_congr fun i hi => pasteAt_zero_in hi
  have hweights : pasteAt 0 (offsetScan counts old).running filled.routeWeights r.routeWeights =
      pasteAt 0 (routesOf selected opt.entries rank).length
        (fun a => weights ((routesOf selected opt.entries rank).getD a 0)) r.routeWeights := by
    rw [hrun, hfilled.weights, perform_routes _ weights 0]
    exact pasteAt_congr fun i hi => pasteAt_zero_in hi
  subst hcounts
  unfold uploadRank plannedOn DevicePlan.withCompact RankState.plan
  simp only [DevicePlan.mk.injEq]
  exact ⟨hrun, trivial, trivial, hoffsets, hslots, hweights, trivial⟩

variable [Zero W]

theorem freshRoutes_fresh {cursor : ℕ → ℕ}
    (h : ∀ e < kLocalExperts, cursor e = offsetOf selected opt.entries rank e) :
    Fresh opt selected rank (freshRoutes cursor : HostRoutes W) where
  cursor := h
  indices := fun _ _ => rfl
  counts := fun _ _ => rfl

theorem resetRoutes_fresh {scan : OffsetScan} {old : HostRoutes W}
    (h : ∀ e < kLocalExperts, scan.offsets e = offsetOf selected opt.entries rank e) :
    Fresh opt selected rank (resetRoutes opt scan old) where
  cursor := h
  indices := by
    intro b hb
    show pasteAt 0 opt.entries (fun _ => -1) old.routeIndicesBySlot b = -1
    exact pasteAt_zero_in hb
  counts := by
    intro slot hslot
    show pasteAt 0 opt.slots (fun _ => 0) old.routeCountBySlot slot = 0
    exact pasteAt_zero_in hslot

/-- A device with room for every route and for the compact plan. -/
structure Roomy (opt : RouteOptions) (r : RankState W) : Prop where
  routes : r.routeCapacity = opt.entries
  compact : r.routeCompactPlanInts = opt.compactRoutePlanInts

end Uploading

end Ds4.Routing
