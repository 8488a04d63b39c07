import Ds4.Routing.HostPlan
import Mathlib.Algebra.BigOperators.Ring.Finset

/-! What the planning kernels leave on a device. -/
namespace Ds4.Routing

open Parts

variable {opt : RouteOptions} {selected : ℕ → ℤ} {n rank : ℕ}

section Offsets

theorem offsetAt_inj {r r' e e' : ℕ} (he : e ≤ kLocalExperts) (he' : e' ≤ kLocalExperts)
    (h : offsetAt r e = offsetAt r' e') : r = r' ∧ e = e' := by
  simp only [offsetAt, kLocalExperts, kGlobalExperts, kGpus] at *
  omega

/-- The additions of the counting threads. -/
def countAdds (selected : ℕ → ℤ) (n : ℕ) : List (ℕ × ℤ) :=
  ((List.range n).filter fun i => IsExpert (selected i)).map fun i =>
    (offsetAt (rankOf (selected i)) (localOf (selected i) + 1), 1)

theorem count_launch (s : Schedule) (mem : ℕ → ℤ) :
    launch s (grid block n (gpuRouteCountAllKernel selected n)) mem =
      perform mem ((countAdds selected n).map fun x => Access.add x.1 x.2) := by
  have hgrid : grid block n (gpuRouteCountAllKernel selected n) =
      (countAdds selected n).map fun x => Access.add x.1 x.2 := by
    rw [show gpuRouteCountAllKernel selected n = fun i => if n ≤ i then [] else
      if IsExpert (selected i) then
        [Access.add (offsetAt (rankOf (selected i)) (localOf (selected i) + 1)) 1] else [] from rfl,
      grid_guard (by decide), flatMap_ite, countAdds, List.map_map]
    rfl
  rw [hgrid, launch_eq s (raceFree_adds _)]

theorem sum_ones (l : List ℕ) : (l.map fun _ => (1 : ℤ)).sum = l.length := by
  induction l with
  | nil => rfl
  | cons x l ih =>
    rw [List.map_cons, List.sum_cons, ih, List.length_cons]
    push_cast
    omega

/-- The counter of an expert counts the entries that chose it. -/
theorem count_at {e : ℕ} (he : e < kLocalExperts) :
    (((countAdds selected n).filter fun x => x.1 = offsetAt rank (e + 1)).map Prod.snd).sum =
      expertCount selected n rank e := by
  unfold countAdds
  rw [List.filter_map, List.map_map]
  have hones : (Prod.snd ∘ fun i =>
      ((offsetAt (rankOf (selected i)) (localOf (selected i) + 1), 1) : ℕ × ℤ)) =
      fun _ => 1 := rfl
  rw [hones, sum_ones, List.filter_filter, expertCount, keyCount, ownedBefore,
    List.countP_eq_length_filter, List.filter_filter]
  congr 2
  apply List.filter_congr
  intro i _
  simp only [Function.comp_apply, ← Bool.decide_and]
  apply decide_eq_decide.2
  constructor
  · rintro ⟨haddr, hexp⟩
    obtain ⟨hrank, hloc⟩ := offsetAt_inj (localOf_lt _) he haddr
    exact ⟨Nat.succ.inj hloc, hexp, hrank⟩
  · rintro ⟨hloc, hexp, hrank⟩
    rw [hloc, hrank]
    exact ⟨rfl, hexp⟩

/-- The running sums of one rank's counters. -/
def runningSum (mem : ℕ → ℤ) (rank e : ℕ) : ℤ :=
  ∑ l ∈ Finset.range e, mem (offsetAt rank (l + 1))

theorem prefix_loop (mem : ℕ → ℤ) (rank : ℕ) (m : ℕ) :
    let st := (List.range m).foldl (fun (st : (ℕ → ℤ) × ℤ) loc =>
      (Function.update st.1 (offsetAt rank loc) st.2, st.2 + st.1 (offsetAt rank (loc + 1))))
      (mem, 0)
    st.2 = runningSum mem rank m ∧ (∀ e < m, st.1 (offsetAt rank e) = runningSum mem rank e) ∧
      ∀ a, (∀ e < m, a ≠ offsetAt rank e) → st.1 a = mem a := by
  induction m with
  | zero => exact ⟨rfl, fun e he => absurd he (Nat.not_lt_zero e), fun _ _ => rfl⟩
  | succ m ih =>
    obtain ⟨hsum, hbelow, hrest⟩ := ih
    simp only [List.range_succ, List.foldl_append, List.foldl_cons, List.foldl_nil]
    have hnext : ∀ e < m, offsetAt rank (m + 1) ≠ offsetAt rank e := by
      intro e he heq
      simp only [offsetAt] at heq
      omega
    refine ⟨?_, ?_, ?_⟩
    · rw [hsum, hrest _ hnext, runningSum, runningSum, Finset.sum_range_succ]
    · intro e he
      rcases Nat.lt_succ_iff_lt_or_eq.1 he with hlt | rfl
      · rw [Function.update_of_ne, hbelow e hlt]
        simp only [offsetAt]
        omega
      · rw [Function.update_self, hsum]
    · intro a ha
      rw [Function.update_of_ne (ha m (Nat.lt_succ_self m)),
        hrest a fun e he => ha e (Nat.lt_succ_of_lt he)]

/-- A thread leaves the running sums of its own rank and touches nothing else. -/
theorem prefixKernel_spec (st : (ℕ → ℤ) × (ℕ → ℤ)) (rank : ℕ) :
    (∀ e ≤ kLocalExperts, (gpuRoutePrefixAllKernel st rank).1 (offsetAt rank e) =
      runningSum st.1 rank e) ∧
    (∀ r ≠ rank, ∀ e ≤ kLocalExperts, (gpuRoutePrefixAllKernel st rank).1 (offsetAt r e) =
      st.1 (offsetAt r e)) ∧
    (gpuRoutePrefixAllKernel st rank).2 rank = runningSum st.1 rank kLocalExperts ∧
    ∀ r ≠ rank, (gpuRoutePrefixAllKernel st rank).2 r = st.2 r := by
  obtain ⟨hsum, hbelow, hrest⟩ := prefix_loop st.1 rank kLocalExperts
  unfold gpuRoutePrefixAllKernel
  refine ⟨?_, ?_, ?_, ?_⟩
  · intro e he
    rcases Nat.lt_or_eq_of_le he with hlt | rfl
    · simp only
      rw [Function.update_of_ne, hbelow e hlt]
      simp only [offsetAt]
      omega
    · simp only
      rw [Function.update_self, hsum]
  · intro r hr e he
    simp only
    rw [Function.update_of_ne fun h => hr (offsetAt_inj he le_rfl h).1,
      hrest _ fun e' he' h => hr (offsetAt_inj he he'.le h).1]
  · simp only
    rw [Function.update_self, hsum]
  · intro r hr
    simp only
    rw [Function.update_of_ne hr]

/-- In whatever order the ranks' threads run, each rank gets its own running sums. -/
theorem prefixAll_spec {l : List ℕ} (hl : l.Nodup) (st : (ℕ → ℤ) × (ℕ → ℤ)) :
    (∀ r ∈ l, (∀ e ≤ kLocalExperts, (l.foldl gpuRoutePrefixAllKernel st).1 (offsetAt r e) =
        runningSum st.1 r e) ∧
      (l.foldl gpuRoutePrefixAllKernel st).2 r = runningSum st.1 r kLocalExperts) ∧
    ∀ r ∉ l, (∀ e ≤ kLocalExperts, (l.foldl gpuRoutePrefixAllKernel st).1 (offsetAt r e) =
        st.1 (offsetAt r e)) ∧ (l.foldl gpuRoutePrefixAllKernel st).2 r = st.2 r := by
  induction l generalizing st with
  | nil => exact ⟨fun r hr => absurd hr List.not_mem_nil, fun r _ => ⟨fun _ _ => rfl, rfl⟩⟩
  | cons x l ih =>
    obtain ⟨hx, hl'⟩ := List.nodup_cons.1 hl
    obtain ⟨hself, hother, htot, htot'⟩ := prefixKernel_spec st x
    obtain ⟨hin, hout⟩ := ih hl' (gpuRoutePrefixAllKernel st x)
    rw [List.foldl_cons]
    constructor
    · intro r hr
      by_cases hrx : r = x
      · subst hrx
        obtain ⟨h₁, h₂⟩ := hout r hx
        exact ⟨fun e he => (h₁ e he).trans (hself e he), h₂.trans htot⟩
      · have hrl : r ∈ l := (List.mem_cons.1 hr).resolve_left hrx
        have hsame : ∀ e ≤ kLocalExperts,
            runningSum (gpuRoutePrefixAllKernel st x).1 r e = runningSum st.1 r e := by
          intro e he
          apply Finset.sum_congr rfl
          intro l' hl'
          have := Finset.mem_range.1 hl'
          exact hother r hrx (l' + 1) (by omega)
        obtain ⟨h₁, h₂⟩ := hin r hrl
        exact ⟨fun e he => (h₁ e he).trans (hsame e he), h₂.trans (hsame _ le_rfl)⟩
    · intro r hr
      rw [List.mem_cons, not_or] at hr
      obtain ⟨h₁, h₂⟩ := hout r hr.2
      exact ⟨fun e he => (h₁ e he).trans (hother r hr.1 e he), h₂.trans (htot' r hr.1)⟩

/-- After the first two launches every device has the offsets of all ranks. -/
theorem scanned_offsets (selected : ℕ → ℤ) (n : ℕ) (s s' : Schedule) (old tot : ℕ → ℤ) {r : ℕ}
    (hr : r < kGpus) :
    let scanned := (s'.order (List.range kGpus)).foldl gpuRoutePrefixAllKernel
      (launch s (grid block n (gpuRouteCountAllKernel selected n))
        (pasteAt 0 (kGpus * (kLocalExperts + 1)) (fun _ => 0) old), tot)
    (∀ e ≤ kLocalExperts, scanned.1 (offsetAt r e) = offsetOf selected n r e) ∧
      scanned.2 r = offsetOf selected n r kLocalExperts := by
  have hperm := s'.order_perm (List.range kGpus)
  have hmem : r ∈ s'.order (List.range kGpus) := hperm.mem_iff.2 (List.mem_range.2 hr)
  have hnodup : (s'.order (List.range kGpus)).Nodup := hperm.nodup_iff.2 List.nodup_range
  obtain ⟨hoff, htot⟩ := (prefixAll_spec hnodup (launch s
    (grid block n (gpuRouteCountAllKernel selected n))
    (pasteAt 0 (kGpus * (kLocalExperts + 1)) (fun _ => 0) old), tot)).1 r hmem
  have hsum : ∀ e ≤ kLocalExperts, runningSum (launch s
      (grid block n (gpuRouteCountAllKernel selected n))
      (pasteAt 0 (kGpus * (kLocalExperts + 1)) (fun _ => 0) old)) r e =
      offsetOf selected n r e := by
    intro e he
    unfold runningSum offsetOf
    push_cast
    apply Finset.sum_congr rfl
    intro l hl
    have hlt : l < kLocalExperts := lt_of_lt_of_le (Finset.mem_range.1 hl) he
    have hcell : offsetAt r (l + 1) < kGpus * (kLocalExperts + 1) := by
      simp only [offsetAt, kLocalExperts, kGlobalExperts, kGpus] at *
      omega
    rw [count_launch, perform_added, count_at hlt, pasteAt_zero_in hcell, zero_add]
  exact ⟨fun e he => (hoff e he).trans (hsum e he), htot.trans (hsum _ le_rfl)⟩

end Offsets

section Fill
variable {offsetsAll : ℕ → ℤ}

/-- The offsets of all ranks, as the fill threads read them. -/
def HasOffsets (selected : ℕ → ℤ) (n : ℕ) (offsetsAll : ℕ → ℤ) : Prop :=
  ∀ r < kGpus, ∀ e ≤ kLocalExperts, offsetsAll (offsetAt r e) = offsetOf selected n r e

theorem copyOwn_launch (s : Schedule) (h : HasOffsets selected n offsetsAll) (hr : rank < kGpus)
    (mem : ℕ → ℤ) :
    launch s ((List.range (kLocalExperts + 1)).flatMap
      (gpuRouteCopyOwnOffsetsKernel offsetsAll rank)) mem =
      pasteAt 0 (kLocalExperts + 1) (fun e => (offsetOf selected n rank e : ℤ)) mem := by
  have hsettles : Settles (fun e => (offsetOf selected n rank e : ℤ))
      ((List.range (kLocalExperts + 1)).flatMap
        (gpuRouteCopyOwnOffsetsKernel offsetsAll rank)) := by
    intro x hx old
    obtain ⟨e, he, hxe⟩ := List.mem_flatMap.1 hx
    have hle : e ≤ kLocalExperts := Nat.lt_succ_iff.1 (List.mem_range.1 he)
    rw [gpuRouteCopyOwnOffsetsKernel, if_pos hle, List.mem_singleton] at hxe
    subst hxe
    exact h rank hr e hle
  rw [launch_eq s hsettles.raceFree]
  funext a
  by_cases ha : a < kLocalExperts + 1
  · rw [pasteAt_zero_in ha]
    apply hsettles.perform_hit
    refine ⟨Access.store a (offsetsAll (offsetAt rank a)), ?_, rfl⟩
    apply List.mem_flatMap.2 ⟨a, List.mem_range.2 ha, ?_⟩
    rw [gpuRouteCopyOwnOffsetsKernel, if_pos (Nat.lt_succ_iff.1 ha)]
    exact List.mem_singleton_self _
  · rw [pasteAt_out (by omega)]
    apply perform_untouched
    intro x hx
    obtain ⟨e, he, hxe⟩ := List.mem_flatMap.1 hx
    have hle : e ≤ kLocalExperts := Nat.lt_succ_iff.1 (List.mem_range.1 he)
    rw [gpuRouteCopyOwnOffsetsKernel, if_pos hle, List.mem_singleton] at hxe
    subst hxe
    rw [Access.store_addr]
    omega

theorem routeIdx_eq (h : HasOffsets selected n offsetsAll) {i : ℕ} (hexp : IsExpert (selected i)) :
    routeIdx selected offsetsAll i = place selected n i := by
  rw [routeIdx, h _ (rankOf_lt hexp) _ (localOf_lt _).le, place]
  push_cast
  rfl

theorem own_launch {β : Type} (s : Schedule) (h : HasOffsets selected opt.entries offsetsAll)
    (value mem : ℕ → β) (d : ℕ) :
    launch s (grid block opt.entries (gpuRouteFillOwn opt selected offsetsAll rank value)) mem =
      pasteAt 0 (routesOf selected opt.entries rank).length
        (fun a => value ((routesOf selected opt.entries rank).getD a d)) mem := by
  have hgrid : grid block opt.entries (gpuRouteFillOwn opt selected offsetsAll rank value) =
      (ownedBefore selected opt.entries rank).map fun i =>
        Access.store (place selected opt.entries i) (value i) := by
    rw [show gpuRouteFillOwn opt selected offsetsAll rank value = fun i =>
      if opt.entries ≤ i then [] else if IsExpert (selected i) ∧ rankOf (selected i) = rank then
        [Access.store (routeIdx selected offsetsAll i).toNat (value i)] else [] from rfl,
      grid_guard (by decide), flatMap_ite]
    apply List.map_congr_left
    intro i hi
    rw [routeIdx_eq h (mem_ownedBefore.1 hi).2.1, Int.toNat_natCast]
  have hrace : RaceFree ((ownedBefore selected opt.entries rank).map fun i =>
      Access.store (place selected opt.entries i) (value i)) := by
    apply raceFree_stores
    intro i hi j hj heq
    obtain ⟨hi, hown⟩ := mem_ownedBefore.1 hi
    obtain ⟨hj, hown'⟩ := mem_ownedBefore.1 hj
    rw [place_inj hi hj hown hown' heq]
  rw [hgrid, launch_eq s hrace, perform_routes mem value d]

theorem initCompact_launch (s : Schedule) (mem : ℕ → ℤ) :
    launch s (grid block opt.compactRoutePlanInts (gpuRouteInitCompactPlanKernel opt)) mem =
      pasteAt 0 opt.compactRoutePlanInts
        (fun a => if a < kGpus * opt.entries then -1 else 0) mem := by
  have hints : opt.compactRoutePlanInts = kGpus * opt.entries + kGpus * opt.slots :=
    Nat.mul_add _ _ _
  have hgrid : opt.compactRoutePlanInts ≤ gridThreads block opt.compactRoutePlanInts :=
    le_gridThreads (by decide) _
  have hmem : ∀ x, x ∈ grid block opt.compactRoutePlanInts (gpuRouteInitCompactPlanKernel opt) ↔
      (∃ i < kGpus * opt.entries, x = Access.store i (-1)) ∨
      ∃ i < kGpus * opt.slots, x = Access.store (kGpus * opt.entries + i) 0 := by
    intro x
    simp only [grid, List.mem_flatMap, List.mem_range, gpuRouteInitCompactPlanKernel,
      List.mem_append, List.mem_ite_nil_right, List.mem_singleton]
    constructor
    · rintro ⟨i, _, ⟨hi, rfl⟩ | ⟨hi, rfl⟩⟩
      · exact Or.inl ⟨i, hi, rfl⟩
      · exact Or.inr ⟨i, hi, rfl⟩
    · rintro (⟨i, hi, rfl⟩ | ⟨i, hi, rfl⟩)
      · exact ⟨i, by omega, Or.inl ⟨hi, rfl⟩⟩
      · exact ⟨i, by omega, Or.inr ⟨hi, rfl⟩⟩
  have hsettles : Settles (fun a => if a < kGpus * opt.entries then (-1 : ℤ) else 0)
      (grid block opt.compactRoutePlanInts (gpuRouteInitCompactPlanKernel opt)) := by
    intro x hx old
    rcases (hmem x).1 hx with ⟨i, hi, rfl⟩ | ⟨i, hi, rfl⟩
    · exact (if_pos hi).symm
    · exact (if_neg (Nat.not_lt.2 (Nat.le_add_right _ _))).symm
  rw [launch_eq s hsettles.raceFree]
  funext a
  by_cases ha : a < opt.compactRoutePlanInts
  · rw [pasteAt_zero_in ha]
    apply hsettles.perform_hit
    by_cases hidx : a < kGpus * opt.entries
    · exact ⟨_, (hmem _).2 (Or.inl ⟨a, hidx, rfl⟩), rfl⟩
    · refine ⟨_, (hmem _).2 (Or.inr ⟨a - kGpus * opt.entries, by omega, rfl⟩), ?_⟩
      rw [Access.store_addr]
      omega
  · rw [pasteAt_out (by omega)]
    apply perform_untouched
    intro x hx
    rcases (hmem x).1 hx with ⟨i, hi, rfl⟩ | ⟨i, hi, rfl⟩
    · rw [Access.store_addr]
      omega
    · rw [Access.store_addr]
      omega

/-- The places and the counts that the fill threads write to the compact plan. -/
def compactStores (opt : RouteOptions) (selected : ℕ → ℤ) : List (Access ℤ) :=
  ((List.range opt.entries).filter fun i => IsExpert (selected i)).map fun i =>
    Access.store (rankOf (selected i) * opt.entries + (i / opt.topK * opt.topK +
      orderOf selected opt.topK (rankOf (selected i)) i)) (place selected opt.entries i : ℤ)

def compactAdds (opt : RouteOptions) (selected : ℕ → ℤ) : List (ℕ × ℤ) :=
  ((List.range opt.entries).filter fun i => IsExpert (selected i)).map fun i =>
    (kGpus * opt.entries + (rankOf (selected i) * opt.slots + i / opt.topK), 1)

theorem routeOrder_eq (i : ℕ) :
    routeOrder opt selected i = orderOf selected opt.topK (rankOf (selected i)) i := by
  have hmod : i - i / opt.topK * opt.topK = i % opt.topK := by
    have := Nat.div_add_mod' i opt.topK
    omega
  unfold routeOrder orderOf
  rw [hmod]
  rfl

theorem topK_pos {i : ℕ} (hi : i < opt.entries) : 0 < opt.topK :=
  Nat.pos_of_ne_zero fun h0 => by
    rw [RouteOptions.entries, h0, Nat.mul_zero] at hi
    exact Nat.not_lt_zero i hi

/-- Rows of two ranks, or of two slots, do not meet. -/
theorem row_lt {i : ℕ} (hi : i < opt.entries) (rank : ℕ) :
    i / opt.topK * opt.topK + orderOf selected opt.topK rank i < opt.entries := by
  have hpos := topK_pos hi
  exact entry_lt ((Nat.div_lt_iff_lt_mul hpos).2 hi)
    (lt_of_le_of_lt orderOf_le (Nat.mod_lt i hpos))

theorem fillCompact_perm (h : HasOffsets selected opt.entries offsetsAll) :
    (grid block opt.entries (gpuRouteFillCompact opt selected offsetsAll)).Perm
      (compactStores opt selected ++ (compactAdds opt selected).map fun x =>
        Access.add x.1 x.2) := by
  have hgrid : grid block opt.entries (gpuRouteFillCompact opt selected offsetsAll) =
      (List.range opt.entries).flatMap fun i =>
        (if IsExpert (selected i) then
          [Access.store (rankOf (selected i) * opt.entries + (i / opt.topK * opt.topK +
            orderOf selected opt.topK (rankOf (selected i)) i)) (place selected opt.entries i : ℤ)]
          else []) ++
        if IsExpert (selected i) then
          [Access.add (kGpus * opt.entries + (rankOf (selected i) * opt.slots + i / opt.topK)) 1]
        else [] := by
    rw [show gpuRouteFillCompact opt selected offsetsAll = fun i =>
      if opt.entries ≤ i then [] else if IsExpert (selected i) then
        (if routeOrder opt selected i < opt.topK then
          [Access.store (rankOf (selected i) * opt.entries + i / opt.topK * opt.topK +
            routeOrder opt selected i) (routeIdx selected offsetsAll i)] else []) ++
          [Access.add (kGpus * opt.entries + rankOf (selected i) * opt.slots + i / opt.topK) 1]
        else [] from rfl, grid_guard (by decide)]
    apply List.flatMap_congr
    intro i hi
    by_cases hexp : IsExpert (selected i)
    · have hlt : orderOf selected opt.topK (rankOf (selected i)) i < opt.topK :=
        lt_of_le_of_lt orderOf_le (Nat.mod_lt i (topK_pos (List.mem_range.1 hi)))
      rw [if_pos hexp, if_pos hexp, if_pos hexp, routeOrder_eq, if_pos hlt, routeIdx_eq h hexp,
        Nat.add_assoc, Nat.add_assoc]
    · rw [if_neg hexp, if_neg hexp, if_neg hexp]
      rfl
  rw [hgrid]
  refine (List.flatMap_append_perm _ _ _).symm.trans ?_
  rw [flatMap_ite, flatMap_ite, compactStores, compactAdds, List.map_map]
  exact List.Perm.refl _

theorem compactStores_addr {x : Access ℤ} (hx : x ∈ compactStores opt selected) :
    ∃ i < opt.entries, ∃ r < kGpus, Owned selected r i ∧
      x = Access.store (r * opt.entries + (i / opt.topK * opt.topK +
        orderOf selected opt.topK r i)) (place selected opt.entries i : ℤ) := by
  obtain ⟨i, hi, rfl⟩ := List.mem_map.1 hx
  obtain ⟨hlt, hexp⟩ := List.mem_filter.1 hi
  have hexp' : IsExpert (selected i) := of_decide_eq_true hexp
  exact ⟨i, List.mem_range.1 hlt, _, rankOf_lt hexp', ⟨hexp', rfl⟩, rfl⟩

theorem compactAdds_addr {x : ℕ × ℤ} (hx : x ∈ compactAdds opt selected) :
    kGpus * opt.entries ≤ x.1 ∧ x.1 < opt.compactRoutePlanInts := by
  obtain ⟨i, hi, rfl⟩ := List.mem_map.1 hx
  obtain ⟨hlt, hexp⟩ := List.mem_filter.1 hi
  have hi' := List.mem_range.1 hlt
  have hslot : i / opt.topK < opt.slots := (Nat.div_lt_iff_lt_mul (topK_pos hi')).2 hi'
  have hrow : rankOf (selected i) * opt.slots + i / opt.topK < kGpus * opt.slots :=
    entry_lt (rankOf_lt (of_decide_eq_true hexp)) hslot
  rw [RouteOptions.compactRoutePlanInts, Nat.mul_add]
  constructor
  · exact Nat.le_add_right _ _
  · exact Nat.add_lt_add_left hrow _

theorem compactStores_lt {x : Access ℤ} (hx : x ∈ compactStores opt selected) :
    x.addr < kGpus * opt.entries := by
  obtain ⟨i, hi, r, hr, -, rfl⟩ := compactStores_addr hx
  exact entry_lt hr (row_lt hi r)

theorem compactStores_settles : Settles (compactValue opt selected)
    (compactStores opt selected) := by
  intro x hx old
  have hlt := compactStores_lt hx
  obtain ⟨i, hi, r, hr, hown, rfl⟩ := compactStores_addr hx
  rw [Access.store_addr] at hlt
  have hrow : i / opt.topK * opt.topK + orderOf selected opt.topK r i < opt.entries :=
    row_lt hi r
  show (place selected opt.entries i : ℤ) = compactValue opt selected (r * opt.entries + _)
  rw [compactValue, if_pos hlt, entry_div hrow, entry_mod hrow,
    row_hit (topK_pos hi) hown rfl]

/-- A count cell collects the choices of its slot. -/
theorem compactAdds_at {src slot : ℕ} (hslot : slot < opt.slots) :
    (((compactAdds opt selected).filter fun x =>
      x.1 = kGpus * opt.entries + (src * opt.slots + slot)).map Prod.snd).sum =
      (chosen selected opt.topK src slot).length := by
  have hones : (Prod.snd ∘ fun i => ((kGpus * opt.entries +
      (rankOf (selected i) * opt.slots + i / opt.topK), 1) : ℕ × ℤ)) = fun _ => 1 := rfl
  unfold compactAdds
  rw [List.filter_map, List.map_map, hones, sum_ones, List.filter_filter,
    ← slotCount_total hslot, slotCount, ownedBefore, List.countP_eq_length_filter,
    List.filter_filter]
  congr 2
  apply List.filter_congr
  intro i hi
  have hi' : i < opt.entries := List.mem_range.1 hi
  have hslot' : i / opt.topK < opt.slots := (Nat.div_lt_iff_lt_mul (topK_pos hi')).2 hi'
  simp only [Function.comp_apply, ← Bool.decide_and]
  apply decide_eq_decide.2
  constructor
  · rintro ⟨haddr, hexp⟩
    have hsame := Nat.add_left_cancel haddr
    have hdiv := congrArg (· / opt.slots) hsame
    have hmod := congrArg (· % opt.slots) hsame
    simp only [entry_div hslot, entry_div hslot', entry_mod hslot, entry_mod hslot'] at hdiv hmod
    exact ⟨hmod, hexp, hdiv⟩
  · rintro ⟨hmod, hexp, hdiv⟩
    exact ⟨by rw [hmod, hdiv], hexp⟩

/-- The compact plan of a device after the clearing and the filling launch. -/
theorem fillCompact_launch (s s' : Schedule) (h : HasOffsets selected opt.entries offsetsAll)
    (old : ℕ → ℤ) :
    launch s' (grid block opt.entries (gpuRouteFillCompact opt selected offsetsAll))
      (launch s (grid block opt.compactRoutePlanInts (gpuRouteInitCompactPlanKernel opt)) old) =
      pasteAt 0 opt.compactRoutePlanInts (compactValue opt selected) old := by
  have hints : opt.compactRoutePlanInts = kGpus * opt.entries + kGpus * opt.slots :=
    Nat.mul_add _ _ _
  have hperm := fillCompact_perm h
  have hrace : RaceFree (compactStores opt selected ++
      (compactAdds opt selected).map fun x => Access.add x.1 x.2) := by
    apply RaceFree.append compactStores_settles.raceFree (raceFree_adds _)
    intro x hx y hy
    obtain ⟨u, hu, rfl⟩ := List.mem_map.1 hy
    have h₁ := compactStores_lt hx
    have h₂ := (compactAdds_addr hu).1
    rw [Access.add_addr]
    omega
  rw [launch_eq s' (hrace.perm hperm), perform_perm (hrace.perm hperm) hperm, perform_append,
    initCompact_launch]
  funext a
  rw [perform_added]
  by_cases hidx : a < kGpus * opt.entries
  · have hnone : (compactAdds opt selected).filter (fun x => x.1 = a) = [] := by
      apply List.filter_eq_nil_iff.2
      intro x hx
      have := (compactAdds_addr hx).1
      simp only [decide_eq_true_eq]
      omega
    rw [hnone, List.map_nil, List.sum_nil, add_zero, pasteAt_zero_in (by omega)]
    by_cases hhit : ∃ x ∈ compactStores opt selected, x.addr = a
    · exact compactStores_settles.perform_hit hhit
    · push Not at hhit
      have hn : 0 < opt.entries := Nat.pos_of_ne_zero fun h0 => by
        rw [h0, Nat.mul_zero] at hidx
        exact Nat.not_lt_zero a hidx
      have hb : a % opt.entries < opt.slots * opt.topK := Nat.mod_lt a hn
      rw [perform_untouched hhit, pasteAt_zero_in (by omega), if_pos hidx, compactValue,
        if_pos hidx, row_miss hb]
      intro i hi hown heq
      apply hhit _ (List.mem_map_of_mem (List.mem_filter.2
        ⟨List.mem_range.2 hi, decide_eq_true hown.1⟩))
      rw [Access.store_addr, hown.2, heq, Nat.div_add_mod']
  · have hfar : ∀ x ∈ compactStores opt selected, x.addr ≠ a := by
      intro x hx
      have := compactStores_lt hx
      omega
    rw [perform_untouched hfar]
    by_cases hcount : a < opt.compactRoutePlanInts
    · have hslots : 0 < opt.slots := Nat.pos_of_ne_zero fun h0 => by
        rw [hints, h0, Nat.mul_zero] at hcount
        omega
      have hslot := Nat.mod_lt (a - kGpus * opt.entries) hslots
      have ha : a = kGpus * opt.entries + ((a - kGpus * opt.entries) / opt.slots * opt.slots +
          (a - kGpus * opt.entries) % opt.slots) := by
        rw [Nat.div_add_mod']
        omega
      rw [pasteAt_zero_in hcount, pasteAt_zero_in hcount, if_neg hidx, zero_add, compactValue,
        if_neg hidx, ← compactAdds_at hslot, ← ha]
    · have hnone : (compactAdds opt selected).filter (fun x => x.1 = a) = [] := by
        apply List.filter_eq_nil_iff.2
        intro x hx
        have := (compactAdds_addr hx).2
        simp only [decide_eq_true_eq]
        omega
      rw [hnone, List.map_nil, List.sum_nil, add_zero, pasteAt_out (by omega),
        pasteAt_out (by omega)]

end Fill

end Ds4.Routing
