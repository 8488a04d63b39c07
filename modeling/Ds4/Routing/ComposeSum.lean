import Ds4.Routing.Compose
import Ds4.Routing.PlanAgree
import Mathlib.Algebra.BigOperators.Group.Finset.Sigma
import Mathlib.Algebra.Ring.Rat

/-! Both compositions are the sum over the chosen experts. -/
namespace Ds4.Routing

open Parts

section Sums

theorem sum_range_blocks (f : ℕ → ℚ) (r m : ℕ) :
    ∑ i ∈ Finset.range (r * m), f i =
      ∑ a ∈ Finset.range r, ∑ b ∈ Finset.range m, f (a * m + b) := by
  induction r with
  | zero => simp
  | succ r ih => rw [Nat.succ_mul, Finset.sum_range_add, ih, Finset.sum_range_succ]

theorem sum_filter_range (n : ℕ) (p : ℕ → Prop) [DecidablePred p] (f : ℕ → ℚ) :
    (((List.range n).filter fun i => p i).map f).sum =
      ∑ i ∈ Finset.range n, if p i then f i else 0 := by
  induction n with
  | zero => rfl
  | succ n ih =>
    rw [List.range_succ, List.filter_append, List.map_append, List.sum_append, ih,
      Finset.sum_range_succ]
    by_cases hp : p n <;> simp [hp]

/-- A sum over the places of a list is the sum over its items. -/
theorem sum_places (l : List ℕ) (f : ℕ → ℚ) :
    ∑ a ∈ Finset.range l.length, f (l.getD a 0) = (l.map f).sum := by
  induction l with
  | nil => rfl
  | cons x l ih =>
    rw [List.length_cons, Finset.sum_range_succ', List.map_cons, List.sum_cons, ← ih, add_comm]
    rfl

theorem sum_map_ite (l : List ℕ) (p : ℕ → Prop) [DecidablePred p] (f : ℕ → ℚ) :
    (l.map fun i => if p i then f i else 0).sum = ((l.filter fun i => p i).map f).sum := by
  induction l with
  | nil => rfl
  | cons x l ih =>
    rw [List.map_cons, List.sum_cons, ih]
    by_cases hp : p x <;> simp [hp]

theorem foldl_add_sum (f : ℕ → ℚ) (n : ℕ) :
    (List.range n).foldl (fun acc i => acc + f i) 0 = ∑ i ∈ Finset.range n, f i := by
  induction n with
  | zero => rfl
  | succ n ih =>
    rw [List.range_succ, List.foldl_append, ih, Finset.sum_range_succ]
    rfl

end Sums

section Launches
variable {β : Type}

/-- A launch that stores one value for every item. -/
theorem map_launch (s : Schedule) (n : ℕ) (v mem : ℕ → β) :
    launch s (grid block n fun i => if n ≤ i then [] else [Access.store i (v i)]) mem =
      pasteAt 0 n v mem := by
  have hgrid : grid block n (fun i => if n ≤ i then [] else [Access.store i (v i)]) =
      (List.range n).flatMap fun i => [Access.store i (v i)] := grid_guard (by decide) n _
  have hsettles : Settles v ((List.range n).flatMap fun i => [Access.store i (v i)]) := by
    intro x hx old
    obtain ⟨i, -, hxi⟩ := List.mem_flatMap.1 hx
    rw [List.mem_singleton] at hxi
    rw [hxi]
    rfl
  rw [hgrid, launch_eq s hsettles.raceFree]
  funext a
  by_cases ha : a < n
  · rw [pasteAt_zero_in ha]
    exact hsettles.perform_hit
      ⟨_, List.mem_flatMap.2 ⟨a, List.mem_range.2 ha, List.mem_singleton_self _⟩, rfl⟩
  · rw [pasteAt_out (by omega)]
    apply perform_untouched
    intro x hx hxa
    obtain ⟨i, hi, hxi⟩ := List.mem_flatMap.1 hx
    rw [List.mem_singleton] at hxi
    rw [hxi, Access.store_addr] at hxa
    exact ha (hxa ▸ List.mem_range.1 hi)

end Launches

theorem shardCols_pos : 0 < shardCols := by decide

/-- A column within the shard of its device. -/
theorem column_split (h : ℕ) : h / shardCols * shardCols + h % shardCols = h :=
  Nat.div_add_mod' h shardCols

section Served
variable {opt : RouteOptions} {selected : ℕ → ℤ} {weights : ℕ → ℚ} {src : ℕ}

/-- The routes of a source rank as the composition's kernels find them: at least all planned
routes, with a limit that lets exactly the planned ones through. -/
structure Served (opt : RouteOptions) (selected : ℕ → ℤ) (weights : ℕ → ℚ) (src : ℕ)
    (limit : Option (ℕ → ℤ)) (r : RankState ℚ) : Prop where
  room : r.routes ≤ opt.entries
  within : ∀ a, (a < r.routes ∧ WithinTotals limit src a) ↔
    a < (routesOf selected opt.entries src).length
  slots : ∀ a i, (routesOf selected opt.entries src)[a]? = some i →
    r.routeSlots a = (i / opt.topK : ℕ)
  weights : ∀ a i, (routesOf selected opt.entries src)[a]? = some i → r.routeWeights a = weights i

/-- What a source rank adds to a slot's column: its chosen experts, weighted. -/
def contribution (opt : RouteOptions) (selected : ℕ → ℤ) (weights : ℕ → ℚ) (down : ℕ → ℚ)
    (src slot h : ℕ) : ℚ :=
  ((chosen selected opt.topK src slot).map fun k =>
    down (place selected opt.entries (slot * opt.topK + k) * kHidden + h) *
      weights (slot * opt.topK + k)).sum

end Served

section Packed
variable {opt : RouteOptions} {selected : ℕ → ℤ} {weights : ℕ → ℚ} {src : ℕ}
  {limit : Option (ℕ → ℤ)} {r : RankState ℚ} {down : ℕ → ℚ}

theorem mem_strided {h : ℕ} : (∃ t < block, h ∈ strided t) ↔ h < kHidden := by
  simp only [strided, List.mem_map, List.mem_range, block, kHidden]
  constructor
  · rintro ⟨t, ht, j, hj, rfl⟩
    omega
  · intro hlt
    exact ⟨h % 256, by omega, h / 256, by omega, by omega⟩

theorem mem_pack {routes segmentRoutes rank : ℕ} {routeWeights : ℕ → ℚ} {x : Access ℚ} :
    x ∈ epPackRouteDestShards down routeWeights limit routes segmentRoutes rank ↔
      ∃ a < routes, WithinTotals limit rank a ∧ ∃ h < kHidden,
        x = Access.store ((h / shardCols * segmentRoutes + a) * shardCols + h % shardCols)
          (down (a * kHidden + h) * routeWeights a) := by
  simp only [epPackRouteDestShards, epPackRouteDestShardsKernel, List.mem_flatMap, List.mem_range,
    List.mem_ite_nil_right, List.mem_map]
  constructor
  · rintro ⟨a, ha, t, ht, hwithin, h, hh, rfl⟩
    exact ⟨a, ha, hwithin, h, mem_strided.1 ⟨t, ht, hh⟩, rfl⟩
  · rintro ⟨a, ha, hwithin, h, hh, rfl⟩
    obtain ⟨t, ht, hmem⟩ := mem_strided.2 hh
    exact ⟨a, ha, t, ht, hwithin, h, hmem, rfl⟩

/-- What a packed cell is to hold. -/
def packedValue (down routeWeights : ℕ → ℚ) (segmentRoutes addr : ℕ) : ℚ :=
  let a := addr / shardCols % segmentRoutes
  let h := addr / shardCols / segmentRoutes * shardCols + addr % shardCols
  down (a * kHidden + h) * routeWeights a

theorem packedValue_at {segmentRoutes a h : ℕ} {routeWeights : ℕ → ℚ} (ha : a < segmentRoutes) :
    packedValue down routeWeights segmentRoutes
      ((h / shardCols * segmentRoutes + a) * shardCols + h % shardCols) =
      down (a * kHidden + h) * routeWeights a := by
  have hmod : h % shardCols < shardCols := Nat.mod_lt h shardCols_pos
  simp only [packedValue]
  rw [entry_div hmod, entry_mod hmod, entry_div ha, entry_mod ha, column_split]

/-- Every planned route has its weighted output in the segment of every destination. -/
theorem pack_at (down : ℕ → ℚ) (s : Schedule) (mem : ℕ → ℚ)
    (hr : Served opt selected weights src limit r)
    {a i h : ℕ} (hai : (routesOf selected opt.entries src)[a]? = some i) (hh : h < kHidden) :
    launch s (epPackRouteDestShards down r.routeWeights limit r.routes opt.entries src) mem
      ((h / shardCols * opt.entries + a) * shardCols + h % shardCols) =
      down (a * kHidden + h) * weights i := by
  have hsettles : Settles (packedValue down r.routeWeights opt.entries)
      (epPackRouteDestShards down r.routeWeights limit r.routes opt.entries src) := by
    intro x hx old
    obtain ⟨b, hb, -, h', -, rfl⟩ := mem_pack.1 hx
    rw [Access.store_addr, packedValue_at (lt_of_lt_of_le hb hr.room)]
    rfl
  obtain ⟨hlt, -⟩ := List.getElem?_eq_some_iff.1 hai
  obtain ⟨ha, hwithin⟩ := (hr.within a).2 hlt
  have hhit : perform mem (epPackRouteDestShards down r.routeWeights limit r.routes opt.entries src)
      ((h / shardCols * opt.entries + a) * shardCols + h % shardCols) = _ :=
    hsettles.perform_hit ⟨_, mem_pack.2 ⟨a, ha, hwithin, h, hh, rfl⟩, rfl⟩
  rw [launch_eq s hsettles.raceFree, hhit, packedValue_at (lt_of_lt_of_le ha hr.room),
    hr.weights a i hai]

end Packed

section Dense
variable {opt : RouteOptions} {selected : ℕ → ℤ} {weights : ℕ → ℚ} {src : ℕ}
  {limit : Option (ℕ → ℤ)} {r : RankState ℚ} {down : ℕ → ℚ}

/-- The threads that add something. -/
def Adds (r : RankState ℚ) (limit : Option (ℕ → ℤ)) (slots src i : ℕ) : Prop :=
  WithinTotals limit src (i / kHidden) ∧ 0 ≤ r.routeSlots (i / kHidden) ∧
    r.routeSlots (i / kHidden) < slots

instance (r : RankState ℚ) (limit : Option (ℕ → ℤ)) (slots src i : ℕ) :
    Decidable (Adds r limit slots src i) := inferInstanceAs (Decidable (_ ∧ _))

/-- Where such a thread adds. -/
def addCell (r : RankState ℚ) (slots i : ℕ) : ℕ :=
  (i % kHidden / shardCols * slots + (r.routeSlots (i / kHidden)).toNat) * shardCols +
    i % kHidden % shardCols

theorem reduce_launch (s : Schedule) (slots : ℕ) (mem : ℕ → ℚ) :
    launch s (grid block (r.routes * kHidden) (epReduceAllDestShardsKernel down r.routeSlots
      r.routeWeights limit r.routes slots src)) mem =
    perform mem ((((List.range (r.routes * kHidden)).filter fun i =>
      Adds r limit slots src i).map fun i =>
        (addCell r slots i, down i * r.routeWeights (i / kHidden))).map fun x =>
          Access.add x.1 x.2) := by
  have hgrid : grid block (r.routes * kHidden) (epReduceAllDestShardsKernel down r.routeSlots
      r.routeWeights limit r.routes slots src) =
      (((List.range (r.routes * kHidden)).filter fun i => Adds r limit slots src i).map fun i =>
        (addCell r slots i, down i * r.routeWeights (i / kHidden))).map fun x =>
          Access.add x.1 x.2 := by
    rw [show epReduceAllDestShardsKernel down r.routeSlots r.routeWeights limit r.routes slots src =
      fun i => if r.routes * kHidden ≤ i then [] else if Adds r limit slots src i then
        [Access.add (addCell r slots i) (down i * r.routeWeights (i / kHidden))] else [] from rfl,
      grid_guard (by decide), flatMap_ite, List.map_map]
    rfl
  rw [hgrid, launch_eq s (raceFree_adds _)]

/-- Two cells of the dense buffer are one only for the same column and the same slot. -/
theorem cell_eq {slots slot slot' h h' : ℕ} (hslot : slot < slots) (hslot' : slot' < slots) :
    (h' / shardCols * slots + slot') * shardCols + h' % shardCols =
      (h / shardCols * slots + slot) * shardCols + h % shardCols ↔ h' = h ∧ slot' = slot := by
  have hmod : h % shardCols < shardCols := Nat.mod_lt h shardCols_pos
  have hmod' : h' % shardCols < shardCols := Nat.mod_lt h' shardCols_pos
  constructor
  · intro heq
    have hrow := congrArg (· / shardCols) heq
    have hcol := congrArg (· % shardCols) heq
    simp only [entry_div hmod, entry_div hmod', entry_mod hmod, entry_mod hmod'] at hrow hcol
    have hdest := congrArg (· / slots) hrow
    have hs := congrArg (· % slots) hrow
    simp only [entry_div hslot, entry_div hslot', entry_mod hslot, entry_mod hslot'] at hdest hs
    refine ⟨?_, hs⟩
    rw [← column_split h', hdest, hcol, column_split]
  · rintro ⟨rfl, rfl⟩
    rfl

/-- Of one route, only the thread of the cell's column adds to it, and only for its slot. -/
theorem row_adds {slot h a : ℕ} (hslot : slot < opt.slots) (hh : h < kHidden) :
    (∑ h' ∈ Finset.range kHidden,
      if addCell r opt.slots (a * kHidden + h') =
          (h / shardCols * opt.slots + slot) * shardCols + h % shardCols ∧
          Adds r limit opt.slots src (a * kHidden + h') then
        down (a * kHidden + h') * r.routeWeights ((a * kHidden + h') / kHidden)
      else 0) =
      if WithinTotals limit src a ∧ r.routeSlots a = slot then
        down (a * kHidden + h) * r.routeWeights a else 0 := by
  have hcond : ∀ h' < kHidden, (addCell r opt.slots (a * kHidden + h') =
      (h / shardCols * opt.slots + slot) * shardCols + h % shardCols ∧
      Adds r limit opt.slots src (a * kHidden + h')) ↔
      h' = h ∧ WithinTotals limit src a ∧ r.routeSlots a = slot := by
    intro h' hh'
    simp only [addCell, Adds, entry_div hh', entry_mod hh']
    constructor
    · rintro ⟨hcell, hwithin, hnonneg, hlt⟩
      have hnat : (r.routeSlots a).toNat < opt.slots := by omega
      obtain ⟨hcol, hs⟩ := (cell_eq hslot hnat).1 hcell
      exact ⟨hcol, hwithin, by omega⟩
    · rintro ⟨rfl, hwithin, hs⟩
      rw [hs, Int.toNat_natCast]
      exact ⟨rfl, hwithin, by omega, by omega⟩
  rw [Finset.sum_eq_single h]
  · rw [entry_div hh]
    by_cases hc : WithinTotals limit src a ∧ r.routeSlots a = slot
    · rw [if_pos hc, if_pos ((hcond h hh).2 ⟨rfl, hc⟩)]
    · rw [if_neg hc, if_neg fun hc' => hc ((hcond h hh).1 hc').2]
  · intro h' hh' hne
    exact if_neg fun hc => hne ((hcond h' (Finset.mem_range.1 hh')).1 hc).1
  · intro hnot
    exact absurd (Finset.mem_range.2 hh) hnot

/-- The planned routes of a slot are its chosen experts. -/
theorem sum_routes (f : ℕ → ℚ) {slot : ℕ} (hslot : slot < opt.slots) :
    (∑ a ∈ Finset.range (routesOf selected opt.entries src).length,
      if (routesOf selected opt.entries src).getD a 0 / opt.topK = slot then
        f ((routesOf selected opt.entries src).getD a 0) else 0) =
      ((chosen selected opt.topK src slot).map fun k => f (slot * opt.topK + k)).sum := by
  rw [sum_places _ fun i => if i / opt.topK = slot then f i else 0,
    (routesOf_perm.map _).sum_eq, sum_map_ite,
    show opt.entries = opt.slots * opt.topK from rfl, ownedBefore_slot hslot, List.map_map]
  rfl

/-- A cell of the dense buffer collects the slot's routes on the source rank. -/
theorem reduce_at (down : ℕ → ℚ) (s : Schedule) (mem : ℕ → ℚ)
    (hr : Served opt selected weights src limit r)
    {slot h : ℕ} (hslot : slot < opt.slots) (hh : h < kHidden) :
    launch s (grid block (r.routes * kHidden) (epReduceAllDestShardsKernel down r.routeSlots
      r.routeWeights limit r.routes opt.slots src)) mem
      ((h / shardCols * opt.slots + slot) * shardCols + h % shardCols) =
      mem ((h / shardCols * opt.slots + slot) * shardCols + h % shardCols) +
        contribution opt selected weights down src slot h := by
  rw [reduce_launch, perform_added, List.filter_map, List.map_map, List.filter_filter]
  congr 1
  have hlen : (routesOf selected opt.entries src).length ≤ r.routes := by
    by_contra hlt
    exact lt_irrefl _ ((hr.within r.routes).2 (Nat.not_le.1 hlt)).1
  calc _ = ∑ i ∈ Finset.range (r.routes * kHidden),
        if addCell r opt.slots i = (h / shardCols * opt.slots + slot) * shardCols + h % shardCols ∧
          Adds r limit opt.slots src i then down i * r.routeWeights (i / kHidden) else 0 := by
        rw [← sum_filter_range]
        simp only [Function.comp_apply, Bool.decide_and]
        rfl
    _ = ∑ a ∈ Finset.range r.routes, if WithinTotals limit src a ∧ r.routeSlots a = slot then
          down (a * kHidden + h) * r.routeWeights a else 0 := by
        rw [sum_range_blocks]
        exact Finset.sum_congr rfl fun a _ => row_adds hslot hh
    _ = ∑ a ∈ Finset.range (routesOf selected opt.entries src).length,
          if WithinTotals limit src a ∧ r.routeSlots a = slot then
            down (a * kHidden + h) * r.routeWeights a else 0 := by
        symm
        apply Finset.sum_subset (Finset.range_mono hlen)
        intro a ha hnot
        apply if_neg
        rintro ⟨hwithin, -⟩
        exact hnot (Finset.mem_range.2 ((hr.within a).1 ⟨Finset.mem_range.1 ha, hwithin⟩))
    _ = ∑ a ∈ Finset.range (routesOf selected opt.entries src).length,
          if (routesOf selected opt.entries src).getD a 0 / opt.topK = slot then
            down (place selected opt.entries ((routesOf selected opt.entries src).getD a 0) *
              kHidden + h) * weights ((routesOf selected opt.entries src).getD a 0) else 0 := by
        apply Finset.sum_congr rfl
        intro a ha
        have hlt := Finset.mem_range.1 ha
        have hai : (routesOf selected opt.entries src)[a]? =
            some ((routesOf selected opt.entries src).getD a 0) := by
          rw [List.getD_eq_getElem _ _ hlt]
          exact List.getElem?_eq_getElem hlt
        have hwithin := ((hr.within a).2 hlt).2
        rw [hr.slots a _ hai, hr.weights a _ hai, place_of_route hai]
        by_cases hs : (routesOf selected opt.entries src).getD a 0 / opt.topK = slot
        · rw [if_pos hs, if_pos ⟨hwithin, by exact_mod_cast hs⟩]
        · rw [if_neg hs, if_neg]
          rintro ⟨-, hs'⟩
          exact hs (by exact_mod_cast hs')
    _ = contribution opt selected weights down src slot h :=
        sum_routes (fun i => down (place selected opt.entries i * kHidden + h) * weights i) hslot

end Dense

section Compact
variable {opt : RouteOptions} {selected : ℕ → ℤ} {weights : ℕ → ℚ} {src : ℕ} {down : ℕ → ℚ}

/-- The compact plan as the composition reads it. -/
structure CompactRows (opt : RouteOptions) (selected : ℕ → ℤ) (plan : ℕ → ℤ) : Prop where
  counts : ∀ src < kGpus, ∀ slot < opt.slots,
    plan (kGpus * opt.entries + src * opt.slots + slot) =
      (chosen selected opt.topK src slot).length
  rows : ∀ src < kGpus, ∀ slot < opt.slots, ∀ c < opt.topK,
    plan (src * opt.entries + slot * opt.topK + c) =
      rowValue selected opt.entries opt.topK src slot c

/-- The rows of a slot that its compact row points at sum to the source's contribution. -/
theorem compactSum_eq {rows : ℕ → ℚ} {indices counts : ℕ → ℤ} {slot h : ℕ}
    (hcount : counts slot = (chosen selected opt.topK src slot).length)
    (hindex : ∀ c < opt.topK, indices (slot * opt.topK + c) =
      rowValue selected opt.entries opt.topK src slot c)
    (hrows : ∀ k ∈ chosen selected opt.topK src slot,
      rows (place selected opt.entries (slot * opt.topK + k) * shardCols + h % shardCols) =
        down (place selected opt.entries (slot * opt.topK + k) * kHidden + h) *
          weights (slot * opt.topK + k)) :
    compactMoeSumSrcRoutes rows indices counts slot (h % shardCols) opt.topK =
      contribution opt selected weights down src slot h := by
  have hlen : (chosen selected opt.topK src slot).length ≤ opt.topK := chosen_length_le
  have hstep : compactMoeSumSrcRoutes rows indices counts slot (h % shardCols) opt.topK =
      (List.range opt.topK).foldl (fun acc c => acc +
        if c < (chosen selected opt.topK src slot).length then
          down (place selected opt.entries (slot * opt.topK +
            (chosen selected opt.topK src slot).getD c 0) * kHidden + h) *
            weights (slot * opt.topK + (chosen selected opt.topK src slot).getD c 0)
        else 0) 0 := by
    apply foldl_range_congr
    intro acc c hc
    rw [hcount, hindex c hc]
    by_cases hcl : c < (chosen selected opt.topK src slot).length
    · have hget : (chosen selected opt.topK src slot)[c]? =
          some ((chosen selected opt.topK src slot).getD c 0) := by
        rw [List.getD_eq_getElem _ _ hcl]
        exact List.getElem?_eq_getElem hcl
      have hmem : (chosen selected opt.topK src slot).getD c 0 ∈
          chosen selected opt.topK src slot := List.mem_of_getElem? hget
      have hrow : rowValue selected opt.entries opt.topK src slot c =
          (place selected opt.entries (slot * opt.topK +
            (chosen selected opt.topK src slot).getD c 0) : ℕ) := by
        rw [rowValue, hget]
      rw [hrow, if_pos ⟨by exact_mod_cast hcl, Int.natCast_nonneg _⟩, if_pos hcl,
        Int.toNat_natCast, hrows _ hmem]
    · rw [if_neg hcl, if_neg (by omega), add_zero]
  rw [hstep, foldl_add_sum, contribution, ← sum_places]
  symm
  calc _ = ∑ c ∈ Finset.range (chosen selected opt.topK src slot).length,
        if c < (chosen selected opt.topK src slot).length then
          down (place selected opt.entries (slot * opt.topK +
            (chosen selected opt.topK src slot).getD c 0) * kHidden + h) *
            weights (slot * opt.topK + (chosen selected opt.topK src slot).getD c 0)
        else 0 := Finset.sum_congr rfl fun c hc => (if_pos (Finset.mem_range.1 hc)).symm
    _ = _ := by
        apply Finset.sum_subset (Finset.range_mono hlen)
        intro c _ hnot
        exact if_neg fun hlt => hnot (Finset.mem_range.2 hlt)

/-- What the chosen experts of a slot add to a column. -/
def expertSum (opt : RouteOptions) (selected : ℕ → ℤ) (weights : ℕ → ℚ) (down : ℕ → ℕ → ℚ)
    (slot h : ℕ) : ℚ :=
  ∑ k ∈ Finset.range opt.topK,
    if IsExpert (selected (slot * opt.topK + k)) then
      weights (slot * opt.topK + k) * down (rankOf (selected (slot * opt.topK + k)))
        (place selected opt.entries (slot * opt.topK + k) * kHidden + h)
    else 0

/-- Every chosen expert belongs to one source rank. -/
theorem sum_contribution (downs : ℕ → ℕ → ℚ) (slot h : ℕ) :
    ∑ s ∈ Finset.range kGpus, contribution opt selected weights (downs s) s slot h =
      expertSum opt selected weights downs slot h := by
  have hrow : ∀ s, contribution opt selected weights (downs s) s slot h =
      ∑ k ∈ Finset.range opt.topK, if Owned selected s (slot * opt.topK + k) then
        downs s (place selected opt.entries (slot * opt.topK + k) * kHidden + h) *
          weights (slot * opt.topK + k) else 0 := by
    intro s
    exact sum_filter_range _ _ _
  rw [Finset.sum_congr rfl fun s _ => hrow s, Finset.sum_comm]
  apply Finset.sum_congr rfl
  intro k _
  by_cases hexp : IsExpert (selected (slot * opt.topK + k))
  · rw [if_pos hexp, Finset.sum_eq_single (rankOf (selected (slot * opt.topK + k)))]
    · rw [if_pos ⟨hexp, rfl⟩, mul_comm]
    · intro s _ hne
      exact if_neg fun hown => hne hown.2.symm
    · intro hnot
      exact absurd (Finset.mem_range.2 (rankOf_lt hexp)) hnot
  · rw [if_neg hexp]
    apply Finset.sum_eq_zero
    intro s _
    exact if_neg fun hown => hexp hown.1

end Compact

end Ds4.Routing
