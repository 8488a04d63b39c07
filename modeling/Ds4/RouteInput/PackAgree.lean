import Ds4.RouteInput.Kernels
import Mathlib.Algebra.BigOperators.Ring.Finset
import Mathlib.Algebra.Order.Field.Basic
import Mathlib.Data.Rat.Star
import Mathlib.Tactic.Linarith

/-! The forms of packing agree on the routes in use, and what the scaled forms store is undone by
the routes' stored scale. -/
namespace Ds4.RouteInput
open Ds4.Parts Ds4.Norm

/-- `kReferenceRouteInputTargetAbs`. -/
def kReferenceRouteInputTargetAbs {α : Type} [Field α] : α := 32

/-- The layer's columns, as many on each GPU. -/
def Shards.ofSlots (slots : ℕ) : Shards := ⟨kHidden / kGpus, kGpus, slots⟩

/-- A route of a rank that is in use, and its slot. -/
structure RoutePlan.Used (plan : RoutePlan) (slots route slot : ℕ) : Prop where
  lt : route < plan.routes
  inUse : ¬ plan.Unused route
  slot_eq : plan.routeSlots route = slot
  slot_lt : slot < slots

section Values
variable {α : Type} [Field α] [LinearOrder α] [IsStrictOrderedRing α]
variable {values : ℕ → α} {h : ℕ}

omit [IsStrictOrderedRing α] in
theorem valuesMax_le_iff {b : α} :
    valuesMax values ≤ b ↔ 0 ≤ b ∧ ∀ h < kHidden, |values h| ≤ b := by
  unfold valuesMax
  rw [treeReduce_max_le_iff]
  simp only [foldl_max_le_iff]
  constructor
  · intro hall
    refine ⟨(hall 0 (by norm_num)).1, fun h hh => ?_⟩
    exact (hall (h % 256) (Nat.mod_lt h (by norm_num))).2 h (mem_items.2 ⟨hh, rfl⟩)
  · rintro ⟨hb, hall⟩ t _
    exact ⟨hb, fun h hh => hall h (mem_items.1 hh).1⟩

omit [IsStrictOrderedRing α] in
theorem routeScale_congr {values' : ℕ → α} (target : α) (hv : ∀ h < kHidden, values h = values' h) :
    routeScale target values = routeScale target values' := by
  have hmax : valuesMax values = valuesMax values' := by
    refine le_antisymm ?_ ?_
    · obtain ⟨hb, hall⟩ := valuesMax_le_iff.1 (le_refl (valuesMax values'))
      exact valuesMax_le_iff.2 ⟨hb, fun h hh => (hv h hh).symm ▸ hall h hh⟩
    · obtain ⟨hb, hall⟩ := valuesMax_le_iff.1 (le_refl (valuesMax values))
      exact valuesMax_le_iff.2 ⟨hb, fun h hh => hv h hh ▸ hall h hh⟩
  unfold routeScale
  rw [hmax]

theorem routeScale_pos (target : α) : 0 < routeScale target values := by
  have hsafe : (0 : α) < max target 1 := one_pos.trans_le (le_max_right _ _)
  unfold routeScale
  dsimp only
  split_ifs with hlt
  · exact div_pos hsafe (hsafe.trans hlt)
  · exact one_pos

/-- No scaled value is beyond the target. -/
theorem abs_scaled_le (target : α) (hh : h < kHidden) :
    |values h * routeScale target values| ≤ max target 1 := by
  have hsafe : (0 : α) < max target 1 := one_pos.trans_le (le_max_right _ _)
  have hle := (valuesMax_le_iff.1 (le_refl (valuesMax values))).2 h hh
  unfold routeScale
  dsimp only
  split_ifs with hlt
  · have hmax := hsafe.trans hlt
    rw [abs_mul, abs_of_pos (div_pos hsafe hmax), mul_div_assoc', div_le_iff₀ hmax, mul_comm]
    exact mul_le_mul_of_nonneg_left hle hsafe.le
  · rw [mul_one]
    exact hle.trans (not_lt.1 hlt)

theorem saturate_of_abs_le {x : α} (hx : |x| ≤ kFp16Max) : f32ToHalfSaturate (some x) = x := by
  obtain ⟨hlow, hhigh⟩ := abs_le.1 hx
  unfold f32ToHalfSaturate
  dsimp only
  rw [max_eq_right hlow, min_eq_right hhigh]

/-- The stored scale takes the route's scale back. -/
theorem scaled_mul_inverse (hh : h < kHidden) :
    f32ToHalfSaturate (some (values h * routeScale kReferenceRouteInputTargetAbs values)) *
      inverseScale (routeScale kReferenceRouteInputTargetAbs values) = values h := by
  have hpos : 0 < routeScale kReferenceRouteInputTargetAbs values := routeScale_pos _
  have htarget : max (kReferenceRouteInputTargetAbs : α) 1 ≤ kFp16Max := by
    unfold kReferenceRouteInputTargetAbs kFp16Max
    exact max_le (by norm_num) (by norm_num)
  rw [saturate_of_abs_le ((abs_scaled_le _ hh).trans htarget)]
  unfold inverseScale
  rw [if_pos hpos, mul_assoc, mul_one_div_cancel hpos.ne', mul_one]

end Values

/-- A route in use reads its slot's row. -/
theorem routeRead_eq {α : Type} {sh : Shards} {plan : RoutePlan} {rankMajor : ℕ → F32 α}
    {route slot h : ℕ} (hslot : plan.routeSlots route = slot) (hlt : slot < sh.slots)
    (hrank : h / sh.shardCols < sh.ranks) [Field α] :
    routeRead sh plan rankMajor route h = rankMajor (sh.entry slot h) := by
  have hin : (0 : ℤ) ≤ slot ∧ (slot : ℤ) < sh.slots := ⟨by omega, by exact_mod_cast hlt⟩
  unfold routeRead
  rw [hslot]
  dsimp only
  rw [if_pos hin, if_pos hrank]
  rfl

/-- What the packing of a rank is given. -/
structure Inputs (α : Type) where
  rsqrtf : α → α
  expf : α → α
  eps : α
  clamp : α
  slots : ℕ
  plan : RoutePlan
  rankMajor : ℕ → F32 α
  normWeight : ℕ → α
  expertWeights : ℕ → ℕ → ℕ → α

/-- What the buffers hold before. -/
structure Buffers (α : Type) where
  full : ℕ → F32 α
  normed : ℕ → F32 α
  routes : ℕ → α
  inverse : ℕ → α
  mid : ℕ → α

namespace Inputs
variable {α : Type} [Field α] [LinearOrder α]
variable (x : Inputs α) (gemm : GateUp α) (s : ℕ → Schedule) (b : Buffers α)

def shards : Shards := Shards.ofSlots x.slots

/-- The rows, transposed to slots and normalised. -/
def normedFull : ℕ → F32 α :=
  let full := launch (s 0) (rankMajorToSlotMajor x.shards x.rankMajor) b.full
  launch (s 1) (rmsNormWeightRowsStable x.rsqrtf x.eps x.normWeight kHidden x.slots full) b.normed

def plainRoutes : ℕ → α := launch (s 2) (packCurrentFull x.plan (x.normedFull s b)) b.routes

def plainScaledRoutes : ℕ → α :=
  launch (s 2)
    (packCurrentFullScaled kReferenceRouteInputTargetAbs x.plan (x.normedFull s b)) b.routes

def plainInverse : ℕ → α :=
  launch (s 3) (packCurrentFullInverse kReferenceRouteInputTargetAbs x.plan (x.normedFull s b))
    b.inverse

def fusedRoutes : ℕ → α :=
  launch (s 2) (packRankMajorNorm x.rsqrtf x.eps x.normWeight x.shards x.plan x.rankMajor) b.routes

def fusedScaledRoutes : ℕ → α :=
  launch (s 2) (packRankMajorNormScaled x.rsqrtf x.eps kReferenceRouteInputTargetAbs x.normWeight
    x.shards x.plan x.rankMajor) b.routes

def fusedInverse : ℕ → α :=
  launch (s 3) (packRankMajorNormInverse x.rsqrtf x.eps kReferenceRouteInputTargetAbs x.normWeight
    x.shards x.plan x.rankMajor) b.inverse

/-- The experts' middle values, of packed routes and the scales that are taken back. -/
def mid (routes : ℕ → α) (inverse : Option (ℕ → α)) : ℕ → α :=
  launch (s 4)
    (swigluClamp x.expf x.clamp x.plan.routes inverse (gemm.gateUp x.plan x.expertWeights routes))
    b.mid

/-- A slot's row in the shards. -/
def row (slot h : ℕ) : F32 α := x.rankMajor (x.shards.entry slot h)

/-- A slot's normalised row, which no kernel has rounded or cut. -/
def normed (slot h : ℕ) : α :=
  finite (x.row slot h) * rowScale x.rsqrtf x.eps (x.row slot) kHidden * x.normWeight h

/-- The routes with their slots' values as they are. -/
def unscaledRoutes (i : ℕ) : α :=
  x.normed (x.plan.routeSlots (i / kHidden)).toNat (i % kHidden)

variable {x gemm s b}
variable {route slot h : ℕ}

theorem kHidden_pos : 0 < kHidden := by decide

/-- The norm reads a slot's row behind the transpose. -/
theorem normedFull_eq (hslot : slot < x.slots) (hh : h < kHidden) :
    x.normedFull s b (slot * kHidden + h) = some (x.normed slot h) := by
  have hcols : (kHidden / kGpus) * kGpus = kHidden := by decide
  have hfull : ∀ c < kHidden, launch (s 0) (rankMajorToSlotMajor x.shards x.rankMajor) b.full
      (slot * kHidden + c) = x.row slot c := by
    intro c hc
    have hitem : slot * kHidden + c < x.slots * (kHidden / kGpus * kGpus) := by
      rw [hcols]
      exact entry_lt hslot hc
    unfold rankMajorToSlotMajor
    dsimp only [shards, Shards.ofSlots]
    rw [launch_item (s 0) (by norm_num) hitem, hcols, entry_div hc, entry_mod hc]
    rfl
  unfold normedFull rmsNormWeightRowsStable
  dsimp only
  rw [launch_row (s 1) hslot hh, hfull h hh, rowScale_congr x.rsqrtf x.eps hfull]
  unfold normed
  cases x.row slot h with
  | none =>
    show some 0 = some (0 * _ * _)
    rw [zero_mul, zero_mul]
  | some v => rfl

/-- The fused kernels read the slot's row and no other. -/
theorem routeValues_eq (hused : x.plan.Used x.slots route slot) (hh : h < kHidden) :
    routeValues x.rsqrtf x.eps x.normWeight x.shards x.plan x.rankMajor route h =
      x.normed slot h := by
  have hread : ∀ c < kHidden, routeRead x.shards x.plan x.rankMajor route c = x.row slot c := by
    intro c hc
    have hrank : c / (kHidden / kGpus) < kGpus := Nat.div_lt_of_lt_mul (by
      have : kHidden / kGpus * kGpus = kHidden := by decide
      omega)
    exact routeRead_eq hused.slot_eq hused.slot_lt hrank
  unfold routeValues fusedScale normed rowScale
  dsimp only
  rw [sumSquares_finite, hread h hh, maxAbs_congr hread, sumSquares_congr hread]

/-- A route in use is packed with its slot's row, as it is kept in half precision. -/
theorem fusedRoutes_eq (hused : x.plan.Used x.slots route slot) (hh : h < kHidden) :
    x.fusedRoutes s b (route * kHidden + h) = f32ToHalfSaturate (some (x.normed slot h)) := by
  unfold fusedRoutes packRankMajorNorm
  rw [launch_keptRow (s 2) hused.lt hused.inUse hh, routeValues_eq hused hh]

theorem plainRoutes_eq (hused : x.plan.Used x.slots route slot) (hh : h < kHidden) :
    x.plainRoutes s b (route * kHidden + h) = f32ToHalfSaturate (some (x.normed slot h)) := by
  unfold plainRoutes packCurrentFull
  rw [launch_item (s 2) (by norm_num) (entry_lt hused.lt hh), entry_div hh, entry_mod hh,
    hused.slot_eq, Int.toNat_natCast, normedFull_eq hused.slot_lt hh]

/-- The scale of a slot's routes. -/
def slotScale (x : Inputs α) (slot : ℕ) : α :=
  routeScale kReferenceRouteInputTargetAbs (x.normed slot)

theorem fusedScaledRoutes_eq (hused : x.plan.Used x.slots route slot) (hh : h < kHidden) :
    x.fusedScaledRoutes s b (route * kHidden + h) =
      f32ToHalfSaturate (some (x.normed slot h * x.slotScale slot)) := by
  unfold fusedScaledRoutes packRankMajorNormScaled slotScale
  rw [launch_keptRow (s 2) hused.lt hused.inUse hh]
  dsimp only
  rw [routeValues_eq hused hh, routeScale_congr _ fun c hc => routeValues_eq hused hc]

theorem fusedInverse_eq (hused : x.plan.Used x.slots route slot) :
    x.fusedInverse s b route = inverseScale (x.slotScale slot) := by
  unfold fusedInverse packRankMajorNormInverse slotScale
  rw [launch_cell (s 3) hused.lt, if_neg hused.inUse,
    routeScale_congr _ fun c hc => routeValues_eq hused hc]

theorem fullValues_eq (hused : x.plan.Used x.slots route slot) (hh : h < kHidden) :
    fullValues x.plan (x.normedFull s b) route h = x.normed slot h := by
  unfold fullValues
  rw [hused.slot_eq, Int.toNat_natCast, normedFull_eq hused.slot_lt hh]
  rfl

theorem plainScaledRoutes_eq (hused : x.plan.Used x.slots route slot) (hh : h < kHidden) :
    x.plainScaledRoutes s b (route * kHidden + h) =
      f32ToHalfSaturate (some (x.normed slot h * x.slotScale slot)) := by
  unfold plainScaledRoutes packCurrentFullScaled slotScale
  rw [launch_row (s 2) hused.lt hh]
  dsimp only
  rw [fullValues_eq hused hh, routeScale_congr _ fun c hc => fullValues_eq hused hc]

theorem plainInverse_eq (hused : x.plan.Used x.slots route slot) :
    x.plainInverse s b route = inverseScale (x.slotScale slot) := by
  unfold plainInverse packCurrentFullInverse slotScale
  rw [launch_cell (s 3) hused.lt, routeScale_congr _ fun c hc => fullValues_eq hused hc]

omit [LinearOrder α] in
/-- A route's projections are those of the route that it is a multiple of. -/
theorem gateUp_mul {plan : RoutePlan} {weights : ℕ → ℕ → ℕ → α} {a a' : ℕ → α} {k : α} {c : ℕ}
    (hroute : route < plan.routes) (hinUse : ¬ plan.Unused route) (hc : c < kFusedN)
    (ha : ∀ h < kHidden, a (route * kHidden + h) * k = a' (route * kHidden + h)) :
    gemm.gateUp plan weights a (route * kFusedN + c) * k =
      gemm.gateUp plan weights a' (route * kFusedN + c) := by
  rw [gemm.row_eq plan weights a route hroute hinUse c hc,
    gemm.row_eq plan weights a' route hroute hinUse c hc, Finset.sum_mul]
  refine Finset.sum_congr rfl fun h hh => ?_
  rw [← ha h (Finset.mem_range.1 hh), mul_right_comm]

omit [LinearOrder α] in
/-- Taking a scale back is a multiplication. -/
theorem takeBack_eq (inverse : Option (ℕ → α)) (row : ℕ) :
    ∃ k, ∀ y : α, takeBack inverse row y = y * k := by
  cases inverse with
  | none => exact ⟨1, fun y => (mul_one y).symm⟩
  | some inverse => exact ⟨inverse row, fun y => rfl⟩

/-- The experts' middle values of two packings are equal, if the rows are once the scale is taken
back. -/
theorem mid_eq {s' : ℕ → Schedule} {b' : Buffers α} {routes routes' : ℕ → α}
    {inverse : Option (ℕ → α)} {col : ℕ} (hused : x.plan.Used x.slots route slot)
    (hcol : col < kMid)
    (hrow : ∀ h < kHidden, takeBack inverse route (routes (route * kHidden + h)) =
      routes' (route * kHidden + h)) :
    x.mid gemm s b routes inverse (route * kMid + col) =
      x.mid gemm s' b' routes' none (route * kMid + col) := by
  have hfused : kFusedN = kMid + kMid := by decide
  obtain ⟨k, hk⟩ := takeBack_eq inverse route
  have hmul : ∀ h < kHidden, routes (route * kHidden + h) * k = routes' (route * kHidden + h) :=
    fun h hh => (hk _).symm.trans (hrow h hh)
  have hproj : ∀ c < kFusedN,
      gemm.gateUp x.plan x.expertWeights routes (route * kFusedN + c) * k =
        gemm.gateUp x.plan x.expertWeights routes' (route * kFusedN + c) :=
    fun c hc => gateUp_mul hused.lt hused.inUse hc hmul
  unfold mid swigluClamp
  rw [launch_item (s 4) (by norm_num) (entry_lt hused.lt hcol),
    launch_item (s' 4) (by norm_num) (entry_lt hused.lt hcol)]
  dsimp only
  rw [entry_div hcol, Nat.add_sub_cancel_left, Nat.add_assoc, hk, hk, hproj col (by omega),
    hproj (col + kMid) (by omega)]
  rfl

/-- A slot's row is all that its values are made of. -/
theorem normed_congr {x' : Inputs α} (hrsqrtf : x'.rsqrtf = x.rsqrtf) (heps : x'.eps = x.eps)
    (hweight : x'.normWeight = x.normWeight) (hrow : ∀ c < kHidden, x'.row slot c = x.row slot c)
    (hh : h < kHidden) : x'.normed slot h = x.normed slot h := by
  unfold normed
  rw [hrsqrtf, heps, hweight, hrow h hh, rowScale_congr x.rsqrtf x.eps hrow]

variable [IsStrictOrderedRing α]

/-- For each route in use the fused form packs what the transpose, the norm and the plain kernel
do; the scaled forms store what the stored scale makes the unscaled value, so that the experts'
middle values are those of the unscaled values, and those of the plain packing where it cuts
nothing; and the values of a route depend on its slot's row alone. -/
theorem packing_agrees (x : Inputs α) (gemm : GateUp α) (s s' : ℕ → Schedule) (b b' : Buffers α)
    {route slot : ℕ} (hused : x.plan.Used x.slots route slot) :
    (∀ h < kHidden,
      x.fusedRoutes s b (route * kHidden + h) = x.plainRoutes s' b' (route * kHidden + h) ∧
      x.plainRoutes s' b' (route * kHidden + h) = f32ToHalfSaturate (some (x.normed slot h)) ∧
      x.fusedScaledRoutes s b (route * kHidden + h) =
        x.plainScaledRoutes s' b' (route * kHidden + h) ∧
      x.fusedScaledRoutes s b (route * kHidden + h) * x.fusedInverse s b route = x.normed slot h ∧
      x.plainScaledRoutes s' b' (route * kHidden + h) * x.plainInverse s' b' route =
        x.normed slot h) ∧
    (∀ col < kMid,
      x.mid gemm s b (x.fusedScaledRoutes s b) (some (x.fusedInverse s b)) (route * kMid + col) =
        x.mid gemm s' b' x.unscaledRoutes none (route * kMid + col) ∧
      x.mid gemm s b (x.plainScaledRoutes s b) (some (x.plainInverse s b)) (route * kMid + col) =
        x.mid gemm s' b' x.unscaledRoutes none (route * kMid + col) ∧
      ((∀ h < kHidden, |x.normed slot h| ≤ kFp16Max) →
        x.mid gemm s b (x.fusedScaledRoutes s b) (some (x.fusedInverse s b)) (route * kMid + col) =
          x.mid gemm s' b' (x.plainRoutes s' b') none (route * kMid + col))) ∧
    ∀ rankMajor' : ℕ → F32 α,
      (∀ h < kHidden, rankMajor' (x.shards.entry slot h) = x.rankMajor (x.shards.entry slot h)) →
      ∀ h < kHidden,
        Inputs.fusedRoutes { x with rankMajor := rankMajor' } s b (route * kHidden + h) =
          x.fusedRoutes s b (route * kHidden + h) ∧
        Inputs.fusedScaledRoutes { x with rankMajor := rankMajor' } s b (route * kHidden + h) =
          x.fusedScaledRoutes s b (route * kHidden + h) ∧
        Inputs.fusedInverse { x with rankMajor := rankMajor' } s b route =
          x.fusedInverse s b route := by
  have hfused : ∀ h < kHidden, x.fusedScaledRoutes s b (route * kHidden + h) *
      x.fusedInverse s b route = x.normed slot h := by
    intro h hh
    rw [fusedScaledRoutes_eq hused hh, fusedInverse_eq hused]
    exact scaled_mul_inverse hh
  have hplain : ∀ s b, ∀ h < kHidden, x.plainScaledRoutes s b (route * kHidden + h) *
      x.plainInverse s b route = x.normed slot h := by
    intro s b h hh
    rw [plainScaledRoutes_eq hused hh, plainInverse_eq hused]
    exact scaled_mul_inverse hh
  have hunscaled : ∀ h < kHidden, x.unscaledRoutes (route * kHidden + h) = x.normed slot h := by
    intro h hh
    unfold unscaledRoutes
    rw [entry_div hh, entry_mod hh, hused.slot_eq, Int.toNat_natCast]
  refine ⟨fun h hh => ⟨?_, plainRoutes_eq hused hh, ?_, hfused h hh, hplain s' b' h hh⟩,
    fun col hcol => ⟨?_, ?_, fun hcut => ?_⟩, fun rankMajor' hsame h hh => ?_⟩
  · rw [fusedRoutes_eq hused hh, plainRoutes_eq hused hh]
  · rw [fusedScaledRoutes_eq hused hh, plainScaledRoutes_eq hused hh]
  · exact mid_eq hused hcol fun h hh => (hfused h hh).trans (hunscaled h hh).symm
  · exact mid_eq hused hcol fun h hh => (hplain s b h hh).trans (hunscaled h hh).symm
  · refine mid_eq hused hcol fun h hh => (hfused h hh).trans ?_
    rw [plainRoutes_eq hused hh, saturate_of_abs_le (hcut h hh)]
  · have hused' : RoutePlan.Used ({ x with rankMajor := rankMajor' } : Inputs α).plan
        ({ x with rankMajor := rankMajor' } : Inputs α).slots route slot := hused
    have hnormed : ∀ c < kHidden, ({ x with rankMajor := rankMajor' } : Inputs α).normed slot c =
        x.normed slot c := fun c hc => normed_congr rfl rfl rfl hsame hc
    have hscale : ({ x with rankMajor := rankMajor' } : Inputs α).slotScale slot =
        x.slotScale slot := routeScale_congr _ hnormed
    rw [fusedRoutes_eq hused' hh, fusedRoutes_eq hused hh, fusedScaledRoutes_eq hused' hh,
      fusedScaledRoutes_eq hused hh, fusedInverse_eq hused', fusedInverse_eq hused, hscale,
      hnormed h hh]
    exact ⟨rfl, rfl, rfl⟩

end Inputs

section Sample

theorem direct_row (plan : RoutePlan) (weights : ℕ → ℕ → ℕ → ℚ) (routes : ℕ → ℚ) (route : ℕ)
    (_ : route < plan.routes) (_ : ¬ plan.Unused route) (c : ℕ) (hc : c < kFusedN) :
    ∑ h ∈ Finset.range kHidden, routes ((route * kFusedN + c) / kFusedN * kHidden + h) *
        weights ((route * kFusedN + c) / kFusedN) ((route * kFusedN + c) % kFusedN) h =
      ∑ h ∈ Finset.range kHidden, routes (route * kHidden + h) * weights route c h := by
  rw [entry_div hc, entry_mod hc]

/-- The product, of all rows. -/
def GateUp.direct : GateUp ℚ where
  gateUp _ weights routes i :=
    ∑ h ∈ Finset.range kHidden,
      routes (i / kFusedN * kHidden + h) * weights (i / kFusedN) (i % kFusedN) h
  row_eq := direct_row

/-- Two slots and three routes, of which the last is not in use. Behind the norm the values of the
slots are four and three fifths of the weights, and the experts hand them on. -/
def fifths (weight : ℚ) : Inputs ℚ where
  rsqrtf y := if y = 25 / 16 then 4 / 5 else if y = 25 / 9 then 3 / 5 else 1000
  expf _ := 1
  eps := 1 / 1000000
  clamp := 10
  slots := 2
  plan := ⟨3, 3, fun route => if route = 0 then 1 else 0, some fun _ => 2⟩
  rankMajor i :=
    some (if i / 512 % 2 = 0 then (if i % 2 = 0 then 1 / 750 else -1 / 750) else 3 / 4000)
  normWeight h := weight / (h + 1)
  expertWeights _ c h := if h = c then 1 else 0

def emptyBuffers : Buffers ℚ :=
  ⟨fun _ => some 0, fun _ => some 0, fun _ => 0, fun _ => 0, fun _ => 0⟩

variable {weight : ℚ} {route slot h : ℕ}

theorem fifths_used (hroute : route < 2) :
    (fifths weight).plan.Used (fifths weight).slots route (1 - route) where
  lt := hroute.trans (Nat.lt_succ_self 2)
  inUse := by
    rintro ⟨-, totals, hmem, hle⟩
    obtain rfl := Option.some.inj hmem
    exact absurd hle (not_le.2 hroute)
  slot_eq := by
    show (if route = 0 then 1 else 0 : ℤ) = ((1 - route : ℕ) : ℤ)
    split_ifs <;> omega
  slot_lt := by
    show 1 - route < 2
    omega

/-- The scale of a row whose values have one magnitude. -/
theorem evenRow_scale (rsqrtf : ℚ → ℚ) (eps : ℚ) {v : ℕ → ℚ} {m : ℚ} (hm : 0 < m)
    (hv : ∀ h < kHidden, |v h| = m) :
    rowScale rsqrtf eps (fun h => some (v h)) kHidden = rsqrtf (1 + eps / (m * m)) / m := by
  have hmax : maxAbs (fun h => some (v h)) kHidden = m := by
    refine le_antisymm (maxAbs_le_iff.2 ⟨hm.le, fun h hh y hy => ?_⟩) ?_
    · obtain rfl := Option.mem_some_iff.1 hy
      exact (hv h hh).le
    · have hle := (maxAbs_le_iff.1 (le_refl (maxAbs (fun h => some (v h)) kHidden))).2 0
        Inputs.kHidden_pos (v 0) rfl
      rwa [hv 0 Inputs.kHidden_pos] at hle
  have hone : ∀ h ∈ Finset.range kHidden, v h / m * (v h / m) = 1 := by
    intro h hh
    rw [div_mul_div_comm, ← abs_mul_abs_self, hv h (Finset.mem_range.1 hh)]
    exact div_self (mul_pos hm hm).ne'
  have hsum : sumSquares m (fun h => some (v h)) kHidden = 4096 := by
    rw [sumSquares_eq hm]
    refine (Finset.sum_congr rfl hone).trans ?_
    rw [Finset.sum_const, Finset.card_range]
    norm_num [kHidden]
  unfold rowScale normScale
  rw [hmax, hsum, if_pos hm]
  norm_num [kHidden]

/-- Where the slots' values are. -/
theorem fifths_row (hslot : slot < 2) (h : ℕ) :
    (fifths weight).row slot h = some (if slot = 0 then (if h % 2 = 0 then 1 / 750 else -1 / 750)
      else 3 / 4000) := by
  have hentry : (fifths weight).shards.entry slot h =
      (h / 512 * 2 + slot) * 512 + (h - h / 512 * 512) := rfl
  have hrank : ((h / 512 * 2 + slot) * 512 + (h - h / 512 * 512)) / 512 % 2 = slot := by omega
  have hparity : ((h / 512 * 2 + slot) * 512 + (h - h / 512 * 512)) % 2 = h % 2 := by omega
  unfold Inputs.row
  rw [hentry]
  show some _ = _
  rw [hrank, hparity]

theorem fifths_normed_zero : (fifths weight).normed 0 0 = 4 / 5 * weight := by
  have hrow : (fifths weight).row 0 =
      fun h => some (if h % 2 = 0 then 1 / 750 else -1 / 750) := funext (fifths_row (by decide))
  have hscale := evenRow_scale (fifths weight).rsqrtf (fifths weight).eps
    (v := fun h => if h % 2 = 0 then 1 / 750 else -1 / 750) (m := 1 / 750) (by norm_num)
    fun h _ => by split_ifs <;> norm_num [abs_div]
  unfold Inputs.normed
  rw [hrow, hscale]
  norm_num [fifths, finite]

theorem fifths_normed_one (h : ℕ) : (fifths weight).normed 1 h = 3 / 5 * (weight / (h + 1)) := by
  have hrow : (fifths weight).row 1 = fun _ => some (3 / 4000) := funext (fifths_row (by decide))
  have hscale := evenRow_scale (fifths weight).rsqrtf (fifths weight).eps
    (v := fun _ => 3 / 4000) (m := 3 / 4000) (by norm_num) fun h _ => by norm_num
  unfold Inputs.normed
  rw [hrow, hscale]
  norm_num [fifths, finite]

theorem fifths_small (h : ℕ) : |(fifths 100).normed 1 h| ≤ 60 := by
  have hone : (1 : ℚ) ≤ h + 1 := by
    have hcast : (0 : ℚ) ≤ h := Nat.cast_nonneg h
    linarith
  have hquot : (100 : ℚ) / (h + 1) ≤ 100 := div_le_self (by norm_num) hone
  have hnonneg : (0 : ℚ) ≤ 100 / (h + 1) := div_nonneg (by norm_num) (by linarith)
  rw [fifths_normed_one, abs_of_nonneg (by linarith)]
  linarith

/-- Values of up to sixty are brought down to thirty-two. -/
theorem fifths_scale : (fifths 100).slotScale 1 = 32 / 60 := by
  have hmax : valuesMax ((fifths 100).normed 1) = 60 := by
    refine le_antisymm (valuesMax_le_iff.2 ⟨by norm_num, fun h _ => fifths_small h⟩) ?_
    · have hle := (valuesMax_le_iff.1 (le_refl (valuesMax ((fifths 100).normed 1)))).2 0
        Inputs.kHidden_pos
      rw [fifths_normed_one] at hle
      norm_num at hle
      exact hle
  unfold Inputs.slotScale routeScale kReferenceRouteInputTargetAbs
  rw [hmax]
  norm_num

/-- With weights of up to a hundred a scale is taken back, and nothing is cut. -/
theorem fifths_agrees :
    (fifths 100).fusedInverse (fun _ => Schedule.inOrder) emptyBuffers 0 = 15 / 8 ∧
      (fifths 100).fusedScaledRoutes (fun _ => Schedule.inOrder) emptyBuffers (0 * kHidden + 2) *
        (fifths 100).fusedInverse (fun _ => Schedule.inOrder) emptyBuffers 0 = 20 ∧
      (fifths 100).plainRoutes (fun _ => Schedule.reversed) emptyBuffers (0 * kHidden + 2) = 20 ∧
      (fifths 100).mid .direct (fun _ => Schedule.inOrder) emptyBuffers
          ((fifths 100).fusedScaledRoutes (fun _ => Schedule.inOrder) emptyBuffers)
          (some ((fifths 100).fusedInverse (fun _ => Schedule.inOrder) emptyBuffers))
          (0 * kMid + 5) =
        (fifths 100).mid .direct (fun _ => Schedule.reversed) emptyBuffers
          ((fifths 100).plainRoutes (fun _ => Schedule.reversed) emptyBuffers) none
          (0 * kMid + 5) := by
  have hused : (fifths 100).plan.Used (fifths 100).slots 0 1 := fifths_used (by decide)
  have hbound : ∀ h < kHidden, |(fifths 100).normed 1 h| ≤ kFp16Max :=
    fun h _ => (fifths_small h).trans (by norm_num [kFp16Max])
  have hvalue : (fifths 100).normed 1 2 = 20 := by
    rw [fifths_normed_one]
    norm_num
  obtain ⟨hpacked, hmid, -⟩ := Inputs.packing_agrees (fifths 100) .direct
    (fun _ => Schedule.inOrder) (fun _ => Schedule.reversed) emptyBuffers emptyBuffers hused
  obtain ⟨-, hplain, -, hscaled, -⟩ := hpacked 2 (by decide)
  refine ⟨?_, hscaled.trans hvalue, ?_, (hmid 5 (by decide)).2.2 hbound⟩
  · rw [Inputs.fusedInverse_eq hused, fifths_scale]
    norm_num [inverseScale]
  · rw [hplain, saturate_of_abs_le (hbound 2 (by decide)), hvalue]

/-- A value beyond the range of half precision is kept by the scaled form, and cut without it. -/
theorem fifths_cut :
    GateUp.direct.gateUp (fifths 100000).plan (fifths 100000).expertWeights
        ((fifths 100000).fusedScaledRoutes (fun _ => Schedule.inOrder) emptyBuffers)
        (1 * kFusedN + 0) *
      (fifths 100000).fusedInverse (fun _ => Schedule.inOrder) emptyBuffers 1 = 80000 ∧
    GateUp.direct.gateUp (fifths 100000).plan (fifths 100000).expertWeights
        ((fifths 100000).plainRoutes (fun _ => Schedule.inOrder) emptyBuffers)
        (1 * kFusedN + 0) = 65504 ∧
    GateUp.direct.gateUp (fifths 100000).plan (fifths 100000).expertWeights
        ((fifths 100000).fusedRoutes (fun _ => Schedule.inOrder) emptyBuffers)
        (1 * kFusedN + 0) = 65504 := by
  have hused : (fifths 100000).plan.Used (fifths 100000).slots 1 0 := fifths_used (by decide)
  have hfirst : ∀ routes : ℕ → ℚ, GateUp.direct.gateUp (fifths 100000).plan
      (fifths 100000).expertWeights routes (1 * kFusedN + 0) = routes (1 * kHidden + 0) := by
    intro routes
    have hcell : ∀ h, routes (1 * kHidden + h) * (fifths 100000).expertWeights 1 0 h =
        if h = 0 then routes (1 * kHidden + 0) else 0 := by
      intro h
      show routes (1 * kHidden + h) * (if h = 0 then 1 else 0) = _
      split_ifs with hh
      · rw [hh, mul_one]
      · exact mul_zero _
    rw [GateUp.direct.row_eq _ _ _ 1 hused.lt hused.inUse 0 (by decide)]
    simp only [hcell]
    rw [Finset.sum_ite_eq' (Finset.range kHidden) 0 fun _ => routes (1 * kHidden + 0),
      if_pos (Finset.mem_range.2 Inputs.kHidden_pos)]
  have hcut : f32ToHalfSaturate (some ((fifths 100000).normed 0 0)) = 65504 := by
    rw [fifths_normed_zero]
    norm_num [f32ToHalfSaturate, kFp16Max]
  rw [hfirst, hfirst, hfirst, Inputs.plainRoutes_eq hused Inputs.kHidden_pos,
    Inputs.fusedRoutes_eq hused Inputs.kHidden_pos,
    Inputs.fusedScaledRoutes_eq hused Inputs.kHidden_pos, Inputs.fusedInverse_eq hused]
  refine ⟨?_, hcut, hcut⟩
  refine (scaled_mul_inverse Inputs.kHidden_pos).trans ?_
  rw [fifths_normed_zero]
  norm_num

end Sample

end Ds4.RouteInput
