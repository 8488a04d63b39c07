import Ds4.Context.KvPlan
import Ds4.Parts.Tile

/-! The derived plan is a layout: its views tile the regions of the stage arenas. -/
namespace Ds4.Context
open Parts

section Arithmetic
variable {a b n : ℕ}

theorem satAdd_eq (h : a + b ≤ maxU64) : satAdd a b = a + b := by
  rw [satAdd, if_neg]
  omega

theorem satMul_eq (h : a * b ≤ maxU64) : satMul a b = a * b := by
  rw [satMul, if_neg]
  rintro ⟨ha, hb⟩
  rw [Nat.div_lt_iff_lt_mul (Nat.pos_of_ne_zero ha), Nat.mul_comm b a] at hb
  omega

/-- The next multiple of 256. -/
def up256 (n : ℕ) : ℕ := (n + 255) / 256 * 256

theorem le_up256 (n : ℕ) : n ≤ up256 n := by
  rw [up256]
  omega

theorem up256_mod (n : ℕ) : up256 n % 256 = 0 := Nat.mul_mod_left _ _

/-- The mask clears the last byte. -/
theorem and_mask (h : n ≤ maxU64) : n &&& (maxU64 ^^^ 255) = n / 256 * 256 := by
  have hn : n < 2 ^ 64 := by
    rw [maxU64] at h
    omega
  apply Nat.eq_of_testBit_eq
  intro i
  have hmask : (255 : ℕ) = 2 ^ 8 - 1 := rfl
  have hmul : n / 256 * 256 = (n >>> 8) <<< 8 := by
    rw [Nat.shiftRight_eq_div_pow, Nat.shiftLeft_eq]
  rw [hmul, hmask, maxU64, Nat.testBit_and, Nat.testBit_xor, Nat.testBit_two_pow_sub_one,
    Nat.testBit_two_pow_sub_one, Nat.testBit_shiftLeft, Nat.testBit_shiftRight]
  by_cases hi : i < 8
  · have hi64 : i < 64 := by omega
    simp [hi, hi64]
  · by_cases hi64 : i < 64
    · have hge : 8 ≤ i := by omega
      simp [hi, hi64, hge]
    · have hzero : n.testBit i = false := by
        apply Nat.testBit_lt_two_pow
        exact lt_of_lt_of_le hn (Nat.pow_le_pow_right (by norm_num) (not_lt.1 hi64))
      have hge : 8 ≤ i := by omega
      simp [hzero, hge]

theorem alignUp_eq (h : up256 n ≤ maxU64) : alignUp n 256 = up256 n := by
  have hle : n + 255 ≤ maxU64 := by
    rw [up256] at h
    rw [maxU64] at h ⊢
    omega
  rw [alignUp, if_neg (by norm_num), if_neg (by decide), if_neg (by omega)]
  exact and_mask hle

theorem alignUp_satAdd (h : up256 (a + b) ≤ maxU64) : alignUp (satAdd a b) 256 = up256 (a + b) := by
  rw [satAdd_eq ((le_up256 _).trans h), alignUp_eq h]

end Arithmetic

/-! The exact sizes, without a bound. -/
inductive Region
  | raw
  | comp
  | index
  | state
  deriving DecidableEq

def Region.all : List Region := [.raw, .comp, .index, .state]

section Exact
variable (ctxTokens slots : ℕ)

/-- What a layer puts into each region. -/
def viewSizes (layer : ℕ) : Region → List ℕ
  | .raw => [swaRows * headDim * 2 * slots]
  | .comp =>
      match layerClassForLayer layer with
      | .swaOnly => [0]
      | .ratio4 => [ctxTokens / 4 * (headDim * 2) * slots]
      | .ratio128 => [ctxTokens / 128 * (headDim * 2) * slots]
  | .index =>
      match layerClassForLayer layer with
      | .ratio4 => [ctxTokens / 4 * (indexerHeadDim * 2) * slots]
      | _ => [0]
  | .state =>
      let split := kvStateSplitForLayer layer
      [split.attnKv, split.attnScore, split.indexerKv, split.indexerScore]

def onStage (stage : ℕ) (layers : List ℕ) : List ℕ :=
  layers.filter fun layer => stageForLayer layer = stage

/-- The sizes in a region of a stage, layer by layer. -/
def stageSizes (layers : List ℕ) (stage : ℕ) (r : Region) : List ℕ :=
  (onStage stage layers).flatMap fun layer => viewSizes ctxTokens slots layer r

def regionBytes (stage : ℕ) (r : Region) : ℕ :=
  (stageSizes ctxTokens slots (List.range nLayers) stage r).sum

def regionOffset (stage : ℕ) : Region → ℕ
  | .raw => 0
  | .comp => up256 (regionBytes ctxTokens slots stage .raw)
  | .index => up256 (up256 (regionBytes ctxTokens slots stage .raw) +
      regionBytes ctxTokens slots stage .comp)
  | .state => up256 (up256 (up256 (regionBytes ctxTokens slots stage .raw) +
      regionBytes ctxTokens slots stage .comp) + regionBytes ctxTokens slots stage .index)

def arenaBytes (stage : ℕ) : ℕ :=
  up256 (regionOffset ctxTokens slots stage .state + regionBytes ctxTokens slots stage .state)

/-- No size of the plan exceeds 64 bits. -/
def SizesFit : Prop := ∀ stage < expectedGpus, arenaBytes ctxTokens slots stage ≤ maxU64

end Exact

/-! Reading the plan region by region. -/
def KvBudget.at (b : KvBudget) : Region → ℕ
  | .raw => b.rawSwaBytes
  | .comp => b.compressedAttnBytes
  | .index => b.indexerKvBytes
  | .state => b.compressionStateBytes

def StageSums.at (s : StageSums) : Region → ℕ
  | .raw => s.rawSwaBytes
  | .comp => s.compressedAttnBytes
  | .index => s.indexerBytes
  | .state => s.compressionStateBytes

def Cursors.at (c : Cursors) : Region → ℕ
  | .raw => c.raw
  | .comp => c.comp
  | .index => c.index
  | .state => c.state

def KvArena.region (a : KvArena) : Region → Extent
  | .raw => ⟨a.rawSwaOffset, a.rawSwaBytes⟩
  | .comp => ⟨a.compressedAttnOffset, a.compressedAttnBytes⟩
  | .index => ⟨a.indexerKvOffset, a.indexerKvBytes⟩
  | .state => ⟨a.compressionStateOffset, a.compressionStateBytes⟩

def LayerKvView.parts (v : LayerKvView) : Region → List Extent
  | .raw => [⟨v.rawSwaOffset, v.rawSwaBytes⟩]
  | .comp => [⟨v.compressedAttnOffset, v.compressedAttnBytes⟩]
  | .index => [⟨v.indexerKvOffset, v.indexerKvBytes⟩]
  | .state => [⟨v.attnStateKvOffset, v.attnStateKvBytes⟩,
      ⟨v.attnStateScoreOffset, v.attnStateScoreBytes⟩,
      ⟨v.indexerStateKvOffset, v.indexerStateKvBytes⟩,
      ⟨v.indexerStateScoreOffset, v.indexerStateScoreBytes⟩]

/-- The views of a stage's layers in a region, layer by layer. -/
def stageViews (layers : List ℕ) (views : List LayerKvView) (stage : ℕ) (r : Region) :
    List Extent :=
  ((layers.zip views).filter fun x => stageForLayer x.1 = stage).flatMap fun x => x.2.parts r

section Passes
variable {ctxTokens slots : ℕ}

theorem stageForLayer_lt (layer : ℕ) : stageForLayer layer < expectedGpus := by
  rw [stageForLayer, expectedGpus]
  split_ifs <;> norm_num

theorem onStage_cons (stage layer : ℕ) (layers : List ℕ) :
    onStage stage (layer :: layers) =
      if stageForLayer layer = stage then layer :: onStage stage layers
      else onStage stage layers := by
  by_cases h : stageForLayer layer = stage <;> simp [onStage, h]

theorem stageSizes_cons (stage layer : ℕ) (layers : List ℕ) (r : Region) :
    stageSizes ctxTokens slots (layer :: layers) stage r =
      if stageForLayer layer = stage then
        viewSizes ctxTokens slots layer r ++ stageSizes ctxTokens slots layers stage r
      else stageSizes ctxTokens slots layers stage r := by
  rw [stageSizes, onStage_cons]
  by_cases h : stageForLayer layer = stage
  · rw [if_pos h, if_pos h]
    rfl
  · rw [if_neg h, if_neg h]
    rfl

theorem region_end_le (stage : ℕ) (r : Region) :
    regionOffset ctxTokens slots stage r + regionBytes ctxTokens slots stage r ≤
      arenaBytes ctxTokens slots stage := by
  have h₁ := le_up256 (regionBytes ctxTokens slots stage .raw)
  have h₂ := le_up256 (up256 (regionBytes ctxTokens slots stage .raw) +
    regionBytes ctxTokens slots stage .comp)
  have h₃ := le_up256 (up256 (up256 (regionBytes ctxTokens slots stage .raw) +
    regionBytes ctxTokens slots stage .comp) + regionBytes ctxTokens slots stage .index)
  have h₄ := le_up256 (regionOffset ctxTokens slots stage .state +
    regionBytes ctxTokens slots stage .state)
  rw [arenaBytes]
  cases r <;> simp only [regionOffset] at h₄ ⊢ <;> omega

/-- A layer's share of a region fits. -/
theorem viewSizes_le (hfit : SizesFit ctxTokens slots) {layer : ℕ} (hl : layer < nLayers)
    (r : Region) : (viewSizes ctxTokens slots layer r).sum ≤ maxU64 := by
  have hmem : layer ∈ onStage (stageForLayer layer) (List.range nLayers) := by
    simp [onStage, hl]
  have hle : (viewSizes ctxTokens slots layer r).sum ≤
      regionBytes ctxTokens slots (stageForLayer layer) r := by
    obtain ⟨s, t, hst⟩ := List.append_of_mem hmem
    rw [regionBytes, stageSizes, hst]
    simp
    omega
  have hend := @region_end_le ctxTokens slots (stageForLayer layer) r
  have htotal := hfit _ (stageForLayer_lt layer)
  omega

/-- Two products of the budget, neither of which saturates. -/
theorem satMul_satMul {a b n : ℕ} (hn : n ≠ 0) (h : a * b * n ≤ maxU64) :
    satMul (satMul a b) n = a * b * n := by
  have hinner : a * b ≤ maxU64 := (Nat.le_mul_of_pos_right _ (Nat.pos_of_ne_zero hn)).trans h
  rw [satMul_eq hinner, satMul_eq h]

/-- The budget is what the views need. -/
theorem budget_at (hfit : SizesFit ctxTokens slots) (hctx : ctxTokens ≠ 0) (hslots : slots ≠ 0)
    {layer : ℕ} (hl : layer < nLayers) (r : Region) :
    (kvBudgetForLayer layer ctxTokens slots).at r = (viewSizes ctxTokens slots layer r).sum := by
  have hused : ¬ (nLayers ≤ layer ∨ ctxTokens = 0 ∨ slots = 0) := by omega
  have hraw : satMul (swaRows * headDim * 2) slots = swaRows * headDim * 2 * slots := by
    have h := viewSizes_le hfit hl .raw
    simp only [viewSizes, List.sum_cons, List.sum_nil, Nat.add_zero] at h
    exact satMul_eq h
  have hcomp := viewSizes_le hfit hl .comp
  have hindex := viewSizes_le hfit hl .index
  rw [kvBudgetForLayer, if_neg hused]
  simp only [viewSizes] at hcomp hindex
  cases hclass : layerClassForLayer layer with
  | swaOnly =>
    cases r <;>
      simp [KvBudget.withTotal, KvBudget.at, viewSizes, kvStateSplitForLayer, hclass, hraw]
  | ratio4 =>
    rw [hclass] at hcomp hindex
    simp only [List.sum_cons, List.sum_nil, Nat.add_zero] at hcomp hindex
    cases r with
    | raw => simp [KvBudget.withTotal, KvBudget.at, viewSizes, hraw]
    | comp =>
      simp only [KvBudget.withTotal, KvBudget.at, viewSizes, hclass, List.sum_cons, List.sum_nil,
        Nat.add_zero]
      exact satMul_satMul hslots hcomp
    | index =>
      simp only [KvBudget.withTotal, KvBudget.at, viewSizes, hclass, List.sum_cons, List.sum_nil,
        Nat.add_zero]
      exact satMul_satMul hslots hindex
    | state =>
      simp only [KvBudget.withTotal, KvBudget.at, viewSizes, kvStateSplitForLayer, hclass]
      decide
  | ratio128 =>
    rw [hclass] at hcomp
    simp only [List.sum_cons, List.sum_nil, Nat.add_zero] at hcomp
    cases r with
    | raw => simp [KvBudget.withTotal, KvBudget.at, viewSizes, hraw]
    | comp =>
      simp only [KvBudget.withTotal, KvBudget.at, viewSizes, hclass, List.sum_cons, List.sum_nil,
        Nat.add_zero]
      exact satMul_satMul hslots hcomp
    | index => simp [KvBudget.withTotal, KvBudget.at, viewSizes, hclass]
    | state =>
      have hsplit : viewSizes ctxTokens slots layer .state =
          [headDim * 128 * sizeofFloat, headDim * 128 * sizeofFloat, 0, 0] := by
        simp only [viewSizes, kvStateSplitForLayer, hclass]
      rw [hsplit]
      rfl

theorem addBudget_at (sums : ℕ → StageSums) (layer stage : ℕ) (r : Region) :
    (addBudget ctxTokens slots sums layer stage).at r =
      if stageForLayer layer = stage then
        satAdd ((sums stage).at r) ((kvBudgetForLayer layer ctxTokens slots).at r)
      else (sums stage).at r := by
  by_cases h : stageForLayer layer = stage
  · subst h
    rw [if_pos rfl, addBudget, Function.update_self]
    cases r <;> rfl
  · rw [if_neg h, addBudget, Function.update_of_ne (Ne.symm h)]

/-- The first pass adds up what the views of each stage need. -/
theorem foldl_addBudget (hfit : SizesFit ctxTokens slots) (hctx : ctxTokens ≠ 0)
    (hslots : slots ≠ 0) (stage : ℕ) (r : Region) (layers : List ℕ) : ∀ sums : ℕ → StageSums,
    (∀ layer ∈ layers, layer < nLayers) →
    (sums stage).at r + (stageSizes ctxTokens slots layers stage r).sum ≤ maxU64 →
    ((layers.foldl (addBudget ctxTokens slots) sums) stage).at r =
      (sums stage).at r + (stageSizes ctxTokens slots layers stage r).sum := by
  induction layers with
  | nil =>
    intro sums _ _
    rfl
  | cons layer layers ih =>
    intro sums hl hle
    have hbudget := budget_at hfit hctx hslots (hl layer List.mem_cons_self) r
    have hrest : ∀ l ∈ layers, l < nLayers := fun l h => hl l (List.mem_cons_of_mem _ h)
    have hat := @addBudget_at ctxTokens slots sums layer stage r
    rw [stageSizes_cons] at hle ⊢
    rw [List.foldl_cons]
    by_cases h : stageForLayer layer = stage
    · rw [if_pos h, List.sum_append] at hle ⊢
      rw [if_pos h, hbudget, satAdd_eq (by omega)] at hat
      rw [ih _ hrest (by rw [hat]; omega), hat]
      omega
    · rw [if_neg h] at hle ⊢
      rw [if_neg h] at hat
      rw [ih _ hrest (by rw [hat]; exact hle), hat]

theorem stageSums_at (hfit : SizesFit ctxTokens slots) (hctx : ctxTokens ≠ 0) (hslots : slots ≠ 0)
    {stage : ℕ} (hs : stage < expectedGpus) (r : Region) :
    (stageSums ctxTokens slots stage).at r = regionBytes ctxTokens slots stage r := by
  have hend := @region_end_le ctxTokens slots stage r
  have htotal := hfit stage hs
  have hzero : ((fun _ => {} : ℕ → StageSums) stage).at r = 0 := by cases r <;> rfl
  rw [stageSums, foldl_addBudget hfit hctx hslots, hzero, Nat.zero_add]
  · rfl
  · exact fun layer h => List.mem_range.1 h
  · rw [hzero, Nat.zero_add]
    have hle : (stageSizes ctxTokens slots (List.range nLayers) stage r).sum =
      regionBytes ctxTokens slots stage r := rfl
    omega

/-- The second pass places the regions. -/
theorem stageKv_region (hfit : SizesFit ctxTokens slots) (hctx : ctxTokens ≠ 0)
    (hslots : slots ≠ 0) {stage : ℕ} (hs : stage < expectedGpus) :
    (∀ r, (stageKv ctxTokens slots stage).arena.region r =
      ⟨regionOffset ctxTokens slots stage r, regionBytes ctxTokens slots stage r⟩) ∧
    (stageKv ctxTokens slots stage).arena.totalBytes = arenaBytes ctxTokens slots stage := by
  have hraw := stageSums_at hfit hctx hslots hs .raw
  have hcomp := stageSums_at hfit hctx hslots hs .comp
  have hindex := stageSums_at hfit hctx hslots hs .index
  have hstate := stageSums_at hfit hctx hslots hs .state
  simp only [StageSums.at] at hraw hcomp hindex hstate
  have htotal := hfit stage hs
  have hle := le_up256 (regionOffset ctxTokens slots stage .state +
    regionBytes ctxTokens slots stage .state)
  have hindexOff := le_up256 (up256 (up256 (regionBytes ctxTokens slots stage .raw) +
    regionBytes ctxTokens slots stage .comp) + regionBytes ctxTokens slots stage .index)
  have hcompOff := le_up256 (up256 (regionBytes ctxTokens slots stage .raw) +
    regionBytes ctxTokens slots stage .comp)
  rw [arenaBytes] at htotal
  simp only [regionOffset] at htotal hle
  have h₁ : alignUp (satAdd 0 (regionBytes ctxTokens slots stage .raw)) 256 =
      up256 (regionBytes ctxTokens slots stage .raw) := by
    rw [alignUp_satAdd, Nat.zero_add]
    rw [Nat.zero_add]
    omega
  have h₂ : alignUp (satAdd (up256 (regionBytes ctxTokens slots stage .raw))
      (regionBytes ctxTokens slots stage .comp)) 256 =
      up256 (up256 (regionBytes ctxTokens slots stage .raw) +
        regionBytes ctxTokens slots stage .comp) := alignUp_satAdd (by omega)
  have h₃ := alignUp_satAdd (a := up256 (up256 (regionBytes ctxTokens slots stage .raw) +
    regionBytes ctxTokens slots stage .comp)) (b := regionBytes ctxTokens slots stage .index)
    (by omega)
  have h₄ := alignUp_satAdd htotal
  constructor
  · intro r
    cases r <;>
      simp only [stageKv, layoutStage, KvArena.region, regionOffset, hraw, hcomp, hindex, hstate,
        h₁, h₂, h₃]
  · simp only [stageKv, layoutStage, hraw, hcomp, hindex, hstate, h₁, h₂, h₃, h₄, arenaBytes,
      regionOffset]

/-- One layer's views stand behind each other at the cursors of its stage. -/
theorem layerView_parts (hfit : SizesFit ctxTokens slots) (hctx : ctxTokens ≠ 0)
    (hslots : slots ≠ 0) {layer : ℕ} (hl : layer < nLayers) (arena : KvArena) (cur : Cursors)
    (r : Region) (hle : (arena.region r).off + cur.at r +
      (viewSizes ctxTokens slots layer r).sum ≤ maxU64) :
    (layerView arena cur (kvBudgetForLayer layer ctxTokens slots)
      (kvStateSplitForLayer layer)).parts r =
      tile ((arena.region r).off + cur.at r) (viewSizes ctxTokens slots layer r) := by
  have hbudget := budget_at hfit hctx hslots hl r
  cases r with
  | raw =>
    simp only [KvArena.region, Cursors.at, viewSizes, List.sum_cons, List.sum_nil, Nat.add_zero,
      KvBudget.at] at hle hbudget
    simp only [layerView, LayerKvView.parts, viewSizes, tile, KvArena.region, Cursors.at, hbudget]
    rw [satAdd_eq (by omega)]
  | comp =>
    have hone : viewSizes ctxTokens slots layer .comp =
        [(viewSizes ctxTokens slots layer .comp).sum] := by
      simp only [viewSizes]
      cases layerClassForLayer layer <;> simp
    rw [hone, ← hbudget] at *
    simp only [KvArena.region, Cursors.at] at hle
    simp only [layerView, LayerKvView.parts, tile, KvArena.region, Cursors.at, KvBudget.at]
    rw [satAdd_eq (by omega)]
  | index =>
    have hone : viewSizes ctxTokens slots layer .index =
        [(viewSizes ctxTokens slots layer .index).sum] := by
      simp only [viewSizes]
      cases layerClassForLayer layer <;> simp
    rw [hone, ← hbudget] at *
    simp only [KvArena.region, Cursors.at] at hle
    simp only [layerView, LayerKvView.parts, tile, KvArena.region, Cursors.at, KvBudget.at]
    rw [satAdd_eq (by omega)]
  | state =>
    simp only [KvArena.region, Cursors.at, viewSizes, List.sum_cons, List.sum_nil,
      Nat.add_zero] at hle
    simp only [layerView, LayerKvView.parts, viewSizes, tile, KvArena.region, Cursors.at]
    have h₁ : satAdd cur.state (kvStateSplitForLayer layer).attnKv =
        cur.state + (kvStateSplitForLayer layer).attnKv := satAdd_eq (by omega)
    rw [h₁, satAdd_eq (a := cur.state + _) (by omega),
      satAdd_eq (a := cur.state + _ + _) (by omega),
      satAdd_eq (by omega), satAdd_eq (by omega), satAdd_eq (by omega), satAdd_eq (by omega)]
    simp only [Nat.add_assoc]

theorem moveCursors_at (hfit : SizesFit ctxTokens slots) (hctx : ctxTokens ≠ 0)
    (hslots : slots ≠ 0) {layer : ℕ} (hl : layer < nLayers) (cur : Cursors)
    (r : Region) (hle : cur.at r + (viewSizes ctxTokens slots layer r).sum ≤ maxU64) :
    (moveCursors cur (kvBudgetForLayer layer ctxTokens slots) (kvStateSplitForLayer layer)).at r =
      cur.at r + (viewSizes ctxTokens slots layer r).sum := by
  have hbudget := budget_at hfit hctx hslots hl r
  cases r with
  | raw =>
    rw [← hbudget] at hle ⊢
    exact satAdd_eq hle
  | comp =>
    rw [← hbudget] at hle ⊢
    exact satAdd_eq hle
  | index =>
    rw [← hbudget] at hle ⊢
    exact satAdd_eq hle
  | state =>
    simp only [Cursors.at, viewSizes, List.sum_cons, List.sum_nil, Nat.add_zero] at hle ⊢
    simp only [moveCursors]
    have h₁ : satAdd cur.state (kvStateSplitForLayer layer).attnKv =
        cur.state + (kvStateSplitForLayer layer).attnKv := satAdd_eq (by omega)
    rw [h₁, satAdd_eq (a := cur.state + _) (by omega),
      satAdd_eq (a := cur.state + _ + _) (by omega), satAdd_eq (by omega)]
    omega

theorem stageViews_cons (layer : ℕ) (layers : List ℕ) (v : LayerKvView) (vs : List LayerKvView)
    (stage : ℕ) (r : Region) :
    stageViews (layer :: layers) (v :: vs) stage r =
      if stageForLayer layer = stage then v.parts r ++ stageViews layers vs stage r
      else stageViews layers vs stage r := by
  by_cases h : stageForLayer layer = stage <;> simp [stageViews, h]

/-- The third pass lays the views of each stage end to end. -/
theorem foldl_placeLayer (hfit : SizesFit ctxTokens slots) (hctx : ctxTokens ≠ 0)
    (hslots : slots ≠ 0) (layers : List ℕ) : ∀ (vs : List LayerKvView) (cur : ℕ → Cursors),
    (∀ layer ∈ layers, layer < nLayers) →
    (∀ stage < expectedGpus, ∀ r, regionOffset ctxTokens slots stage r + (cur stage).at r +
      (stageSizes ctxTokens slots layers stage r).sum ≤ maxU64) →
    ∃ ws : List LayerKvView,
      (layers.foldl (placeLayer ctxTokens slots) (vs, cur)).1 = vs ++ ws ∧
      ws.length = layers.length ∧
      ∀ stage < expectedGpus, ∀ r, stageViews layers ws stage r =
        tile (regionOffset ctxTokens slots stage r + (cur stage).at r)
          (stageSizes ctxTokens slots layers stage r) := by
  induction layers with
  | nil =>
    intro vs cur _ _
    exact ⟨[], (List.append_nil _).symm, rfl, fun _ _ _ => rfl⟩
  | cons layer layers ih =>
    intro vs cur hl hle
    have hlayer := hl layer List.mem_cons_self
    have hstage := stageForLayer_lt layer
    have hregion := (stageKv_region hfit hctx hslots hstage).1
    have hown : ∀ r, regionOffset ctxTokens slots (stageForLayer layer) r +
        (cur (stageForLayer layer)).at r + (viewSizes ctxTokens slots layer r).sum +
        (stageSizes ctxTokens slots layers (stageForLayer layer) r).sum ≤ maxU64 := by
      intro r
      have h := hle _ hstage r
      rw [stageSizes_cons, if_pos rfl, List.sum_append] at h
      omega
    have hmove : ∀ r, (moveCursors (cur (stageForLayer layer))
        (kvBudgetForLayer layer ctxTokens slots) (kvStateSplitForLayer layer)).at r =
        (cur (stageForLayer layer)).at r + (viewSizes ctxTokens slots layer r).sum := by
      intro r
      have h := hown r
      exact moveCursors_at hfit hctx hslots hlayer _ r (by omega)
    obtain ⟨ws, hfold, hlen, htile⟩ := ih
      (vs ++ [layerView (stageKv ctxTokens slots (stageForLayer layer)).arena
        (cur (stageForLayer layer)) (kvBudgetForLayer layer ctxTokens slots)
        (kvStateSplitForLayer layer)])
      (Function.update cur (stageForLayer layer) (moveCursors (cur (stageForLayer layer))
        (kvBudgetForLayer layer ctxTokens slots) (kvStateSplitForLayer layer)))
      (fun l h => hl l (List.mem_cons_of_mem _ h)) (by
        intro stage hs r
        by_cases h : stageForLayer layer = stage
        · subst h
          have hown' := hown r
          rw [Function.update_self, hmove]
          omega
        · have h' := hle stage hs r
          rw [stageSizes_cons, if_neg h] at h'
          rwa [Function.update_of_ne (Ne.symm h)])
    refine ⟨layerView (stageKv ctxTokens slots (stageForLayer layer)).arena
      (cur (stageForLayer layer)) (kvBudgetForLayer layer ctxTokens slots)
      (kvStateSplitForLayer layer) :: ws, ?_, ?_, ?_⟩
    · rw [List.foldl_cons, List.append_cons]
      exact hfold
    · rw [List.length_cons, hlen, List.length_cons]
    · intro stage hs r
      have hrest := htile stage hs r
      rw [stageViews_cons, stageSizes_cons, hrest]
      by_cases h : stageForLayer layer = stage
      · subst h
        have hown' := hown r
        have hparts := layerView_parts hfit hctx hslots hlayer
          (stageKv ctxTokens slots (stageForLayer layer)).arena (cur (stageForLayer layer)) r
          (by rw [hregion]; simp only; omega)
        rw [hregion] at hparts
        rw [if_pos rfl, if_pos rfl, hparts, Function.update_self, hmove, tile_append,
          Nat.add_assoc]
      · rw [if_neg h, if_neg h, Function.update_of_ne (Ne.symm h)]

end Passes

/-- The views of a stage, kind by kind. -/
def KvPlan.stageExtents (p : KvPlan) (stage : ℕ) : List Extent :=
  Region.all.flatMap (stageViews (List.range nLayers) p.views stage)

/-- The views of all layers lie apart in the regions of their kind, and the aligned regions
apart in the stage arena; nothing of a region is left over. -/
structure KvPlan.Layout (p : KvPlan) : Prop where
  views_length : p.views.length = nLayers
  planned : ∀ stage < expectedGpus,
    (p.stages stage).plannedKvBytes = (p.stages stage).arena.totalBytes
  aligned : ∀ stage < expectedGpus, ∀ r, ((p.stages stage).arena.region r).off % 256 = 0
  regions_inside : ∀ stage < expectedGpus, ∀ r,
    ((p.stages stage).arena.region r).Inside ⟨0, (p.stages stage).arena.totalBytes⟩
  regions_apart : ∀ stage < expectedGpus, ∀ r r', r ≠ r' →
    ((p.stages stage).arena.region r).Apart ((p.stages stage).arena.region r')
  views_inside : ∀ x ∈ (List.range nLayers).zip p.views, ∀ r, ∀ e ∈ x.2.parts r,
    e.Inside ((p.stages (stageForLayer x.1)).arena.region r)
  views_apart : ∀ stage < expectedGpus, (p.stageExtents stage).Pairwise Extent.Apart
  covered : ∀ stage < expectedGpus, ∀ r x, ((p.stages stage).arena.region r).Has x ↔
    ∃ e ∈ stageViews (List.range nLayers) p.views stage r, e.Has x

section Layout
variable {ctxTokens slots : ℕ}

theorem regionOffset_mod (stage : ℕ) (r : Region) :
    regionOffset ctxTokens slots stage r % 256 = 0 := by
  cases r with
  | raw => rfl
  | comp => exact up256_mod _
  | index => exact up256_mod _
  | state => exact up256_mod _

/-- The regions stand one behind the other. -/
theorem regions_ordered (stage : ℕ) : Region.all.Pairwise fun r r' =>
    regionOffset ctxTokens slots stage r + regionBytes ctxTokens slots stage r ≤
      regionOffset ctxTokens slots stage r' := by
  have h₁ := le_up256 (regionBytes ctxTokens slots stage .raw)
  have h₂ := le_up256 (up256 (regionBytes ctxTokens slots stage .raw) +
    regionBytes ctxTokens slots stage .comp)
  have h₃ := le_up256 (up256 (up256 (regionBytes ctxTokens slots stage .raw) +
    regionBytes ctxTokens slots stage .comp) + regionBytes ctxTokens slots stage .index)
  simp only [Region.all, List.pairwise_cons, List.mem_cons, List.not_mem_nil, or_false,
    forall_eq_or_imp, forall_eq, regionOffset, List.Pairwise.nil, and_true, IsEmpty.forall_iff,
    implies_true]
  omega

theorem Region.mem_all (r : Region) : r ∈ Region.all := by
  cases r <;> simp [Region.all]

/-- Every plan whose sizes fit is a layout. -/
theorem layerViews_layout (hfit : SizesFit ctxTokens slots) (hctx : ctxTokens ≠ 0)
    (hslots : slots ≠ 0) :
    KvPlan.Layout ⟨fun layer => kvBudgetForLayer layer ctxTokens slots,
      stageKv ctxTokens slots, layerViews ctxTokens slots⟩ := by
  have hzero : ∀ r, (({} : Cursors)).at r = 0 := by
    intro r
    cases r <;> rfl
  obtain ⟨ws, hfold, hlen, htile⟩ := foldl_placeLayer hfit hctx hslots (List.range nLayers) []
    (fun _ => {}) (fun _ h => List.mem_range.1 h) (by
      intro stage hs r
      have hend := @region_end_le ctxTokens slots stage r
      have htotal := hfit stage hs
      have hle : (stageSizes ctxTokens slots (List.range nLayers) stage r).sum =
        regionBytes ctxTokens slots stage r := rfl
      rw [hzero]
      omega)
  have hviews : layerViews ctxTokens slots = ws := hfold
  have hkv (stage : ℕ) (hs : stage < expectedGpus) := stageKv_region hfit hctx hslots hs
  have htiled : ∀ stage < expectedGpus, ∀ r, stageViews (List.range nLayers) ws stage r =
      tile (regionOffset ctxTokens slots stage r)
        (stageSizes ctxTokens slots (List.range nLayers) stage r) := by
    intro stage hs r
    rw [htile stage hs r, hzero, Nat.add_zero]
  have hinside : ∀ stage < expectedGpus, ∀ r,
      ∀ e ∈ stageViews (List.range nLayers) ws stage r, e.Inside
        ⟨regionOffset ctxTokens slots stage r, regionBytes ctxTokens slots stage r⟩ := by
    intro stage hs r e he
    rw [htiled stage hs r] at he
    exact tile_inside _ _ he
  have hordered (stage : ℕ) : Region.all.Pairwise fun r r' => Extent.Apart
      ⟨regionOffset ctxTokens slots stage r, regionBytes ctxTokens slots stage r⟩
      ⟨regionOffset ctxTokens slots stage r', regionBytes ctxTokens slots stage r'⟩ :=
    (regions_ordered stage).imp Extent.apart_of_le
  constructor
  case views_length =>
    rw [hviews, hlen, List.length_range]
  case planned =>
    intro stage _
    rfl
  case aligned =>
    intro stage hs r
    rw [(hkv stage hs).1]
    exact regionOffset_mod stage r
  case regions_inside =>
    intro stage hs r
    rw [(hkv stage hs).1, (hkv stage hs).2]
    have hend := @region_end_le ctxTokens slots stage r
    exact ⟨Nat.zero_le _, by simpa using hend⟩
  case regions_apart =>
    intro stage hs r r' hne
    rw [(hkv stage hs).1, (hkv stage hs).1]
    have hsymm : Std.Symm fun r r' => Extent.Apart
        ⟨regionOffset ctxTokens slots stage r, regionBytes ctxTokens slots stage r⟩
        ⟨regionOffset ctxTokens slots stage r', regionBytes ctxTokens slots stage r'⟩ :=
      ⟨fun _ _ h => h.symm⟩
    exact (hordered stage).forall r.mem_all r'.mem_all hne
  case views_inside =>
    intro x hx r e he
    rw [(hkv _ (stageForLayer_lt x.1)).1]
    apply hinside _ (stageForLayer_lt x.1)
    rw [stageViews]
    rw [hviews] at hx
    exact List.mem_flatMap.2 ⟨x, List.mem_filter.2 ⟨hx, by simp⟩, he⟩
  case views_apart =>
    intro stage hs
    rw [KvPlan.stageExtents, hviews, List.pairwise_flatMap]
    constructor
    · intro r _
      rw [htiled stage hs r]
      exact tile_apart _ _
    · apply (hordered stage).imp
      intro r r' hapart e he e' he'
      exact hapart.mono (hinside stage hs r e he) (hinside stage hs r' e' he')
  case covered =>
    intro stage hs r x
    rw [(hkv stage hs).1, hviews, htiled stage hs r]
    exact tile_cover _ _

/-- The plan that an opened context derives is a layout, for every context length and slot
count whose sizes fit in 64 bits. -/
theorem openPlan_layout (o : KvOptions) (plan : KvPlan)
    (hfit : SizesFit o.kvCtxTokens o.kvActiveSlots) (hopen : openPlan o = .ok (some plan)) :
    plan.Layout := by
  rw [openPlan] at hopen
  cases herror : o.error with
  | some e =>
    rw [herror] at hopen
    cases hopen
  | none =>
    rw [herror, applyDerivedKvPlan] at hopen
    by_cases hctx : o.kvCtxTokens = 0
    · rw [if_pos hctx] at hopen
      cases hopen
    · have hslots : o.kvActiveSlots ≠ 0 := by
        intro hslots
        rw [KvOptions.error, if_pos ⟨hctx, hslots⟩] at herror
        cases herror
      rw [if_neg hctx] at hopen
      cases hopen
      exact layerViews_layout hfit hctx hslots

/-- A context of 8192 tokens with two slots. -/
def twoSlotOptions : KvOptions := ⟨8192, 2, 0, by norm_num, by norm_num⟩

theorem twoSlots_fit : SizesFit 8192 2 := by
  have h : ∀ stage < 8, arenaBytes 8192 2 stage ≤ maxU64 := by decide
  exact h

theorem twoSlotPlan_layout :
    (KvPlan.mk (fun layer => kvBudgetForLayer layer 8192 2) (stageKv 8192 2)
      (layerViews 8192 2)).Layout :=
  openPlan_layout twoSlotOptions _ twoSlots_fit rfl

end Layout

end Ds4.Context
