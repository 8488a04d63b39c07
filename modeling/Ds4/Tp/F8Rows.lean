import Ds4.Engine.Constants
import Ds4.Tp.F8Nearest
import Ds4.Tp.Words
import Ds4.Parts.Rows
import Ds4.Parts.Warp
import Mathlib.Data.Int.ConditionallyCompleteOrder
import Mathlib.Data.Rat.Floor

/-! Rows of KV values in F8 on eight GPUs: each byte of a row is on one of them, and a row that is
stored and loaded has its values by the formats of its blocks. -/
namespace Ds4.Tp.F8
open Ds4.Parts

def kHeadDim : ℕ := 512
def kIndexerHeadDim : ℕ := 128

/-- Where a row is on each GPU. -/
structure RowView where
  offset : ℕ → ℕ
  logicalCols : ℕ
  cols_eq : logicalCols = kHeadDim ∨ logicalCols = kIndexerHeadDim

namespace RowView

/-- `kv_values_bytes` of the row. -/
def logicalRowBytes (v : RowView) : ℕ := (bytesBlocks v.logicalCols 128 129).getD 0

/-- The bytes of the row on each GPU. -/
def rowBytes (v : RowView) : ℕ := ceilDiv v.logicalRowBytes kGpus

end RowView

section Kernels
variable {R : Type} [Field R] [LinearOrder R]

/-- The greatest magnitude of a block, at least `1.0e-8f`. -/
def blockAmax (src : ℕ → R) (logicalCols col0 : ℕ) : R :=
  let amax :=
    (List.range (min 128 (logicalCols - col0))).foldl (fun m c => max m |src (col0 + c)|) 0
  if amax < 1 / 100000000 then 1 / 100000000 else amax

/-- The byte that a row has at a place of one of its blocks. -/
def blockByte [FloorSemiring R] (src : ℕ → R) (logicalCols col0 inBlock : ℕ)
    (dtype : KvDtype) : ℕ :=
  let scaleByte := e8m0EncodePow2Scale (blockAmax src logicalCols col0 / f8KvMaxDev dtype)
  let decodedScale : R := f32Value (e8m0ToF32Dev scaleByte)
  if inBlock = 0 then scaleByte
  else
    let col := col0 + inBlock - 1
    if logicalCols ≤ col then 0 else f8KvQuantByteDev (src col / decodedScale) dtype

/-- `store_f32_device_to_f8_kv_row_kernel`. -/
def storeF32DeviceToF8KvRow [FloorSemiring R] (offset shardRowBytes gpu : ℕ) (src : ℕ → R)
    (logicalCols logicalRowBytes : ℕ) (dtype : KvDtype) : List (Access ℕ) :=
  grid 256 shardRowBytes fun i =>
    if shardRowBytes ≤ i then []
    else
      let globalByte := gpu * shardRowBytes + i
      if logicalRowBytes ≤ globalByte then []
      else
        let block := globalByte / 129
        let inBlock := globalByte - block * 129
        let col0 := block * 128
        if logicalCols ≤ col0 then []
        else [Access.store (offset + i) (blockByte src logicalCols col0 inBlock dtype)]

/-- `get_sharded_row_byte`. -/
def getShardedRowByte (globalByte rowBytes : ℕ) (p : ℕ → ℕ → ℕ) : ℕ :=
  let owner := globalByte / rowBytes
  let off := globalByte - owner * rowBytes
  p (if owner ≤ 6 then owner else 7) off

/-- `load_f8_kv_row_to_f32_device_kernel`. -/
def loadF8KvRowToF32Device (logicalCols rowBytes : ℕ) (p : ℕ → ℕ → ℕ) (dtype : KvDtype) :
    List (Access R) :=
  itemStores 256 logicalCols fun col =>
    let block := col / 128
    let blockOff := block * 129
    let qOff := blockOff + 1 + col % 128
    let scaleByte := getShardedRowByte blockOff rowBytes p
    let q := getShardedRowByte qOff rowBytes p
    f32Value (f8KvToF32Dev q dtype) * f32Value (e8m0ToF32Dev scaleByte)

end Kernels

/-- The orders of the launches, and what the memories hold before. -/
structure Runs (R : Type) where
  store : ℕ → Schedule
  load : Schedule
  kv : ℕ → ℕ → ℕ
  dst : ℕ → R

namespace RowView
variable {R : Type} [Field R] [LinearOrder R] [FloorSemiring R]
variable (v : RowView) (dtype : KvDtype) (r : Runs R) (src : ℕ → R)

/-- The stores of a GPU. -/
def stores (gpu : ℕ) : List (Access ℕ) :=
  storeF32DeviceToF8KvRow (v.offset gpu) v.rowBytes gpu src v.logicalCols v.logicalRowBytes dtype

/-- `ds4_tp_runtime_kv_row_store_f32_device`: the GPUs' memories. -/
def stored (gpu : ℕ) : ℕ → ℕ := launch (r.store gpu) (v.stores dtype src gpu) (r.kv gpu)

/-- `ds4_tp_runtime_kv_row_load_f32_device`, of a row that has been stored. -/
def loaded : ℕ → R :=
  launch r.load
    (loadF8KvRowToF32Device v.logicalCols v.rowBytes
      (fun gpu off => v.stored dtype r src gpu (v.offset gpu + off)) dtype)
    r.dst

attribute [local instance] atLeastTwo_two in
/-- The power of two of a column's block. -/
def scale (col : ℕ) : R :=
  2 ^ min 127 (Int.clog 2 (blockAmax src v.logicalCols (col / 128 * 128) / f8KvMaxDev dtype))

/-- A GPU stores a byte of its part of the row. -/
def StoresByte (gpu i : ℕ) : Prop := ∃ x ∈ v.stores dtype src gpu, x.addr = v.offset gpu + i

/-- What a row that is stored and loaded is to be: at each column the nearest value of the format,
by the block's power of two; the same when it is stored again; and of its bytes each one is stored
by one GPU and read from there. -/
structure Codes : Prop where
  nearest : ∀ (r : Runs R), ∀ col < v.logicalCols, ∃ w,
    Rounds dtype (src col / v.scale dtype src col) w ∧
      v.loaded dtype r src col = w * v.scale dtype src col
  again : ∀ (r r' : Runs R), ∀ col < v.logicalCols,
    v.loaded dtype r' (v.loaded dtype r src) col = v.loaded dtype r src col
  owner : ∀ b < v.logicalRowBytes, ∃! p : ℕ × ℕ, p.1 < kGpus ∧ v.StoresByte dtype src p.1 p.2 ∧
    p.1 * v.rowBytes + p.2 = b
  reader : ∀ gpu < kGpus, ∀ i, v.StoresByte dtype src gpu i → ∀ mem : ℕ → ℕ → ℕ,
    getShardedRowByte (gpu * v.rowBytes + i) v.rowBytes mem = mem gpu i

section Layout
variable {v dtype r src} {gpu i b col : ℕ}

theorem dims (v : RowView) :
    (v.logicalCols = 4 * 128 ∧ v.logicalRowBytes = 4 * 129 ∧ v.rowBytes = 65) ∨
      (v.logicalCols = 128 ∧ v.logicalRowBytes = 129 ∧ v.rowBytes = 17) := by
  obtain ⟨offset, cols, rfl | rfl⟩ := v
  · have hrow : (bytesBlocks 512 128 129).getD 0 = 4 * 129 := by decide
    have hbytes : ceilDiv ((bytesBlocks 512 128 129).getD 0) 8 = 65 := by decide
    exact Or.inl ⟨rfl, hrow, hbytes⟩
  · have hrow : (bytesBlocks 128 128 129).getD 0 = 129 := by decide
    have hbytes : ceilDiv ((bytesBlocks 128 128 129).getD 0) 8 = 17 := by decide
    exact Or.inr ⟨rfl, hrow, hbytes⟩

/-- The byte that the row has. -/
def rowByte (v : RowView) (dtype : KvDtype) (src : ℕ → R) (b : ℕ) : ℕ :=
  blockByte src v.logicalCols (b / 129 * 128) (b - b / 129 * 129) dtype

theorem mem_stores {x : Access ℕ} : x ∈ v.stores dtype src gpu ↔
    ∃ i < v.rowBytes, gpu * v.rowBytes + i < v.logicalRowBytes ∧
      x = Access.store (v.offset gpu + i) (v.rowByte dtype src (gpu * v.rowBytes + i)) := by
  have hblock : ∀ b < v.logicalRowBytes, ¬ v.logicalCols ≤ b / 129 * 128 := by
    have hdims := v.dims
    intro b hb
    omega
  unfold stores storeF32DeviceToF8KvRow
  rw [grid_guard (by norm_num)]
  simp only [List.mem_flatMap, List.mem_range]
  refine exists_congr fun i => and_congr_right fun _ => ?_
  by_cases hin : v.logicalRowBytes ≤ gpu * v.rowBytes + i
  · rw [if_pos hin]
    exact iff_of_false List.not_mem_nil fun h => absurd h.1 (not_lt.2 hin)
  · rw [if_neg hin, if_neg (hblock _ (not_le.1 hin)), List.mem_singleton]
    exact ⟨fun h => ⟨not_le.1 hin, h⟩, And.right⟩

theorem storesByte_iff : v.StoresByte dtype src gpu i ↔
    i < v.rowBytes ∧ gpu * v.rowBytes + i < v.logicalRowBytes := by
  constructor
  · rintro ⟨x, hx, haddr⟩
    obtain ⟨j, hj, hin, rfl⟩ := mem_stores.1 hx
    obtain rfl : j = i := Nat.add_left_cancel haddr
    exact ⟨hj, hin⟩
  · rintro ⟨hi, hin⟩
    exact ⟨_, mem_stores.2 ⟨i, hi, hin, rfl⟩, rfl⟩

/-- A byte of the row, where it is stored. -/
theorem stored_byte (hi : i < v.rowBytes) (hin : gpu * v.rowBytes + i < v.logicalRowBytes) :
    v.stored dtype r src gpu (v.offset gpu + i) = v.rowByte dtype src (gpu * v.rowBytes + i) := by
  have hsettles : Settles
      (fun a => v.rowByte dtype src (gpu * v.rowBytes + (a - v.offset gpu)))
      (v.stores dtype src gpu) := by
    intro x hx old
    obtain ⟨j, -, -, rfl⟩ := mem_stores.1 hx
    dsimp only [Access.store_effect, Access.store_addr]
    rw [Nat.add_sub_cancel_left]
  unfold stored
  rw [launch_eq (r.store gpu) hsettles.raceFree]
  refine (hsettles.perform_hit ⟨_, mem_stores.2 ⟨i, hi, hin, rfl⟩, rfl⟩).trans ?_
  rw [Access.store_addr, Nat.add_sub_cancel_left]

theorem getShardedRowByte_eq (hgpu : gpu < kGpus) (hi : i < v.rowBytes) (mem : ℕ → ℕ → ℕ) :
    getShardedRowByte (gpu * v.rowBytes + i) v.rowBytes mem = mem gpu i := by
  have howner : (if gpu ≤ 6 then gpu else 7) = gpu := by
    have hlt : gpu < 8 := hgpu
    split_ifs <;> omega
  unfold getShardedRowByte
  rw [entry_div hi]
  dsimp only
  rw [Nat.add_sub_cancel_left, howner]

/-- A byte of the row, as it is read. -/
theorem getShardedRowByte_stored (hb : b < v.logicalRowBytes) :
    getShardedRowByte b v.rowBytes (fun gpu off => v.stored dtype r src gpu (v.offset gpu + off)) =
      v.rowByte dtype src b := by
  have hpos : 0 < v.rowBytes := by
    have hdims := v.dims
    omega
  have hgpu : b / v.rowBytes < kGpus := by
    rw [Nat.div_lt_iff_lt_mul hpos]
    have hdims := v.dims
    show b < 8 * v.rowBytes
    omega
  have hsplit := Nat.div_add_mod' b v.rowBytes
  have hmod := Nat.mod_lt b hpos
  rw [← hsplit, getShardedRowByte_eq hgpu hmod, stored_byte hmod (by omega), hsplit]

end Layout

section Values
variable {v dtype r src} {col : ℕ} [IsStrictOrderedRing R]

omit [FloorSemiring R] [IsStrictOrderedRing R] in
theorem blockAmax_pos (src : ℕ → R) (cols col0 : ℕ) :
    (1 / 100000000 : R) ≤ blockAmax src cols col0 := by
  unfold blockAmax
  dsimp only
  split_ifs with hlt
  · exact le_rfl
  · exact not_lt.1 hlt

/-- The byte of a scale holds its exponent. -/
theorem decodedScale_eq {s : R} (hs : 2 ^ (-127 : ℤ) < s) :
    f32Value (e8m0ToF32Dev (e8m0EncodePow2Scale s)) = (2 : R) ^ min 127 (Int.clog 2 s) := by
  have hpos : 0 < s := (zpow_pos two_pos _).trans hs
  have hlow : -127 < Int.clog 2 s := by
    rw [← Int.zpow_lt_iff_lt_clog (by norm_num) hpos]
    exact_mod_cast hs
  have hbyte : ((e8m0EncodePow2Scale s : ℕ) : ℤ) = min 127 (Int.clog 2 s) + 127 := by
    unfold e8m0EncodePow2Scale
    rw [if_neg (not_le.2 hpos)]
    dsimp only
    rw [if_neg (show ¬ Int.clog 2 s + 127 < 1 by omega)]
    split_ifs with hmore
    · omega
    · omega
  rw [f32Value_e8m0 (by omega) (by omega), hbyte, add_sub_cancel_right]

theorem scale_pos (v : RowView) (dtype : KvDtype) (src : ℕ → R) (col : ℕ) :
    0 < v.scale dtype src col :=
  zpow_pos two_pos _

/-- A block's greatest magnitude by the greatest value is no less than the least scale. -/
theorem amax_ratio_gt (dtype : KvDtype) (src : ℕ → R) (cols col0 : ℕ) :
    (2 : R) ^ (-127 : ℤ) < blockAmax src cols col0 / f8KvMaxDev dtype := by
  rw [lt_div_iff₀ (max_pos dtype)]
  refine lt_of_lt_of_le ?_ (blockAmax_pos src cols col0)
  cases dtype <;> norm_num [f8KvMaxDev]

/-- A column that is stored and loaded: its quotient by the block's power of two, as it is coded. -/
theorem loaded_eq (hcol : col < v.logicalCols) :
    v.loaded dtype r src col =
      coded dtype (src col / v.scale dtype src col) * v.scale dtype src col := by
  have hdims := v.dims
  have hscale : v.rowByte dtype src (col / 128 * 129) =
      e8m0EncodePow2Scale (blockAmax src v.logicalCols (col / 128 * 128) / f8KvMaxDev dtype) := by
    unfold rowByte blockByte
    rw [Nat.mul_div_cancel _ (by norm_num), Nat.sub_self]
    exact if_pos rfl
  have hcode : v.rowByte dtype src (col / 128 * 129 + 1 + col % 128) =
      f8KvQuantByteDev (src col / v.scale dtype src col) dtype := by
    have hblock : (col / 128 * 129 + 1 + col % 128) / 129 = col / 128 := by omega
    have hplace : col / 128 * 129 + 1 + col % 128 - col / 128 * 129 = 1 + col % 128 := by omega
    have hback : col / 128 * 128 + (1 + col % 128) - 1 = col := by omega
    unfold rowByte blockByte
    rw [hblock, hplace]
    dsimp only
    rw [if_neg (by omega), hback, if_neg (not_le.2 hcol),
      decodedScale_eq (amax_ratio_gt dtype src _ _)]
    rfl
  unfold loaded loadF8KvRowToF32Device
  rw [launch_item r.load (by norm_num) hcol]
  dsimp only
  rw [getShardedRowByte_stored (by omega), getShardedRowByte_stored (by omega), hscale, hcode,
    decodedScale_eq (amax_ratio_gt dtype src _ _)]
  rfl

/-- A column of the block that `col` is in. -/
def SameBlock (v : RowView) (col c : ℕ) : Prop := c < v.logicalCols ∧ c / 128 = col / 128

omit [IsStrictOrderedRing R] in
theorem scale_same {c : ℕ} (h : v.SameBlock col c) :
    v.scale dtype src c = v.scale dtype src col := by
  unfold scale
  rw [h.2]

omit [FloorSemiring R] in
/-- The greatest magnitude of a block is the least bound of those of its columns. -/
theorem blockAmax_le_iff {b : R} : blockAmax src v.logicalCols (col / 128 * 128) ≤ b ↔
    1 / 100000000 ≤ b ∧ ∀ c, v.SameBlock col c → |src c| ≤ b := by
  have hmax : ∀ m : R,
      (if m < 1 / 100000000 then 1 / 100000000 else m) = max m (1 / 100000000) := by
    intro m
    rw [max_def_lt]
  unfold blockAmax
  dsimp only
  rw [hmax, max_le_iff, foldl_max_le_iff]
  constructor
  · rintro ⟨⟨-, hall⟩, hleast⟩
    refine ⟨hleast, fun c hc => ?_⟩
    have hdiv := hc.2
    have hlt := hc.1
    have hle := hall (c - col / 128 * 128) (List.mem_range.2 (by omega))
    rwa [show col / 128 * 128 + (c - col / 128 * 128) = c by omega] at hle
  · rintro ⟨hleast, hall⟩
    refine ⟨⟨(by norm_num : (0 : R) ≤ 1 / 100000000).trans hleast, fun c hc => ?_⟩, hleast⟩
    have hlt := List.mem_range.1 hc
    exact hall _ ⟨by omega, by omega⟩

theorem le_two_zpow_iff {s : R} (hs : 0 < s) (x : ℤ) : s ≤ 2 ^ x ↔ Int.clog 2 s ≤ x := by
  have hiff := Int.le_zpow_iff_clog_le (one_lt_two : 1 < 2) (x := x) hs
  rwa [Nat.cast_ofNat] at hiff

/-- The exponent of what is between a power of two and its half. -/
theorem clog_between {s : R} {e : ℤ} (hle : s ≤ 2 ^ e) (hge : 2 ^ e ≤ 2 * s) :
    Int.clog 2 s = e ∨ (Int.clog 2 s = e - 1 ∧ 2 * s ≤ 2 ^ e) := by
  have hpow : (0 : R) < 2 ^ e := zpow_pos two_pos _
  have hs : 0 < s := by linarith
  have hupper := (le_two_zpow_iff hs e).1 hle
  have hlower : ¬ Int.clog 2 s ≤ e - 1 - 1 := by
    rw [← le_two_zpow_iff hs, zpow_sub_one₀ two_ne_zero, zpow_sub_one₀ two_ne_zero]
    intro h
    linarith
  rcases hupper.eq_or_lt with heq | hlt
  · exact Or.inl heq
  · have heq : Int.clog 2 s = e - 1 := by omega
    have hhalf := (le_two_zpow_iff hs (e - 1)).2 heq.le
    rw [zpow_sub_one₀ two_ne_zero] at hhalf
    exact Or.inr ⟨heq, by linarith⟩

/-- A block's greatest value fits the scale, unless the scale is the greatest there is, and is more
than half of what fits. -/
theorem scale_bounds (v : RowView) (dtype : KvDtype) (src : ℕ → R) (col : ℕ) :
    1 / 100000000 ≤ f8KvMaxDev dtype * v.scale dtype src col ∧
      f8KvMaxDev dtype * v.scale dtype src col <
        2 * blockAmax src v.logicalCols (col / 128 * 128) := by
  have hamax := blockAmax_pos src v.logicalCols (col / 128 * 128)
  have hmax := max_pos (R := R) dtype
  have hratio : 0 < blockAmax src v.logicalCols (col / 128 * 128) / f8KvMaxDev dtype :=
    (zpow_pos two_pos _).trans (amax_ratio_gt dtype src _ _)
  unfold scale
  generalize blockAmax src v.logicalCols (col / 128 * 128) = amax at hamax hratio ⊢
  constructor
  · rcases le_total (Int.clog 2 (amax / f8KvMaxDev dtype)) 127 with hle | hge
    · rw [min_eq_right hle]
      have hfit := (le_two_zpow_iff hratio _).2 le_rfl
      rw [div_le_iff₀ hmax, mul_comm] at hfit
      exact hamax.trans hfit
    · rw [min_eq_left hge]
      cases dtype <;> norm_num [f8KvMaxDev]
  · have hmore :
      ¬ amax / f8KvMaxDev dtype ≤ 2 ^ (min 127 (Int.clog 2 (amax / f8KvMaxDev dtype)) - 1) := by
      rw [le_two_zpow_iff hratio]
      omega
    rw [zpow_sub_one₀ two_ne_zero, not_le, lt_div_iff₀ hmax] at hmore
    linarith

/-- The scale that the block of what was loaded has: that of the row that was stored or, where no
value is beyond half the greatest, half of it. -/
theorem scale_loaded (col : ℕ) :
    v.scale dtype (v.loaded dtype r src) col = v.scale dtype src col ∨
      (v.scale dtype (v.loaded dtype r src) col * 2 = v.scale dtype src col ∧
        ∀ c, v.SameBlock col c →
          2 * |coded dtype (src c / v.scale dtype src c)| ≤ f8KvMaxDev dtype) := by
  obtain ⟨hleast, hmore⟩ := scale_bounds v dtype src col
  have hmax := max_pos (R := R) dtype
  have hpos := scale_pos v dtype src col
  have habs : ∀ c, v.SameBlock col c → |v.loaded dtype r src c| =
      |coded dtype (src c / v.scale dtype src c)| * v.scale dtype src col := by
    intro c hc
    rw [loaded_eq hc.1, scale_same hc, abs_mul, abs_of_pos hpos]
  have hall : ∀ c, v.SameBlock col c → |v.loaded dtype r src c| ≤
      blockAmax (v.loaded dtype r src) v.logicalCols (col / 128 * 128) :=
    (blockAmax_le_iff.1 (le_refl (blockAmax (v.loaded dtype r src) v.logicalCols _))).2
  -- nothing that was loaded is beyond the scale
  have hupper : blockAmax (v.loaded dtype r src) v.logicalCols (col / 128 * 128) ≤
      f8KvMaxDev dtype * v.scale dtype src col := by
    rw [blockAmax_le_iff]
    refine ⟨hleast, fun c hc => ?_⟩
    rw [habs c hc]
    exact mul_le_mul_of_nonneg_right (abs_le_max_of_given (coded_given dtype _)) hpos.le
  -- and the greatest is not brought below its half
  have hlower : f8KvMaxDev dtype * v.scale dtype src col ≤
      2 * blockAmax (v.loaded dtype r src) v.logicalCols (col / 128 * 128) := by
    by_contra hlt
    have hsmall := blockAmax_pos (v.loaded dtype r src) v.logicalCols (col / 128 * 128)
    have hbound : ¬ blockAmax src v.logicalCols (col / 128 * 128) ≤
        f8KvMaxDev dtype * v.scale dtype src col / 2 := by linarith
    rw [blockAmax_le_iff] at hbound
    push Not at hbound
    obtain ⟨c, hc, hgreat⟩ := hbound (by linarith)
    have hquot : f8KvMaxDev dtype ≤ 2 * |src c / v.scale dtype src c| := by
      rw [scale_same hc, abs_div, abs_of_pos hpos, ← mul_div_assoc, le_div_iff₀ hpos]
      linarith
    have hkept := mul_le_mul_of_nonneg_right (le_abs_coded hquot) hpos.le
    have hle := hall c hc
    rw [habs c hc] at hle
    linarith
  have hexp' : v.scale dtype (v.loaded dtype r src) col = 2 ^ min 127 (Int.clog 2
      (blockAmax (v.loaded dtype r src) v.logicalCols (col / 128 * 128) / f8KvMaxDev dtype)) := rfl
  obtain ⟨e, he, hexp⟩ : ∃ e : ℤ, e ≤ 127 ∧ v.scale dtype src col = 2 ^ e :=
    ⟨_, min_le_left _ _, rfl⟩
  rw [hexp] at hupper hlower habs ⊢
  rw [hexp']
  have hin : blockAmax (v.loaded dtype r src) v.logicalCols (col / 128 * 128) / f8KvMaxDev dtype ≤
      2 ^ e := by
    rw [div_le_iff₀ hmax]
    linarith
  have hhalf : 2 ^ e ≤ 2 *
      (blockAmax (v.loaded dtype r src) v.logicalCols (col / 128 * 128) / f8KvMaxDev dtype) := by
    rw [← mul_div_assoc, le_div_iff₀ hmax]
    linarith
  rcases clog_between hin hhalf with heq | ⟨heq, hle⟩
  · left
    rw [heq, min_eq_right he]
  · right
    rw [heq, min_eq_right (by omega), zpow_sub_one₀ two_ne_zero]
    refine ⟨inv_mul_cancel_right₀ two_ne_zero _, fun c hc => ?_⟩
    have hbound := hall c hc
    rw [habs c hc] at hbound
    rw [← mul_div_assoc, div_le_iff₀ hmax] at hle
    have hpow : (0 : R) < 2 ^ e := zpow_pos two_pos _
    refine le_of_mul_le_mul_right ?_ hpow
    linarith

/-- What was loaded is loaded again. -/
theorem loaded_again (r' : Runs R) (hcol : col < v.logicalCols) :
    v.loaded dtype r' (v.loaded dtype r src) col = v.loaded dtype r src col := by
  have hpos := scale_pos v dtype src col
  have hgiven := coded_given dtype (src col / v.scale dtype src col)
  rw [loaded_eq hcol]
  rcases (scale_loaded col : v.scale dtype (v.loaded dtype r src) col = v.scale dtype src col ∨ _)
    with hsame | ⟨hhalf, hle⟩
  · rw [hsame, loaded_eq hcol, mul_div_cancel_right₀ _ hpos.ne', coded_of_given hgiven]
  · have hpos' := scale_pos v dtype (v.loaded dtype r src) col
    have hquot : v.loaded dtype r src col / v.scale dtype (v.loaded dtype r src) col =
        2 * coded dtype (src col / v.scale dtype src col) := by
      rw [div_eq_iff hpos'.ne', loaded_eq hcol, ← hhalf]
      ring
    rw [hquot, coded_of_given (hgiven.double (hle col ⟨hcol, rfl⟩)), loaded_eq hcol, ← hhalf]
    ring

/-- A column gets its nearest value exactly if its quotient is in place. -/
theorem loaded_nearest_iff (hcol : col < v.logicalCols) :
    (∃ w, Rounds dtype (src col / v.scale dtype src col) w ∧
        v.loaded dtype r src col = w * v.scale dtype src col) ↔
      ¬ Misplaced dtype |src col / v.scale dtype src col| := by
  rw [← rounds_coded_iff]
  constructor
  · rintro ⟨w, hw, heq⟩
    rw [loaded_eq hcol] at heq
    rwa [mul_right_cancel₀ (scale_pos v dtype src col).ne' heq]
  · exact fun h => ⟨_, h, loaded_eq hcol⟩

omit [IsStrictOrderedRing R] in
/-- Each byte of the row is stored by one GPU. -/
theorem owner_unique {b : ℕ} (hb : b < v.logicalRowBytes) : ∃! p : ℕ × ℕ,
    p.1 < kGpus ∧ v.StoresByte dtype src p.1 p.2 ∧ p.1 * v.rowBytes + p.2 = b := by
  have hdims := v.dims
  have hpos : 0 < v.rowBytes := by omega
  have hsplit := Nat.div_add_mod' b v.rowBytes
  have hmod := Nat.mod_lt b hpos
  have hgpu : b / v.rowBytes < kGpus := by
    rw [Nat.div_lt_iff_lt_mul hpos]
    show b < 8 * v.rowBytes
    omega
  refine ⟨(b / v.rowBytes, b % v.rowBytes),
    ⟨hgpu, storesByte_iff.2 ⟨hmod, hsplit.trans_lt hb⟩, hsplit⟩, ?_⟩
  rintro ⟨gpu, i⟩ ⟨-, hstores, rfl⟩
  have hi := (storesByte_iff.1 hstores).1
  rw [entry_div hi, entry_mod hi]

/-- A row is what it is to be exactly if none of its quotients is out of place. -/
theorem codes_iff (v : RowView) (dtype : KvDtype) (src : ℕ → R) : v.Codes dtype src ↔
    ∀ col < v.logicalCols, ¬ Misplaced dtype |src col / v.scale dtype src col| := by
  constructor
  · intro h col hcol
    let r : Runs R := ⟨fun _ => Schedule.inOrder, Schedule.inOrder, fun _ _ => 0, fun _ => 0⟩
    exact (loaded_nearest_iff (r := r) hcol).1 (h.nearest r col hcol)
  · intro hplaced
    refine ⟨fun r col hcol => (loaded_nearest_iff hcol).2 (hplaced col hcol),
      fun r r' col hcol => loaded_again r' hcol, fun b hb => owner_unique hb, ?_⟩
    intro gpu hgpu i hstores mem
    exact getShardedRowByte_eq hgpu (storesByte_iff.1 hstores).1 mem

end Values

end RowView

section Sample

/-- The scale of a block in E5M2 whose greatest magnitude is that of the format. -/
theorem scale_full {v : RowView} {src : ℕ → ℚ} {col c : ℕ} (hc : v.SameBlock col c)
    (hfull : |src c| = 57344) (hle : ∀ c, v.SameBlock col c → |src c| ≤ 57344) :
    v.scale .e5m2 src col = 1 := by
  have hamax : blockAmax src v.logicalCols (col / 128 * 128) = 57344 := by
    refine le_antisymm (RowView.blockAmax_le_iff.2 ⟨by norm_num, hle⟩) ?_
    have hall : ∀ c, v.SameBlock col c →
        |src c| ≤ blockAmax src v.logicalCols (col / 128 * 128) :=
      (RowView.blockAmax_le_iff.1 (le_refl (blockAmax src v.logicalCols _))).2
    exact hfull.symm.trans_le (hall c hc)
  unfold RowView.scale
  rw [hamax]
  norm_num [f8KvMaxDev]

/-- A row whose quotients are all normal. -/
def normalRow (col : ℕ) : ℚ := if col = 0 then 57344 else -col

theorem normalRow_bounds {col : ℕ} (hcol : col ≤ 57344) :
    1 ≤ |normalRow col| ∧ |normalRow col| ≤ 57344 := by
  unfold normalRow
  split_ifs with hzero
  · norm_num
  · rw [abs_neg, Nat.abs_cast]
    exact ⟨by exact_mod_cast Nat.one_le_iff_ne_zero.2 hzero, by exact_mod_cast hcol⟩

/-- A row of 512 columns in E4M3, and one of 128 in E5M2. -/
theorem rows_code :
    (RowView.mk (fun _ => 0) 512 (Or.inl rfl)).Codes .e4m3 (fun col => (col : ℚ)) ∧
      (RowView.mk (fun _ => 0) 128 (Or.inr rfl)).Codes .e5m2 normalRow := by
  refine ⟨(RowView.codes_iff _ _ _).2 fun _ _ h => h, (RowView.codes_iff _ _ _).2 ?_⟩
  intro col hcol
  have hcols : ∀ {c}, c < 128 → c ≤ 57344 := fun hc => hc.le.trans (by norm_num)
  have hscale : (RowView.mk (fun _ => 0) 128 (Or.inr rfl)).scale .e5m2 normalRow col = 1 :=
    scale_full (c := 0) ⟨by decide, (Nat.div_eq_of_lt hcol).symm⟩ (by norm_num [normalRow])
      fun c hc => (normalRow_bounds (hcols hc.1)).2
  have hmore := (normalRow_bounds (hcols hcol)).1
  rw [hscale, div_one]
  rintro (⟨-, hlt⟩ | ⟨-, hlt⟩)
  · exact absurd (hmore.trans hlt.le) (by norm_num)
  · exact absurd (hmore.trans hlt.le) (by norm_num)

/-- In a row whose greatest value is that of E5M2 three times the least value is stored as four
times it. -/
def belowNormal (col : ℕ) : ℚ := if col = 0 then 57344 else 6 * 2 ^ (-17 : ℤ)

theorem belowNormal_not_coded :
    ¬ (RowView.mk (fun _ => 0) 512 (Or.inl rfl)).Codes .e5m2 belowNormal := by
  let v : RowView := ⟨fun _ => 0, 512, Or.inl rfl⟩
  have hle : ∀ c, |belowNormal c| ≤ 57344 := by
    intro c
    unfold belowNormal
    split_ifs <;> norm_num
  have hscale : v.scale .e5m2 belowNormal 1 = 1 :=
    scale_full (c := 0) ⟨by decide, by norm_num⟩ (by norm_num [belowNormal]) fun c _ => hle c
  let r : Runs ℚ := ⟨fun _ => Schedule.inOrder, Schedule.inOrder, fun _ _ => 0, fun _ => 0⟩
  intro h
  have hplaced := (RowView.loaded_nearest_iff (r := r) (by decide)).1 (h.nearest r 1 (by decide))
  rw [hscale] at hplaced
  refine hplaced (Or.inl ?_)
  norm_num [belowNormal]

end Sample

end Ds4.Tp.F8
