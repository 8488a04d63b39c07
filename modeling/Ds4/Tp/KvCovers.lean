import Ds4.Tp.KvRecords
import Mathlib.Algebra.Order.BigOperators.Group.List

/-! Whether the KV records of the contract cover what the runtime reserves. -/
namespace Ds4.Tp

section Shares
variable {ctx layer gpu : ℕ} {kv : KvDtype}

theorem window_le_attnRows (layer : ℕ) (hctx : ctx < 2 ^ 64) : 128 ≤ attnRows ctx layer := by
  unfold attnRows layerRatio
  split_ifs <;> omega

theorem layerBytes_eq (hlayer : layer < 43) (ctx : ℕ) (kv : KvDtype) :
    Runtime.layerBytes ctx kv layer = attnRows ctx layer * Runtime.attnRowBytes kv +
      if layerRatio layer = 4 then ctx / 4 * Runtime.indexerRowBytes kv else 0 := by
  unfold Runtime.layerBytes Runtime.attnRows attnRows
  rw [layerRatio_eq hlayer]

/-- A row of F16 or Q8_0 values is shared out without a rest. -/
theorem layerShare_exact (hlayer : layer < 43) (hkv : kv ≠ .f8E4M3) :
    layerShare ctx kv layer = Runtime.layerBytes ctx kv layer := by
  rw [layerBytes_eq hlayer]
  unfold layerShare attnShare indexerShare
  cases kv with
  | f16 =>
    simp only [blockBytes, Runtime.attnRowBytes, Runtime.indexerRowBytes]
    split_ifs <;> omega
  | f8E4M3 => exact absurd rfl hkv
  | q8_0 =>
    simp only [blockBytes, Runtime.attnRowBytes, Runtime.indexerRowBytes]
    split_ifs <;> omega

/-- The runtime rounds up each row of F8 values, the records the layer once. -/
theorem layerShare_short (hctx : ctx < 2 ^ 64) (hlayer : layer < 43) :
    layerShare ctx .f8E4M3 layer < Runtime.layerBytes ctx .f8E4M3 layer := by
  have hwindow := window_le_attnRows layer hctx
  rw [layerBytes_eq hlayer]
  unfold layerShare attnShare indexerShare
  simp only [blockBytes, Runtime.attnRowBytes, Runtime.indexerRowBytes]
  split_ifs <;> omega

/-- The KV bytes of one slot in the records of a GPU. -/
def slotShare (ctx : ℕ) (kv : KvDtype) : ℕ := ((List.range 43).map (layerShare ctx kv)).sum

theorem slotShare_exact (hkv : kv ≠ .f8E4M3) :
    slotShare ctx kv = Runtime.slotBytes ctx kv 43 := by
  unfold slotShare Runtime.slotBytes
  congr 1
  apply List.map_congr_left
  intro layer hlayer
  exact layerShare_exact (List.mem_range.mp hlayer) hkv

theorem slotShare_short (hctx : ctx < 2 ^ 64) :
    slotShare ctx .f8E4M3 < Runtime.slotBytes ctx .f8E4M3 43 := by
  apply List.sum_lt_sum
  · intro layer hlayer
    exact (layerShare_short hctx (List.mem_range.mp hlayer)).le
  · exact ⟨0, List.mem_range.mpr (by omega), layerShare_short hctx (by omega)⟩

theorem slotShare_le (kv : KvDtype) (hctx : ctx < 2 ^ 64) :
    slotShare ctx kv ≤ Runtime.slotBytes ctx kv 43 := by
  by_cases hkv : kv = .f8E4M3
  · rw [hkv]
    exact (slotShare_short hctx).le
  · exact (slotShare_exact hkv).le

/-- The runtime has one layer more: the MTP block, with the rows of the window. -/
theorem slotBytes_mtp (ctx : ℕ) (kv : KvDtype) :
    Runtime.slotBytes ctx kv Runtime.kLayers =
      Runtime.slotBytes ctx kv 43 + 128 * Runtime.attnRowBytes kv := by
  have hmtp : Runtime.layerBytes ctx kv 43 = 128 * Runtime.attnRowBytes kv := rfl
  unfold Runtime.slotBytes Runtime.kLayers
  rw [List.range_succ, List.map_append, List.sum_append, ← hmtp]
  rfl

end Shares

/-- What a sum in 64 bits drops. -/
def dropped (n : ℕ) : ℕ := n / 2 ^ 64 * 2 ^ 64

/-- The bytes of one slot's compression state in the records of a GPU. -/
def compShare (ctx : ℕ) : ℕ :=
  ((List.range 43).map fun layer => Runtime.compBytes ctx layer / 8).sum

namespace KvOptions
variable (o : KvOptions)

/-- What the records leave out of the rows of the runtime's first layers. -/
def missed (layers : ℕ) : ℕ :=
  (Runtime.slotBytes o.ctx o.kv layers - slotShare o.ctx o.kv) * o.slots

/-- The summary's sum falls short by what the records miss and by what it drops itself; the
runtime's by what it drops in each slot. -/
def CoversKv (layers : ℕ) : Prop :=
  o.missed layers + dropped (slotShare o.ctx o.kv * o.slots) ≤
    dropped (Runtime.slotBytes o.ctx o.kv layers) * o.slots

def CoversComp : Prop :=
  dropped (compShare o.ctx * o.slots) ≤ dropped (8 * compShare o.ctx) / 8 * o.slots

end KvOptions

section Covers
variable {o : KvOptions} {gpu k c layers : ℕ} {rows : List ContractRow}

theorem dropped_add_mod (n : ℕ) : dropped n + n % 2 ^ 64 = n := Nat.div_add_mod' n _

theorem dropped_of_fits {n : ℕ} (h : n < 2 ^ 64) : dropped n = 0 := by
  rw [dropped, Nat.div_eq_of_lt h, Nat.zero_mul]

theorem emitKvRecords_kv (hgpu : gpu < 8) (hrows : emitKvRecords o = some rows) :
    gpuBytes "kv_shard" gpu rows = slotShare o.ctx o.kv * o.slots % 2 ^ 64 := by
  rw [gpuBytes_eq]
  congr 1
  obtain ⟨groups, hgroups, rfl⟩ := Option.map_eq_some_iff.mp hrows
  rw [ownBytes_flatten, slotShare, ← List.sum_map_mul_right]
  apply sum_of_mapM _ _ _ hgroups
  intro layer hlayer group hgroup
  exact (emitKvLayer_own hgpu (List.mem_range.mp hlayer) hgroup).1

theorem emitKvRecords_comp (hgpu : gpu < 8) (hrows : emitKvRecords o = some rows) :
    gpuBytes "kv_comp_state" gpu rows = compShare o.ctx * o.slots % 2 ^ 64 := by
  rw [gpuBytes_eq]
  congr 1
  obtain ⟨groups, hgroups, rfl⟩ := Option.map_eq_some_iff.mp hrows
  rw [ownBytes_flatten, compShare, ← List.sum_map_mul_right]
  apply sum_of_mapM _ _ _ hgroups
  intro layer hlayer group hgroup
  exact (emitKvLayer_own hgpu (List.mem_range.mp hlayer) hgroup).2

/-- The MTP block has no compression state. -/
theorem compBytes_sum (ctx : ℕ) :
    ((List.range Runtime.kLayers).map (Runtime.compBytes ctx)).sum = 8 * compShare ctx := by
  have hmtp : Runtime.compBytes ctx 43 = 0 := rfl
  have hparts : (List.range 43).map (Runtime.compBytes ctx) =
      (List.range 43).map fun layer => 8 * (Runtime.compBytes ctx layer / 8) := by
    apply List.map_congr_left
    intro layer _
    exact (Nat.mul_div_cancel' (Runtime.compBytes_dvd ctx layer)).symm
  unfold Runtime.kLayers compShare
  rw [List.range_succ, List.map_append, List.sum_append, hparts, List.sum_map_mul_left]
  simp [hmtp]

theorem coversKv_iff (hrows : emitKvRecords o = some rows) (hgpu : gpu < 8)
    (hlayers : slotShare o.ctx o.kv ≤ Runtime.slotBytes o.ctx o.kv layers)
    (hplan : Runtime.plannedKvBytesOf layers o.ctx o.slots o.kv = some (k, c)) :
    k ≤ gpuBytes "kv_shard" gpu rows ↔ o.CoversKv layers := by
  rw [emitKvRecords_kv hgpu hrows, (Runtime.plannedKvBytes_kv hplan).1, KvOptions.CoversKv,
    KvOptions.missed]
  have hrecords := dropped_add_mod (slotShare o.ctx o.kv * o.slots)
  have hslot := congrArg (· * o.slots) (dropped_add_mod (Runtime.slotBytes o.ctx o.kv layers))
  have hparts := congrArg (· * o.slots) (Nat.sub_add_cancel hlayers)
  simp only [Nat.add_mul] at hslot hparts
  omega

theorem coversComp_iff (hrows : emitKvRecords o = some rows) (hgpu : gpu < 8)
    (hplan : Runtime.plannedKvBytes o.ctx o.slots o.kv = some (k, c)) :
    c ≤ gpuBytes "kv_comp_state" gpu rows ↔ o.CoversComp := by
  rw [emitKvRecords_comp hgpu hrows, (Runtime.plannedKvBytes_comp hplan).1, compBytes_sum,
    KvOptions.CoversComp]
  have hrecords := dropped_add_mod (compShare o.ctx * o.slots)
  have hparts : dropped (8 * compShare o.ctx) / 8 + 8 * compShare o.ctx % 2 ^ 64 / 8 =
      compShare o.ctx := by
    unfold dropped
    omega
  have hslot := congrArg (· * o.slots) hparts
  simp only [Nat.add_mul] at hslot
  omega

/-- Nothing is dropped where the sizes fit: then all depends on what the records miss. -/
theorem coversKv_of_fits (hfits : Runtime.slotBytes o.ctx o.kv layers * o.slots < 2 ^ 64)
    (hlayers : slotShare o.ctx o.kv ≤ Runtime.slotBytes o.ctx o.kv layers) :
    o.CoversKv layers ↔ slotShare o.ctx o.kv = Runtime.slotBytes o.ctx o.kv layers := by
  have hpos := o.slots_pos
  have hshare : slotShare o.ctx o.kv * o.slots < 2 ^ 64 :=
    (Nat.mul_le_mul_right _ hlayers).trans_lt hfits
  have hslot : Runtime.slotBytes o.ctx o.kv layers < 2 ^ 64 :=
    (Nat.le_mul_of_pos_right _ hpos).trans_lt hfits
  rw [KvOptions.CoversKv, KvOptions.missed, dropped_of_fits hshare, dropped_of_fits hslot,
    Nat.zero_mul, Nat.add_zero, Nat.le_zero, Nat.mul_eq_zero]
  omega

theorem slotShare_mtp (hctx : o.ctx < 2 ^ 64) :
    slotShare o.ctx o.kv < Runtime.slotBytes o.ctx o.kv Runtime.kLayers := by
  have hle := slotShare_le o.kv hctx
  have hmtp := slotBytes_mtp o.ctx o.kv
  have hrow : 0 < Runtime.attnRowBytes o.kv := by
    cases o.kv <;> decide
  omega

/-- Slots with a part more are no larger in 64 bits only if the part carries each past them. -/
theorem carries_iff {bytes part slots : ℕ} (hslots : 0 < slots) (hpart : 0 < part)
    (hfit : part * slots < 2 ^ 64) : (bytes + part) % 2 ^ 64 * slots ≤
      bytes % 2 ^ 64 * slots % 2 ^ 64 ↔ 2 ^ 64 ≤ bytes % 2 ^ 64 + part := by
  have hsmall : part < 2 ^ 64 := (Nat.le_mul_of_pos_right part hslots).trans_lt hfit
  have hrest : bytes % 2 ^ 64 < 2 ^ 64 := Nat.mod_lt _ (by norm_num)
  rw [Nat.add_mod, Nat.mod_eq_of_lt hsmall]
  generalize bytes % 2 ^ 64 = bytes at *
  by_cases hcarry : 2 ^ 64 ≤ bytes + part
  · refine iff_of_true ?_ hcarry
    -- each slot is short of the 64 bits by less than the part
    obtain ⟨short, hshort⟩ := Nat.exists_eq_add_of_le hrest.le
    obtain ⟨extra, hextra⟩ : ∃ extra, part = short + extra := ⟨part - short, by omega⟩
    have hsum : (bytes + part) % 2 ^ 64 = extra := by
      rw [hextra, ← Nat.add_assoc, ← hshort, Nat.add_mod_left, Nat.mod_eq_of_lt (by omega)]
    obtain ⟨n, rfl⟩ : ∃ n, slots = n + 1 := ⟨slots - 1, by omega⟩
    have hall : bytes * (n + 1) + short * (n + 1) = 2 ^ 64 * n + 2 ^ 64 := by
      rw [← Nat.add_mul, ← hshort, Nat.mul_succ]
    have hshort_pos : 0 < short * (n + 1) := Nat.mul_pos (by omega) hslots
    rw [hextra, Nat.add_mul] at hfit
    rw [hsum]
    omega
  · refine iff_of_false ?_ hcarry
    have hpos : 0 < part * slots := Nat.mul_pos hpart hslots
    have hmod := Nat.mod_le (bytes * slots) (2 ^ 64)
    rw [Nat.mod_eq_of_lt (Nat.lt_of_not_le hcarry), Nat.add_mul]
    omega

/-- Outside F8 the records miss the rows of the MTP block alone: the reservation is covered only
where these rows carry the runtime's sum of a slot past the 64 bits. -/
theorem coversKv_mtp (hrows : emitKvRecords o = some rows) (hgpu : gpu < 8)
    (hplan : Runtime.plannedKvBytes o.ctx o.slots o.kv = some (k, c)) (hkv : o.kv ≠ .f8E4M3) :
    o.CoversKv Runtime.kLayers ↔
      2 ^ 64 ≤ Runtime.slotBytes o.ctx o.kv 43 % 2 ^ 64 + 128 * Runtime.attnRowBytes o.kv := by
  rw [← coversKv_iff hrows hgpu (slotShare_mtp o.ctx_lt).le hplan, emitKvRecords_kv hgpu hrows,
    slotShare_exact hkv, ← Nat.mod_mul_mod]
  rw [(Runtime.plannedKvBytes_kv hplan).1, slotBytes_mtp]
  have hrow : 0 < Runtime.attnRowBytes o.kv ∧ Runtime.attnRowBytes o.kv ≤ 128 := by
    cases o.kv <;> decide
  have hmtp : 128 * Runtime.attnRowBytes o.kv * o.slots < 2 ^ 64 := by
    have hle : 128 * Runtime.attnRowBytes o.kv ≤ 2 ^ 14 := by omega
    have hmul := Nat.mul_le_mul hle o.slots_lt.le
    omega
  exact carries_iff o.slots_pos (by omega) hmtp

/-- The records cover what the runtime reserves exactly where what they miss and what the summary
drops is no more than what the runtime drops itself. In F16 and Q8_0 they cover the layers that
they list, and all that is reserved only where the rows of the MTP block carry the runtime's sum
past the 64 bits. Where the sizes fit 64 bits these are the only formats in which the listed
layers are covered, the compression state is covered, and all that is reserved never. -/
theorem kv_covers_iff (o : KvOptions) (rows : List ContractRow) (k c gpu : ℕ)
    (hrows : emitKvRecords o = some rows)
    (hplan : Runtime.plannedKvBytes o.ctx o.slots o.kv = some (k, c)) (hgpu : gpu < 8) :
    (∀ k' c', Runtime.plannedKvBytesOf 43 o.ctx o.slots o.kv = some (k', c') →
      (k' ≤ gpuBytes "kv_shard" gpu rows ↔ o.CoversKv 43) ∧ (o.kv ≠ .f8E4M3 → o.CoversKv 43)) ∧
    (c ≤ gpuBytes "kv_comp_state" gpu rows ↔ o.CoversComp) ∧
    (k ≤ gpuBytes "kv_shard" gpu rows ↔ o.CoversKv Runtime.kLayers) ∧
    (o.kv ≠ .f8E4M3 → (o.CoversKv Runtime.kLayers ↔
      2 ^ 64 ≤ Runtime.slotBytes o.ctx o.kv 43 % 2 ^ 64 + 128 * Runtime.attnRowBytes o.kv)) ∧
    (Runtime.slotBytes o.ctx o.kv Runtime.kLayers * o.slots < 2 ^ 64 →
      (o.CoversKv 43 ↔ o.kv ≠ .f8E4M3) ∧ ¬ o.CoversKv Runtime.kLayers) ∧
    (8 * compShare o.ctx < 2 ^ 64 → o.CoversComp) := by
  have hlisted := slotShare_le o.kv o.ctx_lt
  have hmtp := slotShare_mtp o.ctx_lt
  have hcomp := coversComp_iff hrows hgpu hplan
  refine ⟨?_, hcomp, coversKv_iff hrows hgpu hmtp.le hplan, coversKv_mtp hrows hgpu hplan, ?_, ?_⟩
  · intro k' c' hplanned
    have hiff := coversKv_iff hrows hgpu hlisted hplanned
    refine ⟨hiff, fun hkv => hiff.mp ?_⟩
    obtain ⟨rfl, hlt⟩ := Runtime.plannedKvBytes_kv hplanned
    rw [emitKvRecords_kv hgpu hrows, slotShare_exact hkv, ← Nat.mod_mul_mod,
      Nat.mod_eq_of_lt hlt]
  · intro hfits
    have hle : Runtime.slotBytes o.ctx o.kv 43 ≤ Runtime.slotBytes o.ctx o.kv Runtime.kLayers := by
      rw [slotBytes_mtp]
      exact Nat.le_add_right _ _
    have hfits43 := (Nat.mul_le_mul_right o.slots hle).trans_lt hfits
    rw [coversKv_of_fits hfits43 hlisted, coversKv_of_fits hfits hmtp.le]
    refine ⟨?_, hmtp.ne⟩
    constructor
    · intro hexact hkv
      have hshort := slotShare_short o.ctx_lt
      rw [← hkv, hexact] at hshort
      exact absurd hshort (lt_irrefl _)
    · exact slotShare_exact
  · intro hfits
    have hlt := (Runtime.plannedKvBytes_comp hplan).2
    rw [(Runtime.plannedKvBytes_comp hplan).1, compBytes_sum, Nat.mod_eq_of_lt hfits,
      Nat.mul_div_cancel_left _ (by norm_num)] at hlt
    rw [KvOptions.CoversComp, dropped_of_fits hlt]
    exact Nat.zero_le _

/-- The configuration that both programs begin with: 32 slots of 262144 positions in F8. -/
def defaultKv : KvOptions where
  ctx := 262144
  slots := 32
  kv := .f8E4M3
  ctx_lt := by norm_num
  slots_pos := by norm_num
  slots_lt := by norm_num

def halfKv : KvOptions := { defaultKv with kv := .f16 }

/-- With the F16 format the layers of the records are covered, but not the runtime's own. -/
theorem halfKv_covers : ∃ rows k c, emitKvRecords halfKv = some rows ∧
    Runtime.plannedKvBytes 262144 32 .f16 = some (k, c) ∧
    (∀ k' c', Runtime.plannedKvBytesOf 43 262144 32 .f16 = some (k', c') →
      (k' ≤ gpuBytes "kv_shard" 0 rows ↔ halfKv.CoversKv 43) ∧
        (KvDtype.f16 ≠ .f8E4M3 → halfKv.CoversKv 43)) ∧
    (c ≤ gpuBytes "kv_comp_state" 0 rows ↔ halfKv.CoversComp) ∧
    (k ≤ gpuBytes "kv_shard" 0 rows ↔ halfKv.CoversKv Runtime.kLayers) ∧
    (KvDtype.f16 ≠ .f8E4M3 → (halfKv.CoversKv Runtime.kLayers ↔
      2 ^ 64 ≤ Runtime.slotBytes 262144 .f16 43 % 2 ^ 64 + 128 * Runtime.attnRowBytes .f16)) ∧
    (Runtime.slotBytes 262144 .f16 Runtime.kLayers * 32 < 2 ^ 64 →
      (halfKv.CoversKv 43 ↔ KvDtype.f16 ≠ .f8E4M3) ∧ ¬ halfKv.CoversKv Runtime.kLayers) ∧
    (8 * compShare 262144 < 2 ^ 64 → halfKv.CoversComp) := by
  have hsome : (emitKvRecords halfKv).isSome = true := by decide
  have hplanned : (Runtime.plannedKvBytes 262144 32 .f16).isSome = true := by decide
  obtain ⟨rows, hrows⟩ := Option.isSome_iff_exists.mp hsome
  obtain ⟨⟨k, c⟩, hplan⟩ := Option.isSome_iff_exists.mp hplanned
  exact ⟨rows, k, c, hrows, hplan, kv_covers_iff halfKv rows k c 0 hrows hplan (by norm_num)⟩

/-- In the configuration that both programs begin with, the records miss bytes of the layers
that they list, and of the runtime's own reservation. -/
theorem defaultKv_uncovered : ∃ rows k c k' c', emitKvRecords defaultKv = some rows ∧
    Runtime.plannedKvBytes 262144 32 .f8E4M3 = some (k, c) ∧
    Runtime.plannedKvBytesOf 43 262144 32 .f8E4M3 = some (k', c') ∧
    gpuBytes "kv_shard" 0 rows < k' ∧ gpuBytes "kv_shard" 0 rows < k := by
  have hsome : (emitKvRecords defaultKv).isSome = true := by decide
  have hplanned : (Runtime.plannedKvBytes 262144 32 .f8E4M3).isSome = true := by decide
  have hplanned43 : (Runtime.plannedKvBytesOf 43 262144 32 .f8E4M3).isSome = true := by decide
  obtain ⟨rows, hrows⟩ := Option.isSome_iff_exists.mp hsome
  obtain ⟨⟨k, c⟩, hplan⟩ := Option.isSome_iff_exists.mp hplanned
  obtain ⟨⟨k', c'⟩, hplan43⟩ := Option.isSome_iff_exists.mp hplanned43
  have hfits : Runtime.slotBytes defaultKv.ctx defaultKv.kv Runtime.kLayers * defaultKv.slots <
      2 ^ 64 := by decide
  have hfits43 : Runtime.slotBytes defaultKv.ctx defaultKv.kv 43 * defaultKv.slots < 2 ^ 64 := by
    decide
  have hlisted := slotShare_le defaultKv.kv defaultKv.ctx_lt
  have hmtp := slotShare_mtp defaultKv.ctx_lt
  refine ⟨rows, k, c, k', c', hrows, hplan, hplan43, ?_, ?_⟩
  · rw [← not_le, coversKv_iff hrows (by norm_num) hlisted hplan43,
      coversKv_of_fits hfits43 hlisted]
    exact (slotShare_short defaultKv.ctx_lt).ne
  · rw [← not_le, coversKv_iff hrows (by norm_num) hmtp.le hplan, coversKv_of_fits hfits hmtp.le]
    exact hmtp.ne

end Covers

end Ds4.Tp
