import Ds4.Tp.Contract
import Ds4.Tp.Runtime
import Mathlib.Tactic.IntervalCases

/-! The KV records of the contract: the rows that the contract tool writes for the KV memory and
the compression state of each layer, and what they add up to for a GPU. -/
namespace Ds4.Tp

/-- The options of the tool that its KV records depend on. -/
structure KvOptions where
  ctx : ℕ
  slots : ℕ
  kv : KvDtype
  ctx_lt : ctx < 2 ^ 64
  slots_pos : 0 < slots
  slots_lt : slots < 2 ^ 32

def kvName : KvDtype → String
  | .f16 => "f16"
  | .f8E4M3 => "f8_e4m3_b128"
  | .q8_0 => "q8_0"

def kvValuesBytes (values : ℕ) : KvDtype → Option ℕ
  | .f16 => checkedMul values 2
  | .f8E4M3 => bytesBlocks values 128 129
  | .q8_0 => bytesBlocks values 32 34

def layerRatio (layer : ℕ) : ℕ :=
  if layer < 2 then 0
  else if layer % 2 = 0 then 4
  else 128

def attnRows (ctx layer : ℕ) : ℕ :=
  (128 + if layerRatio layer = 0 then 0 else ctx / layerRatio layer) % 2 ^ 64

def layerAttnKvBytes (layer ctx : ℕ) (kv : KvDtype) : Option ℕ := do
  let values ← checkedMul (attnRows ctx layer) 512
  kvValuesBytes values kv

def layerIndexerKvBytes (layer ctx : ℕ) (kv : KvDtype) : Option ℕ :=
  if layerRatio layer ≠ 4 then some 0
  else do
    let values ← checkedMul (ctx / 4) 128
    kvValuesBytes values kv

def layerCompStateBytes (layer ctx : ℕ) : Option ℕ :=
  let ratio := layerRatio layer
  if ratio = 0 then some 0
  else do
    let attn ← checkedMul (ctx / ratio) 512
    if ratio = 4 then
      let indexer ← checkedMul (ctx / 4) 128
      checkedMul ((attn + indexer) % 2 ^ 64 / 8) 4
    else checkedMul (attn / 8) 4

/-- What the records of the KV memory and of the compression state have in common. -/
def kvRow (recordType tensorId family dtype shape layout splitAxis kernel : String)
    (layer rows gpuBytes bytes gpu : ℕ) : ContractRow where
  recordType := recordType
  tensorId := tensorId ++ toString layer
  sourceName := "-"
  layer := layer
  family := family
  sourceDtype := dtype
  sourceShape := shape
  runtimeLayout := layout
  owningGpu := gpu
  tpRank := gpu
  epRank := -1
  splitAxis := splitAxis
  shardIndex := gpu
  shardCount := 8
  expertFirst := -1
  expertCount := 0
  kvRatio := layerRatio layer
  kvRowsPerSlot := rows
  bytesEstimate := gpuBytes
  sourcePackFile := "-"
  sourceShardOffset := 0
  sourceByteLength := bytes
  kernelFamily := kernel

def attnKvRow (o : KvOptions) (layer gpuBytes bytes gpu : ℕ) : ContractRow :=
  kvRow "kv_shard" "kv.attn.blk." "attn_kv" (kvName o.kv) "[rows_per_slot x 512]"
    "tp_sharded_kv" "kv_dim" "ds4_tp_sharded_kv" layer (attnRows o.ctx layer) gpuBytes bytes gpu

def indexerKvRow (o : KvOptions) (layer gpuBytes bytes gpu : ℕ) : ContractRow :=
  kvRow "kv_shard" "kv.indexer.blk." "indexer_kv" (kvName o.kv) "[rows_per_slot x 128]"
    "tp_sharded_kv" "kv_dim" "ds4_tp_sharded_indexer_kv" layer (o.ctx / 4) gpuBytes bytes gpu

def compStateRow (layer gpuBytes bytes gpu : ℕ) : ContractRow :=
  kvRow "kv_comp_state" "kv.comp_state.blk." "compression_state" "f32" "[state]"
    "tp_sharded_state" "state_dim" "ds4_tp_sharded_compression_state" layer 0 gpuBytes bytes gpu

def emitAttnKv (o : KvOptions) (layer : ℕ) : Option (List ContractRow) := do
  let bytes ← layerAttnKvBytes layer o.ctx o.kv
  let gpuBytes ← checkedMul (ceilDiv bytes 8) o.slots
  some ((List.range 8).map (attnKvRow o layer gpuBytes bytes))

def emitIndexerKv (o : KvOptions) (layer : ℕ) : Option (List ContractRow) :=
  if layerRatio layer = 4 then do
    let bytes ← layerIndexerKvBytes layer o.ctx o.kv
    let gpuBytes ← checkedMul (ceilDiv bytes 8) o.slots
    some ((List.range 8).map (indexerKvRow o layer gpuBytes bytes))
  else some []

def emitCompState (o : KvOptions) (layer : ℕ) : Option (List ContractRow) :=
  if layerRatio layer ≠ 0 then do
    let bytes ← layerCompStateBytes layer o.ctx
    let gpuBytes ← checkedMul (ceilDiv bytes 8) o.slots
    some ((List.range 8).map (compStateRow layer gpuBytes bytes))
  else some []

/-- The pass of `emit_kv_records` over one layer; `none` where the tool ends. -/
def emitKvLayer (o : KvOptions) (layer : ℕ) : Option (List ContractRow) := do
  let attn ← emitAttnKv o layer
  let indexer ← emitIndexerKv o layer
  let comp ← emitCompState o layer
  some (attn ++ (indexer ++ comp))

/-- `emit_kv_records` over the layers 0 to 42. -/
def emitKvRecords (o : KvOptions) : Option (List ContractRow) :=
  ((List.range 43).mapM (emitKvLayer o)).map List.flatten

/-- The bytes that the rows of a type add up to for one GPU. -/
def ownBytes (recordType : String) (gpu : ℕ) (rows : List ContractRow) : ℕ :=
  ((rows.filter fun r => r.recordType = recordType ∧ r.owningGpu = (gpu : ℤ)).map
    (·.bytesEstimate)).sum

/-- A sum of the memory summary: what the rows of a type add up to for one GPU in 64 bits. -/
def gpuBytes (recordType : String) (gpu : ℕ) (rows : List ContractRow) : ℕ :=
  (rows.filter fun r => r.recordType = recordType ∧ r.owningGpu = (gpu : ℤ)).foldl
    (fun sum r => (sum + r.bytesEstimate) % 2 ^ 64) 0

section Totals
variable {recordType : String} {gpu : ℕ}

theorem ownBytes_append (rows rows' : List ContractRow) :
    ownBytes recordType gpu (rows ++ rows') =
      ownBytes recordType gpu rows + ownBytes recordType gpu rows' := by
  unfold ownBytes
  rw [List.filter_append, List.map_append, List.sum_append]

theorem ownBytes_flatten (groups : List (List ContractRow)) :
    ownBytes recordType gpu groups.flatten = (groups.map (ownBytes recordType gpu)).sum := by
  induction groups with
  | nil => rfl
  | cons rows groups ih =>
    rw [List.flatten_cons, ownBytes_append, ih, List.map_cons, List.sum_cons]

/-- Of one row for each GPU, the GPU has its own. -/
theorem ownBytes_own {row : ℕ → ContractRow} (hgpu : gpu < 8)
    (htype : ∀ g, (row g).recordType = recordType)
    (hown : ∀ g, (row g).owningGpu = (g : ℤ)) :
    ownBytes recordType gpu ((List.range 8).map row) = (row gpu).bytesEstimate := by
  have hrange : List.range 8 = [0, 1, 2, 3, 4, 5, 6, 7] := rfl
  unfold ownBytes
  rw [hrange]
  interval_cases gpu <;> simp [htype, hown]

theorem ownBytes_other {row : ℕ → ContractRow} (htype : ∀ g, (row g).recordType ≠ recordType) :
    ownBytes recordType gpu ((List.range 8).map row) = 0 := by
  unfold ownBytes
  rw [List.filter_eq_nil_iff.mpr]
  · rfl
  · intro r hr
    obtain ⟨g, -, rfl⟩ := List.mem_map.mp hr
    simp [htype g]

theorem gpuBytes_eq (rows : List ContractRow) :
    gpuBytes recordType gpu rows = ownBytes recordType gpu rows % 2 ^ 64 := by
  have hfold : ∀ (rows : List ContractRow) (sum : ℕ), sum < 2 ^ 64 →
      rows.foldl (fun sum r => (sum + r.bytesEstimate) % 2 ^ 64) sum =
        (sum + (rows.map (·.bytesEstimate)).sum) % 2 ^ 64 := by
    intro rows
    induction rows with
    | nil => exact fun sum hsum => (Nat.mod_eq_of_lt hsum).symm
    | cons r rows ih =>
      intro sum _
      rw [List.foldl_cons, ih _ (Nat.mod_lt _ (by norm_num)), List.map_cons, List.sum_cons,
        Nat.mod_add_mod, Nat.add_assoc]
  unfold gpuBytes ownBytes
  rw [hfold _ 0 (by norm_num), Nat.zero_add]

/-- What groups of rows add up to, where each adds up to the size of what it was made from. -/
theorem sum_of_mapM {α β : Type*} {f : α → Option β} {measure : β → ℕ} {size : α → ℕ}
    (l : List α) (bs : List β) (hsize : ∀ a ∈ l, ∀ b, f a = some b → measure b = size a)
    (hbs : l.mapM f = some bs) : (bs.map measure).sum = (l.map size).sum := by
  induction l generalizing bs with
  | nil =>
    obtain rfl := Option.some.inj hbs
    rfl
  | cons a l ih =>
    rw [List.mapM_cons] at hbs
    obtain ⟨b, hb, hbs⟩ := Option.bind_eq_some_iff.mp hbs
    obtain ⟨bs', hbs', hbs⟩ := Option.bind_eq_some_iff.mp hbs
    obtain rfl := Option.some.inj hbs
    rw [List.map_cons, List.sum_cons, List.map_cons, List.sum_cons,
      hsize a List.mem_cons_self b hb,
        ih bs' (fun a ha => hsize a (List.mem_cons_of_mem _ ha)) hbs']

end Totals

section Layers
variable {o : KvOptions} {layer gpu : ℕ} {rows : List ContractRow} {kv : KvDtype}

/-- The bytes of 128 values. -/
def blockBytes : KvDtype → ℕ
  | .f16 => 256
  | .f8E4M3 => 129
  | .q8_0 => 136

theorem bytesBlocks_some {elems blockElems size n : ℕ}
    (h : bytesBlocks elems blockElems size = some n) :
    n = (elems + blockElems - 1) % 2 ^ 64 / blockElems * size ∧ n < 2 ^ 64 := by
  obtain ⟨rfl, hfit⟩ := checkedMul_some.mp h
  exact ⟨rfl, hfit⟩

theorem kvValuesBytes_some {n blocks : ℕ} (hvalues : blocks * 128 < 2 ^ 64)
    (h : kvValuesBytes (blocks * 128) kv = some n) : n = blocks * blockBytes kv ∧ n < 2 ^ 64 := by
  cases kv with
  | f16 =>
    obtain ⟨rfl, hfit⟩ := checkedMul_some.mp h
    exact ⟨by show _ = blocks * 256; omega, hfit⟩
  | f8E4M3 =>
    obtain ⟨rfl, hfit⟩ := bytesBlocks_some h
    exact ⟨by show _ = blocks * 129; omega, hfit⟩
  | q8_0 =>
    obtain ⟨rfl, hfit⟩ := bytesBlocks_some h
    exact ⟨by show _ = blocks * 136; omega, hfit⟩

/-- Rounding a share up does not leave the 64 bits. -/
theorem ceilDiv_blocks {blocks : ℕ} (hfit : blocks * blockBytes kv < 2 ^ 64) :
    ceilDiv (blocks * blockBytes kv) 8 = (blocks * blockBytes kv + 7) / 8 := by
  apply ceilDiv_eq
  cases kv <;> simp only [blockBytes] at hfit ⊢ <;> omega

/-- The share of a GPU in the rows of a layer, rounded up once for the layer. -/
def attnShare (ctx : ℕ) (kv : KvDtype) (layer : ℕ) : ℕ :=
  (attnRows ctx layer * 4 * blockBytes kv + 7) / 8

def indexerShare (ctx : ℕ) (kv : KvDtype) : ℕ := (ctx / 4 * blockBytes kv + 7) / 8

theorem layerAttnKvBytes_share {n : ℕ} (h : layerAttnKvBytes layer o.ctx kv = some n) :
    ceilDiv n 8 = attnShare o.ctx kv layer := by
  obtain ⟨values, hvalues, h⟩ := Option.bind_eq_some_iff.mp h
  obtain ⟨rfl, hfit⟩ := checkedMul_some.mp hvalues
  have hblocks : attnRows o.ctx layer * 512 = attnRows o.ctx layer * 4 * 128 := by omega
  rw [hblocks] at hfit h
  obtain ⟨rfl, hlt⟩ := kvValuesBytes_some hfit h
  exact ceilDiv_blocks hlt

theorem layerIndexerKvBytes_share {n : ℕ} (hratio : layerRatio layer = 4)
    (h : layerIndexerKvBytes layer o.ctx kv = some n) :
    ceilDiv n 8 = indexerShare o.ctx kv := by
  unfold layerIndexerKvBytes at h
  rw [if_neg (by omega)] at h
  obtain ⟨values, hvalues, h⟩ := Option.bind_eq_some_iff.mp h
  obtain ⟨rfl, hfit⟩ := checkedMul_some.mp hvalues
  obtain ⟨rfl, hlt⟩ := kvValuesBytes_some hfit h
  exact ceilDiv_blocks hlt

/-- What the records of a layer count for one slot of a GPU. -/
def layerShare (ctx : ℕ) (kv : KvDtype) (layer : ℕ) : ℕ :=
  attnShare ctx kv layer + if layerRatio layer = 4 then indexerShare ctx kv else 0

theorem emitAttnKv_own (hgpu : gpu < 8) (h : emitAttnKv o layer = some rows) :
    ownBytes "kv_shard" gpu rows = attnShare o.ctx o.kv layer * o.slots ∧
      ownBytes "kv_comp_state" gpu rows = 0 := by
  obtain ⟨bytes, hbytes, h⟩ := Option.bind_eq_some_iff.mp h
  obtain ⟨own, hown, h⟩ := Option.bind_eq_some_iff.mp h
  obtain ⟨rfl, -⟩ := checkedMul_some.mp hown
  obtain rfl := Option.some.inj h
  constructor
  · rw [ownBytes_own hgpu, ← layerAttnKvBytes_share hbytes]
    · rfl
    · intro g
      rfl
    · intro g
      rfl
  · apply ownBytes_other
    intro g
    simp [attnKvRow, kvRow]

theorem emitIndexerKv_own (hgpu : gpu < 8) (h : emitIndexerKv o layer = some rows) :
    ownBytes "kv_shard" gpu rows =
        (if layerRatio layer = 4 then indexerShare o.ctx o.kv else 0) * o.slots ∧
      ownBytes "kv_comp_state" gpu rows = 0 := by
  unfold emitIndexerKv at h
  split_ifs at h ⊢ with hratio
  · obtain ⟨bytes, hbytes, h⟩ := Option.bind_eq_some_iff.mp h
    obtain ⟨own, hown, h⟩ := Option.bind_eq_some_iff.mp h
    obtain ⟨rfl, -⟩ := checkedMul_some.mp hown
    obtain rfl := Option.some.inj h
    constructor
    · rw [ownBytes_own hgpu, ← layerIndexerKvBytes_share hratio hbytes]
      · rfl
      · intro g
        rfl
      · intro g
        rfl
    · apply ownBytes_other
      intro g
      simp [indexerKvRow, kvRow]
  · obtain rfl := Option.some.inj h
    rw [Nat.zero_mul]
    exact ⟨rfl, rfl⟩

/-- The contract tool and the runtime agree about a layer that both know. -/
theorem layerRatio_eq (hlayer : layer < 43) : Runtime.layerRatio layer = layerRatio layer := by
  unfold Runtime.layerRatio layerRatio
  rw [if_neg (by omega : layer ≠ 43)]

theorem layerCompStateBytes_eq (hlayer : layer < 43) (ctx : ℕ) :
    Runtime.layerCompStateBytes ctx layer = layerCompStateBytes layer ctx := by
  unfold Runtime.layerCompStateBytes layerCompStateBytes
  rw [layerRatio_eq hlayer]

theorem emitCompState_own (hgpu : gpu < 8) (hlayer : layer < 43)
    (h : emitCompState o layer = some rows) :
    ownBytes "kv_shard" gpu rows = 0 ∧
      ownBytes "kv_comp_state" gpu rows = Runtime.compBytes o.ctx layer / 8 * o.slots := by
  unfold Runtime.compBytes
  rw [layerCompStateBytes_eq hlayer]
  unfold emitCompState at h
  split_ifs at h with hratio
  · obtain ⟨bytes, hbytes, h⟩ := Option.bind_eq_some_iff.mp h
    obtain ⟨own, hown, h⟩ := Option.bind_eq_some_iff.mp h
    obtain ⟨rfl, -⟩ := checkedMul_some.mp hown
    obtain rfl := Option.some.inj h
    constructor
    · apply ownBytes_other
      intro g
      simp [compStateRow, kvRow]
    · obtain ⟨hdvd, hlt⟩ :=
        Runtime.layerCompStateBytes_dvd ((layerCompStateBytes_eq hlayer o.ctx).trans hbytes)
      have hceil : ceilDiv bytes 8 = bytes / 8 := by
        unfold ceilDiv
        omega
      rw [ownBytes_own hgpu, hbytes]
      · show ceilDiv bytes 8 * o.slots = bytes / 8 * o.slots
        rw [hceil]
      · intro g
        rfl
      · intro g
        rfl
  · obtain rfl := Option.some.inj h
    push Not at hratio
    have hnone : layerCompStateBytes layer o.ctx = some 0 := by
      unfold layerCompStateBytes
      rw [hratio]
      rfl
    rw [hnone]
    simp [ownBytes]

theorem emitKvLayer_own (hgpu : gpu < 8) (hlayer : layer < 43)
    (h : emitKvLayer o layer = some rows) :
    ownBytes "kv_shard" gpu rows = layerShare o.ctx o.kv layer * o.slots ∧
      ownBytes "kv_comp_state" gpu rows = Runtime.compBytes o.ctx layer / 8 * o.slots := by
  obtain ⟨attn, hattn, h⟩ := Option.bind_eq_some_iff.mp h
  obtain ⟨indexer, hindexer, h⟩ := Option.bind_eq_some_iff.mp h
  obtain ⟨comp, hcomp, h⟩ := Option.bind_eq_some_iff.mp h
  obtain rfl := Option.some.inj h
  obtain ⟨hattnKv, hattnComp⟩ := emitAttnKv_own hgpu hattn
  obtain ⟨hindexerKv, hindexerComp⟩ := emitIndexerKv_own hgpu hindexer
  obtain ⟨hcompKv, hcompComp⟩ := emitCompState_own hgpu hlayer hcomp
  unfold layerShare
  rw [ownBytes_append, ownBytes_append, ownBytes_append, ownBytes_append, hattnKv, hattnComp,
    hindexerKv, hindexerComp, hcompKv, hcompComp, Nat.add_mul]
  simp

end Layers

end Ds4.Tp
