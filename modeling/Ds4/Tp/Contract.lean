import Ds4.Tp.Words
import Mathlib.Data.List.Infix

/-! The pack contract: the rows that the contract tool writes for each GPU, and where the
runtime reads a row's bytes. -/
namespace Ds4.Tp

/-- A row of the pack index; `dims` is what `parse_shape2_u64` reads from the shape. -/
structure PackRow where
  semantic : String
  source : String
  dtype : String
  shape : String
  dims : Option (ℕ × ℕ)
  layout : String
  layer : ℤ
  kernel : String
  bytes : ℕ
  shardFile : String
  shardOffset : ℕ
  bytes_lt : bytes < 2 ^ 64
  shardOffset_lt : shardOffset < 2 ^ 64

/-- A row of the TurboMind index. -/
structure TmRow where
  semantic : String
  source : String
  dtype : String
  shape : String
  layout : String
  layer : ℤ
  kernel : String
  expertsTotal : ℕ
  weightPer : ℕ
  scalePer : ℕ
  shardFile : String
  weightOffset : ℕ
  sourceLen : ℕ
  expertsTotal_lt : expertsTotal < 2 ^ 64

structure ContractRow where
  recordType : String
  tensorId : String
  sourceName : String
  layer : ℤ
  family : String
  sourceDtype : String
  sourceShape : String
  runtimeLayout : String
  owningGpu : ℤ
  tpRank : ℤ
  epRank : ℤ
  splitAxis : String
  shardIndex : ℤ
  shardCount : ℤ
  expertFirst : ℤ
  expertCount : ℤ
  kvRatio : ℤ
  kvRowsPerSlot : ℕ
  bytesEstimate : ℕ
  sourcePackFile : String
  sourceShardOffset : ℕ
  sourceByteLength : ℕ
  kernelFamily : String
  deriving DecidableEq

/-- `strstr`. -/
def contains (s needle : String) : Bool := decide (needle.toList <:+: s.toList)

def isExpertSourceTensor (semantic source : String) : Bool :=
  contains semantic "_exps.weight" || contains source "_exps.weight" ||
    contains semantic "ffn_gate_up_exps.weight"

def isReplicatedControl (dtype layout kernelFamily : String) : Bool :=
  dtype == "f32" || dtype == "i32" || contains layout "control" ||
    contains kernelFamily "control" || contains kernelFamily "router"

def denseSplitAxis (semantic kernelFamily : String) : String :=
  if contains semantic "token_embd" || contains semantic "output" then "vocab"
  else if contains kernelFamily "attention" then "attention_projection"
  else if contains kernelFamily "shared" then "ffn_shared_projection"
  else "tensor_dim"

def controlRow (r : PackRow) (gpu : ℕ) : ContractRow where
  recordType := "replicated_control"
  tensorId := r.semantic
  sourceName := r.source
  layer := r.layer
  family := "control_or_router"
  sourceDtype := r.dtype
  sourceShape := r.shape
  runtimeLayout := r.layout
  owningGpu := gpu
  tpRank := gpu
  epRank := -1
  splitAxis := "replicate"
  shardIndex := gpu
  shardCount := 8
  expertFirst := -1
  expertCount := 0
  kvRatio := -1
  kvRowsPerSlot := 0
  bytesEstimate := r.bytes
  sourcePackFile := r.shardFile
  sourceShardOffset := r.shardOffset
  sourceByteLength := r.bytes
  kernelFamily := r.kernel

def denseRow (r : PackRow) (gpu : ℕ) : ContractRow where
  recordType := "dense_tp"
  tensorId := r.semantic
  sourceName := r.source
  layer := r.layer
  family := "dense_or_embedding"
  sourceDtype := r.dtype
  sourceShape := r.shape
  runtimeLayout := r.layout
  owningGpu := gpu
  tpRank := gpu
  epRank := -1
  splitAxis := denseSplitAxis r.semantic r.kernel
  shardIndex := gpu
  shardCount := 8
  expertFirst := -1
  expertCount := 0
  kvRatio := -1
  kvRowsPerSlot := 0
  bytesEstimate := ceilDiv r.bytes 8
  sourcePackFile := r.shardFile
  sourceShardOffset := r.shardOffset
  sourceByteLength := r.bytes
  kernelFamily := r.kernel

/-- The F16 shard that is kept beside a dense row; the tool ends where it does not fit. -/
def expandedF16ShardBytes : Option (ℕ × ℕ) → Option ℕ
  | none => some 0
  | some (cols, rows) => (checkedMul cols (ceilDiv rows 8)).bind fun n => checkedMul n 2

/-- `emit_pack_row`: `none` where the tool ends. -/
def emitPackRow (r : PackRow) : Option (List ContractRow) :=
  if isExpertSourceTensor r.semantic r.source then some []
  else if isReplicatedControl r.dtype r.layout r.kernel then
    some ((List.range 8).map (controlRow r))
  else (expandedF16ShardBytes r.dims).map fun _ => (List.range 8).map (denseRow r)

/-- The experts of one GPU: their first id and their number. -/
def expertShare (expertsTotal gpu : ℕ) : ℕ × ℕ :=
  let expertsPerGpu := ceilDiv expertsTotal 8
  let first := gpu * expertsPerGpu % 2 ^ 64
  if first < expertsTotal then (first, min (expertsTotal - first) expertsPerGpu) else (first, 0)

def expertRow (r : TmRow) (gpu bytes : ℕ) : ContractRow where
  recordType := "ep_expert"
  tensorId := r.semantic
  sourceName := r.source
  layer := r.layer
  family := "routed_expert"
  sourceDtype := r.dtype
  sourceShape := r.shape
  runtimeLayout := r.layout
  owningGpu := gpu
  tpRank := -1
  epRank := gpu
  splitAxis := "expert_id"
  shardIndex := gpu
  shardCount := 8
  expertFirst := toInt (expertShare r.expertsTotal gpu).1
  expertCount := toInt (expertShare r.expertsTotal gpu).2
  kvRatio := -1
  kvRowsPerSlot := 0
  bytesEstimate := bytes
  sourcePackFile := r.shardFile
  sourceShardOffset := r.weightOffset
  sourceByteLength := r.sourceLen
  kernelFamily := r.kernel

/-- `emit_tm_row`: `none` where the tool ends. -/
def emitTmRow (r : TmRow) : Option (List ContractRow) :=
  (List.range 8).mapM fun gpu =>
    (checkedMul (expertShare r.expertsTotal gpu).2 ((r.weightPer + r.scalePer) % 2 ^ 64)).map
      (expertRow r gpu)

/-- Where the runtime finds the bytes of a row. -/
def physicalRowOffset (r : ContractRow) : ℕ :=
  if r.recordType = "dense_tp" ∧ 0 ≤ r.shardIndex ∧ 1 < r.shardCount ∧
      r.bytesEstimate * r.shardCount.toNat % 2 ^ 64 ≤ r.sourceByteLength then
    (r.sourceShardOffset + r.shardIndex.toNat * r.bytesEstimate % 2 ^ 64) % 2 ^ 64
  else r.sourceShardOffset

end Ds4.Tp
