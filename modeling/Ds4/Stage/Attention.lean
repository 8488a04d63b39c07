import Ds4.Engine.Compressor
import Ds4.Stage.Cache

/-! The decode cache of a layer: the raw row, the two compressors and what attention reads. -/
namespace Ds4.Stage
open Context State State.Prog Engine

/-- What a layer computes from its input before the cache is touched. -/
structure Projected (F : Type) where
  attnNorm : List F
  qaNorm : List F
  q : List F
  kv : List F

/-- `ds4_attention_inputs`. -/
structure AttentionInputs where
  nRaw : ℕ
  rawCap : ℕ
  rawStart : ℕ
  nCompressed : ℕ := 0
  indexedTopk : Option (List ℕ) := none

/-- The numeric kernels of the layers; what they compute is not looked into, the pooling
apart. -/
structure Kernels (F : Type) where
  ops : FloatOps F
  isZero : F → Bool
  nVocab : ℕ
  embed : ℕ → ℕ → List F
  project : ℕ → (ℕ → List F) → ℕ → Projected F
  quantizeKv : List F → List F
  f16Round : List F → List F
  attnRow : ℕ → List F → ℕ → StateRow F
  indexRow : ℕ → List F → ℕ → StateRow F
  compressorNorm : ℕ → ℕ → List F → List F
  compressorRope : ℕ → ℕ → List F → List F
  selectTopk : ℕ → Projected F → ℕ → List (List F) → ℕ → List ℕ
  layerOut : ℕ → (ℕ → List F) → Projected F → List (List F) → List (List F) →
    Option (List ℕ) → ℕ → ℕ → ℕ → List F

/-- One more, in 32 bits. -/
def next32 (position : ℕ) : ℕ := (position + 1) % 2 ^ 32

section Pool
variable {F : Type} (K : Kernels F)

/-- The candidates of a column: the rows of the state, for ratio 4 the first lane of the
previous window and the second lane of the current one. -/
def poolCandidates (dim ratio : ℕ) (kv score : ℕ → List F) (j : ℕ) : List (F × F) :=
  let at' (i j : ℕ) : F × F := ((kv i).getD j K.ops.zero, (score i).getD j K.ops.zero)
  if ratio = 4 then
    ((List.range 4).map fun r => at' r j) ++ (List.range 4).map fun r => at' (ratio + r) (dim + j)
  else (List.range ratio).map fun r => at' r j

/-- `compressor_update_pool_kernel`. -/
def poolKernel (dim ratio : ℕ) (kv score : ℕ → List F) : List F :=
  (List.range dim).map fun j =>
    let cand := poolCandidates K dim ratio kv score j
    let top := cand.foldl (fun m c => if K.ops.lt m c.2 then c.2 else m) K.ops.negInf
    let acc := cand.foldl (fun (acc : F × F) c =>
      let w := K.ops.exp (K.ops.sub c.2 top)
      (K.ops.add acc.1 w, K.ops.add acc.2 (K.ops.mul c.1 w))) (K.ops.zero, K.ops.zero)
    if K.isZero acc.1 then K.ops.zero else K.ops.div acc.2 acc.1

end Pool

/-- The three tensors of a compressor. -/
structure LaneTensors where
  kv : CacheTensor
  score : CacheTensor
  comp : CacheTensor

def attnLane : LaneTensors := ⟨.attnStateKv, .attnStateScore, .attnCompKv⟩

def indexLane : LaneTensors := ⟨.indexStateKv, .indexStateScore, .indexCompKv⟩

namespace LayerCache
variable {F : Type} (c : LayerCache F)

def rows (name : CacheTensor) : ℕ → List F := (c.tensor name).elim (fun _ => []) Tensor.row

def mapRows (name : CacheTensor) (f : (ℕ → List F) → ℕ → List F) : LayerCache F :=
  c.setTensor name ((c.tensor name).map fun t => { t with row := f t.row })

def mapRow (name : CacheTensor) (i : ℕ) (f : List F → List F) : LayerCache F :=
  c.mapRows name fun row => Function.update row i (f (row i))

/-- `compressor_store_kernel`, of one token. -/
def storeState (lane : LaneTensors) (ratio position : ℕ) (row : StateRow F) : LayerCache F :=
  let i := if ratio = 4 then ratio + position % ratio else position % ratio
  (c.mapRow lane.kv i fun _ => row.kv).mapRow lane.score i fun _ => row.score

/-- `compressor_shift_ratio4_kernel`: the current lane also becomes the previous one. -/
def shiftState (lane : LaneTensors) : LayerCache F :=
  let shift (row : ℕ → List F) (i : ℕ) : List F := if i < 4 then row (4 + i) else row i
  (c.mapRows lane.kv shift).mapRows lane.score shift

def setTopk (selected : List ℕ) : LayerCache F :=
  { c with indexerTopk := c.indexerTopk.map fun t => { t with row := fun _ => selected } }

/-- The raw rows that attention goes through. -/
def rawRows (inputs : AttentionInputs) : List (List F) :=
  (List.range inputs.nRaw).map fun i => c.rows .rawKv ((inputs.rawStart + i) % inputs.rawCap)

def compressedRows (name : CacheTensor) (n : ℕ) : List (List F) :=
  (List.range n).map fun i => c.rows name i

end LayerCache

section Prepare
variable {F : Type} (K : Kernels F) (d : Device F)

/-- `ds4_gpu_compressor_update_tensor`; its size checks hold of every cache that was allocated. -/
def compressorUpdate (lane : LaneTensors) (layer dim ratio position compRow : ℕ)
    (row : StateRow F) (error : String) : Prog (LayerCache F) PUnit := do
  launch d.answers (fun c => c.storeState lane ratio position row) error
  if next32 position % ratio ≠ 0 then return
  require (← call d.answers) error
  launch d.answers (fun c => c.mapRow lane.comp compRow fun _ =>
    poolKernel K dim ratio (c.rows lane.kv) (c.rows lane.score)) error
  launch d.answers (fun c => c.mapRow lane.comp compRow (K.compressorNorm layer dim)) error
  launch d.answers
    (fun c => c.mapRow lane.comp compRow (K.compressorRope layer (position + 1 - ratio))) error
  if ratio ≠ 4 then return
  launch d.answers (fun c => c.shiftState lane) error

/-- The emitted row of the attention compressor is rounded, and counted. -/
def roundAttnRow (fp8 : Bool) (compRow : ℕ) : Prog (LayerCache F) PUnit := do
  require (← call d.answers) "failed to view emitted attention compressed row"
  let error := "attention compressed row KV round-trip failed"
  if fp8 then launch d.answers (fun c => c.mapRow .attnCompKv compRow K.quantizeKv) error
  launch d.answers (fun c => c.mapRow .attnCompKv compRow K.f16Round) error
  write fun c => { c with nAttnComp := c.nAttnComp + 1 }

def roundIndexRow (compRow : ℕ) : Prog (LayerCache F) PUnit := do
  let error := "indexer compressed row F16 round-trip failed"
  require (← call d.answers) error
  launch d.answers (fun c => c.mapRow .indexCompKv compRow K.f16Round) error
  write fun c => { c with nIndexComp := c.nIndexComp + 1 }

/-- The raw row of a position, and the span of rows that attention reads. -/
def storeRaw (fp8 : Bool) (proj : Projected F) (position : ℕ) :
    Prog (LayerCache F) AttentionInputs := do
  let window ← readAt fun c _ => orDefault c.rawWindow 128
  let cap ← readAt fun c _ => c.rawCap
  let n := min (if next32 position < window then next32 position else window) cap
  let error := "decode cache raw KV update failed"
  if fp8 then require (← call d.answers) error
  launch d.answers (fun c => c.mapRow .rawKv (position % cap) fun _ =>
    if fp8 then K.quantizeKv proj.kv else proj.kv) error
  return { nRaw := n, rawCap := cap, rawStart := (position + cap + 1 - n) % 2 ^ 32 % cap }

/-- The attention compressor of a step; without room for a row it fails before it starts. -/
def stepAttnCompressor (fp8 : Bool) (layer : ℕ) (proj : Projected F) (position : ℕ) :
    Prog (LayerCache F) PUnit := do
  let ratio := compressRatio layer
  let emit := next32 position % ratio = 0
  let n ← readAt fun c _ => c.nAttnComp
  let cap ← readAt fun c _ => c.attnCompCap
  if emit ∧ cap ≤ n then throw "decode cache attention compressed capacity exceeded"
  require (← call d.answers) "failed to allocate attention compressor scratch"
  require (← call d.answers) "attention compressor projection failed"
  compressorUpdate K d attnLane layer headDim ratio position n
    (K.attnRow layer proj.attnNorm position) "attention compressor update failed"
  if emit then roundAttnRow K d fp8 n

def stepIndexCompressor (layer : ℕ) (proj : Projected F) (position : ℕ) :
    Prog (LayerCache F) PUnit := do
  let ratio := compressRatio layer
  let emit := next32 position % ratio = 0
  let n ← readAt fun c _ => c.nIndexComp
  let cap ← readAt fun c _ => c.indexCompCap
  if emit ∧ cap ≤ n then throw "decode cache indexer compressed capacity exceeded"
  require (← call d.answers) "failed to allocate indexer compressor scratch"
  require (← call d.answers) "indexer compressor projection failed"
  compressorUpdate K d indexLane layer indexerHeadDim ratio position n
    (K.indexRow layer proj.attnNorm position) "indexer compressor update failed"
  if emit then roundIndexRow K d n

/-- The rows that the indexer selects, where there are more than it may. -/
def selectRows (layer : ℕ) (proj : Projected F) (position : ℕ) :
    Prog (LayerCache F) (Option (List ℕ)) := do
  let n ← readAt fun c _ => c.nIndexComp
  let topK ← readAt fun c _ => orDefault c.indexerTopK 512
  if n ≤ topK then return none
  require (← call d.answers) "failed to allocate indexer top-k scratch"
  require (← call d.answers) "indexer top-k sequence failed"
  let rows ← readAt fun c _ => c.compressedRows .indexCompKv n
  let selected := K.selectTopk layer proj position rows topK
  launch d.answers (fun c => c.setTopk selected) "indexer top-k sequence failed"
  return some selected

/-- `prepare_decode_cache_attention`. -/
def prepareDecodeCacheAttention (fp8 : Bool) (layer : ℕ) (proj : Projected F) (position : ℕ) :
    Prog (LayerCache F) AttentionInputs := do
  let inputs ← storeRaw K d fp8 proj position
  if compressRatio layer = 0 then return inputs
  stepAttnCompressor K d fp8 layer proj position
  let n ← readAt fun c _ => c.nAttnComp
  let inputs := { inputs with nCompressed := n }
  if compressRatio layer ≠ 4 then return inputs
  stepIndexCompressor K d layer proj position
  let selected ← selectRows K d layer proj position
  return { inputs with indexedTopk := selected }

end Prepare

/-- `validate_decode_cache`; `true` is a good cache. -/
def validateDecodeCache {F : Type} (layer : ℕ) (c : LayerCache F) : Except String PUnit :=
  let holds (name : CacheTensor) (values : ℕ) : Bool :=
    (c.tensor name).elim false fun t => values ≤ t.values
  let ratio := compressRatio layer
  let stateValues := coff ratio * ratio * (coff ratio * headDim)
  let indexValues := 2 * ratio * (2 * indexerHeadDim)
  let topK := orDefault c.indexerTopK 512
  if (c.tensor .rawKv).isNone ∨ c.rawCap = 0 then
    .error "decode cache requires raw KV storage"
  else if !holds .rawKv (c.rawCap * headDim) then
    .error "decode cache raw KV tensor is too small"
  else if ratio = 0 then .ok ⟨⟩
  else if !holds .attnStateKv stateValues || !holds .attnStateScore stateValues ||
      c.attnCompCap = 0 || !holds .attnCompKv (c.attnCompCap * headDim) then
    .error "decode cache attention compressor tensors are invalid"
  else if c.attnCompCap < c.nAttnComp then
    .error "decode cache attention compressed count exceeds capacity"
  else if ratio ≠ 4 then .ok ⟨⟩
  else if !holds .indexStateKv indexValues || !holds .indexStateScore indexValues ||
      c.indexCompCap = 0 || !holds .indexCompKv (c.indexCompCap * indexerHeadDim) ||
      512 < topK || !c.indexerTopk.elim false (fun t => topK ≤ t.values) then
    .error "decode cache ratio-4 indexer tensors are invalid"
  else if c.indexCompCap < c.nIndexComp then
    .error "decode cache indexer compressed count exceeds capacity"
  else .ok ⟨⟩

end Ds4.Stage
