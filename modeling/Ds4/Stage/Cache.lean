import Ds4.Context.KvPlan
import Ds4.State.Calls

/-! The layer caches of a stage scheduler: how they are allocated and cleared. -/
namespace Ds4.Stage
open Context State State.Prog

/-- A device tensor of 32-bit values. -/
structure Tensor (α : Type) where
  values : ℕ
  row : ℕ → List α

def Tensor.bytes {α : Type} (t : Tensor α) : ℕ := t.values * sizeofFloat

/-- The device as a scheduler sees it: what its calls answer, and what a new tensor holds. -/
structure Device (F : Type) where
  zero : F
  low : F
  answers : ℕ → Bool
  garbage : ℕ → ℕ → List F
  garbageTopk : ℕ → ℕ → List ℕ

/-- The f32 tensors of a layer cache. -/
inductive CacheTensor
  | rawKv
  | attnStateKv
  | attnStateScore
  | attnCompKv
  | indexStateKv
  | indexStateScore
  | indexCompKv
  deriving DecidableEq

/-- `scheduler_layer_cache`. -/
structure LayerCache (F : Type) where
  tensor : CacheTensor → Option (Tensor F) := fun _ => none
  indexerTopk : Option (Tensor ℕ) := none
  rawCap : ℕ := 0
  rawWindow : ℕ := 0
  attnCompCap : ℕ := 0
  nAttnComp : ℕ := 0
  indexCompCap : ℕ := 0
  nIndexComp : ℕ := 0
  indexerTopK : ℕ := 0

def LayerCache.setTensor {F : Type} (c : LayerCache F) (name : CacheTensor)
    (t : Option (Tensor F)) :
    LayerCache F :=
  { c with tensor := Function.update c.tensor name t }

/-- `ds4_stage_scheduler_options`, as far as the caches depend on them. -/
structure SchedulerOptions where
  rawCap : ℕ
  rawWindow : ℕ
  attnCompCap : ℕ
  indexCompCap : ℕ
  indexerTopK : ℕ
  kvCtxTokens : ℕ
  kvActiveSlots : ℕ
  rawCap_lt : rawCap < 2 ^ 32
  rawWindow_lt : rawWindow < 2 ^ 32
  attnCompCap_lt : attnCompCap < 2 ^ 32
  indexCompCap_lt : indexCompCap < 2 ^ 32
  indexerTopK_lt : indexerTopK < 2 ^ 32
  kvCtxTokens_lt : kvCtxTokens < 2 ^ 64
  kvActiveSlots_lt : kvActiveSlots < 2 ^ 64

def orDefault (v default : ℕ) : ℕ := if v = 0 then default else v

namespace SchedulerOptions
variable (o : SchedulerOptions)

def rawCapacity : ℕ := orDefault o.rawCap swaRows

def window : ℕ := orDefault o.rawWindow swaRows

def attnCapacity : ℕ := orDefault o.attnCompCap 1

def indexCapacity : ℕ := orDefault o.indexCompCap 1

def topK : ℕ := orDefault o.indexerTopK 1

def ctxTokens : ℕ := orDefault o.kvCtxTokens 1048576

/-- The count is cut to 32 bits before it is checked. -/
def activeSlots : ℕ := orDefault o.kvActiveSlots 1 % 2 ^ 32

end SchedulerOptions

def compressRatio (layer : ℕ) : ℕ := (layerClassForLayer layer).compressRatio

/-- A ratio-4 layer has two lanes. -/
def coff (ratio : ℕ) : ℕ := if ratio = 4 then 2 else 1

def layerError (text : String) (layer : ℕ) : String := text ++ " for layer " ++ toString layer

section Primitives
variable {F : Type} (d : Device F)

/-- `ds4_gpu_tensor_alloc`: what the tensor holds is not said. -/
def allocTensor (name : CacheTensor) (values : ℕ) : Prog (LayerCache F) Bool := do
  let n ← readAt fun _ n => n
  let ok ← call d.answers
  write fun c => c.setTensor name (if ok then some ⟨values, d.garbage n⟩ else none)
  return ok

def allocTopk (values : ℕ) : Prog (LayerCache F) Bool := do
  let n ← readAt fun _ n => n
  let ok ← call d.answers
  write fun c => { c with indexerTopk := if ok then some ⟨values, d.garbageTopk n⟩ else none }
  return ok

/-- `ds4_gpu_tensor_fill_f32`, with the null check of its callers; each call fills a tensor of
`rows` rows. -/
def fillTensor (name : CacheTensor) (v : F) (rows width : ℕ) : Prog (LayerCache F) Bool := do
  match ← readAt fun c _ => c.tensor name with
  | none => return false
  | some t =>
      if t.values < rows * width then return false
      let ok ← call d.answers
      write fun c =>
        if ok then c.setTensor name (some { t with row := fun _ => List.replicate width v }) else c
      return ok

end Primitives

section Alloc
variable {F : Type} (d : Device F) (o : SchedulerOptions) (layer : ℕ)

/-- The fills of the attention compressor, up to the first that fails. -/
def fillAttnCompressor (ratio : ℕ) : Prog (LayerCache F) Bool := do
  let rows := coff ratio * ratio
  let width := coff ratio * headDim
  if !(← fillTensor d .attnStateKv d.zero rows width) then return false
  if !(← fillTensor d .attnStateScore d.low rows width) then return false
  fillTensor d .attnCompKv d.zero o.attnCapacity headDim

def fillIndexCompressor (ratio : ℕ) : Prog (LayerCache F) Bool := do
  let rows := 2 * ratio
  let width := 2 * indexerHeadDim
  if !(← fillTensor d .indexStateKv d.zero rows width) then return false
  if !(← fillTensor d .indexStateScore d.low rows width) then return false
  fillTensor d .indexCompKv d.zero o.indexCapacity indexerHeadDim

def allocLayerCache : Prog (LayerCache F) PUnit := do
  require (← allocTensor d .rawKv (o.rawCapacity * headDim))
    (layerError "raw KV allocation failed" layer)
  require (← fillTensor d .rawKv d.zero o.rawCapacity headDim)
    (layerError "raw KV init failed" layer)
  write fun c => { c with rawCap := o.rawCapacity, rawWindow := o.window }
  let ratio := compressRatio layer
  if ratio = 0 then return
  let stateValues := coff ratio * ratio * (coff ratio * headDim)
  let kv ← allocTensor d .attnStateKv stateValues
  let score ← allocTensor d .attnStateScore stateValues
  let comp ← allocTensor d .attnCompKv (o.attnCapacity * headDim)
  require (kv && score && comp) (layerError "attention cache allocation failed" layer)
  require (← fillAttnCompressor d o ratio) (layerError "attention cache init failed" layer)
  write fun c => { c with attnCompCap := o.attnCapacity }
  if ratio ≠ 4 then return
  let indexValues := 2 * ratio * (2 * indexerHeadDim)
  let kv ← allocTensor d .indexStateKv indexValues
  let score ← allocTensor d .indexStateScore indexValues
  let comp ← allocTensor d .indexCompKv (o.indexCapacity * indexerHeadDim)
  let topk ← allocTopk d o.topK
  require (kv && score && comp && topk) (layerError "indexer cache allocation failed" layer)
  require (← fillIndexCompressor d o ratio) (layerError "indexer cache init failed" layer)
  write fun c => { c with indexCompCap := o.indexCapacity, indexerTopK := o.topK }

def resetLayerCache : Prog (LayerCache F) PUnit := do
  require (← fillTensor d .rawKv d.zero o.rawCapacity headDim)
    (layerError "raw KV reset failed" layer)
  write fun c => { c with nAttnComp := 0, nIndexComp := 0 }
  let ratio := compressRatio layer
  if ratio = 0 then return
  let c ← readAt fun c _ => c
  require ((c.tensor .attnStateKv).isSome && (c.tensor .attnStateScore).isSome &&
    (c.tensor .attnCompKv).isSome) (layerError "attention cache reset failed" layer)
  require (← fillAttnCompressor d o ratio) (layerError "attention cache reset failed" layer)
  if ratio ≠ 4 then return
  require ((c.tensor .indexStateKv).isSome && (c.tensor .indexStateScore).isSome &&
    (c.tensor .indexCompKv).isSome) (layerError "indexer cache reset failed" layer)
  require (← fillIndexCompressor d o ratio) (layerError "indexer cache reset failed" layer)

end Alloc

/-! What a cache is when it is new. -/
section Fresh
variable {F : Type} (d : Device F) (o : SchedulerOptions)

/-- The rows of a tensor, their width and the value they are filled with; layers of another
kind have no such tensor. -/
def tensorShape (ratio : ℕ) : CacheTensor → Option (ℕ × ℕ × F)
  | .rawKv => some (o.rawCapacity, headDim, d.zero)
  | .attnStateKv =>
      if ratio = 0 then none else some (coff ratio * ratio, coff ratio * headDim, d.zero)
  | .attnStateScore =>
      if ratio = 0 then none else some (coff ratio * ratio, coff ratio * headDim, d.low)
  | .attnCompKv => if ratio = 0 then none else some (o.attnCapacity, headDim, d.zero)
  | .indexStateKv => if ratio = 4 then some (2 * ratio, 2 * indexerHeadDim, d.zero) else none
  | .indexStateScore => if ratio = 4 then some (2 * ratio, 2 * indexerHeadDim, d.low) else none
  | .indexCompKv => if ratio = 4 then some (o.indexCapacity, indexerHeadDim, d.zero) else none

def filled (s : ℕ × ℕ × F) : Tensor F :=
  ⟨s.1 * s.2.1, fun _ => List.replicate s.2.1 s.2.2⟩

/-- The cache a layer starts with; what the selection of the indexer holds is not said. -/
structure IsFresh (layer : ℕ) (c : LayerCache F) : Prop where
  tensor : ∀ name, c.tensor name = (tensorShape d o (compressRatio layer) name).map filled
  topk : c.indexerTopk.map Tensor.values =
    if compressRatio layer = 4 then some o.topK else none
  rawCap : c.rawCap = o.rawCapacity
  rawWindow : c.rawWindow = o.window
  attnCompCap : c.attnCompCap = if compressRatio layer = 0 then 0 else o.attnCapacity
  indexCompCap : c.indexCompCap = if compressRatio layer = 4 then o.indexCapacity else 0
  indexerTopK : c.indexerTopK = if compressRatio layer = 4 then o.topK else 0
  nAttnComp : c.nAttnComp = 0
  nIndexComp : c.nIndexComp = 0

/-- A cache of the shape that a layer needs, whatever it holds. -/
structure IsShaped (layer : ℕ) (c : LayerCache F) : Prop where
  tensor : ∀ name, (c.tensor name).map Tensor.values =
    (tensorShape d o (compressRatio layer) name).map fun s => s.1 * s.2.1
  topk : c.indexerTopk.map Tensor.values =
    if compressRatio layer = 4 then some o.topK else none
  rawCap : c.rawCap = o.rawCapacity
  rawWindow : c.rawWindow = o.window
  attnCompCap : c.attnCompCap = if compressRatio layer = 0 then 0 else o.attnCapacity
  indexCompCap : c.indexCompCap = if compressRatio layer = 4 then o.indexCapacity else 0
  indexerTopK : c.indexerTopK = if compressRatio layer = 4 then o.topK else 0

end Fresh

end Ds4.Stage
