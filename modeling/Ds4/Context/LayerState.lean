import Ds4.Context.Binding

/-! The state of a layer: its tensors as matrices, checked against one another. -/
namespace Ds4.Context
open Ds4.Packs (PackEntry TmEntry mul64)

/-- A check that ends a call with its error. -/
def check (bad : Prop) [Decidable bad] (err : String) : Except String Unit :=
  if bad then .error err else .ok ()

@[simp] theorem check_eq_ok {bad : Prop} [Decidable bad] {err : String} {u : Unit} :
    check bad err = .ok u ↔ ¬ bad := by
  unfold check
  split_ifs with h
  · simp [h]
  · simp [h]

/-- `packed_row_bytes`. -/
def packedRowBytes (ncols blockElems blockBytes : ℕ) : ℕ :=
  if ncols = 0 ∨ ncols % blockElems ≠ 0 then 0
  else if maxU64 / blockBytes < ncols / blockElems then 0
  else ncols / blockElems * blockBytes

def f8E4m3B128RowBytes (ncols : ℕ) : ℕ := packedRowBytes ncols 128 129

def mxfp4RowBytes (ncols : ℕ) : ℕ := packedRowBytes ncols 32 17

/-- `ds4_bound_matrix`. -/
structure BoundMatrix where
  binding : TensorBinding
  rows : ℕ
  cols : ℕ
  planes : ℕ
  rowBytes : ℕ
  bytes : ℕ
  rel : ℕ

/-- The conversion to 32 bits. -/
def u32 (n : ℕ) : ℕ := n % 2 ^ 32

def TensorBinding.dtypeIs (b : TensorBinding) (dtype : String) : Prop := b.sourceDtype = lit dtype

instance (b : TensorBinding) (dtype : String) : Decidable (b.dtypeIs dtype) :=
  inferInstanceAs (Decidable (b.sourceDtype = lit dtype))

/-- A matrix of whole rows: `make_f32_matrix` and its siblings differ in the dtype and in the bytes
of a row. -/
def makeMatrix (dtype : String) (rowBytes : ℕ → ℕ) (b : TensorBinding) (label : String) :
    Except String BoundMatrix :=
  if b.shape.length ≠ 2 ∨ ¬ b.dtypeIs dtype then
    .error (label ++ " must be a 2D " ++ dtype ++ " tensor")
  else
    let cols := u32 (b.dim 0)
    let rows := u32 (b.dim 1)
    let bytes := mul64 rows (rowBytes cols)
    if bytes ≠ b.byteLength then
      .error (label ++ " byte length mismatch: expected " ++ toString bytes ++ " got " ++
        toString b.byteLength)
    else .ok ⟨b, rows, cols, 1, rowBytes cols, bytes, 0⟩

def makeF32Matrix : TensorBinding → String → Except String BoundMatrix :=
  makeMatrix "f32" fun cols => mul64 cols 4

def makeF8Matrix : TensorBinding → String → Except String BoundMatrix :=
  makeMatrix "f8_e4m3_b128" f8E4m3B128RowBytes

def makeBf16Matrix : TensorBinding → String → Except String BoundMatrix :=
  makeMatrix "bf16" fun cols => mul64 cols 2

def makeMxfp4ExpertMatrix (b : TensorBinding) (expert : ℕ) (label : String) :
    Except String BoundMatrix :=
  if b.shape.length ≠ 3 ∨ ¬ b.dtypeIs "mxfp4" then
    .error (label ++ " must be a 3D mxfp4 expert tensor")
  else if b.dim 2 ≤ expert then
    .error (label ++ " expert " ++ toString expert ++ " outside expert count " ++
      toString (b.dim 2))
  else
    let cols := u32 (b.dim 0)
    let rows := u32 (b.dim 1)
    let bytes := mul64 rows (mxfp4RowBytes cols)
    let rel := mul64 expert bytes
    if b.byteLength < rel ∨ b.byteLength - rel < bytes then
      .error (label ++ " expert span overflows binding")
    else .ok ⟨b, rows, cols, u32 (b.dim 2), mxfp4RowBytes cols, bytes, rel⟩

/-! The routed experts: from the TurboMind index where it has all of them, else from the pack. -/
section Routed
variable (ctx : PackBindContext) (layer : ℤ)

/-- The flag of `tm_gpu_view` that its layout sets. -/
def TurbomindBinding.gateUpInterleaved (b : TurbomindBinding) : Bool :=
  strstr b.runtimeLayout (lit "turbomind_mxfp4_grouped_gate_up_interleaved")

/-- A TurboMind tensor in place of a row of the pack. -/
def makeTurbomindRoutedBinding (b : TurbomindBinding) (label : String) :
    Except String TensorBinding :=
  if b.shape.length ≠ 3 ∨ b.sourceDtype ≠ lit "mxfp4" then
    .error (label ++ " must be a 3D TurboMind MXFP4 tensor")
  else if b.expertsPacked < b.expertsTotal then
    .error (label ++ " TurboMind binding packs only " ++ toString b.expertsPacked ++ "/" ++
      toString b.expertsTotal ++ " experts")
  else
    .ok
      { semanticTensorId := b.semanticTensorId
        sourceName := b.sourceName
        sourceDtype := b.sourceDtype
        sourceShape := b.sourceShape
        runtimeLayout := b.runtimeLayout
        kernelFamily := b.kernelFamily
        shardFile := b.sidecarFile
        owningGpu := b.owningGpu
        layerId := b.layerId
        scaleOffset := -1
        sourceOffset := 0
        byteLength := b.sourceByteLength
        shardOffset := b.sourceShardOffset
        policy := b.policy
        shape := b.shape }

/-- One half of a fused tensor. -/
def makeTurbomindFusedGateUpSyntheticBinding (b : TurbomindBinding) (label : String) :
    Except String TensorBinding := do
  let out ← makeTurbomindRoutedBinding b label
  check (b.n = 0 ∨ b.n % 2 ≠ 0 ∨ b.shape.length ≠ 3 ∨ b.dim 1 ≠ b.n ∨ b.dim 0 ≠ b.k)
    (label ++ " must be a fused gate_up tensor with even N")
  return { out with
    shape := out.shape.set 1 (b.n / 2)
    byteLength := b.sourceByteLength / 2 }

/-- The halves of a layer that two GPUs share. -/
structure TurbomindTp2 where
  gateUp0 : TurbomindBinding
  gateUp1 : TurbomindBinding
  down0 : TurbomindBinding
  down1 : TurbomindBinding

/-- The gate and up tensors of a TurboMind layer: fused, separate, or both. -/
inductive TurbomindGateUp
  | fused (gateUp : TurbomindBinding)
  | separate (gate up : TurbomindBinding)
  | both (gateUp gate up : TurbomindBinding)

/-- The TurboMind tensors of a layer whose experts are bound to them. -/
structure TurbomindRouted where
  gateUp : TurbomindGateUp
  down : TurbomindBinding
  tp2 : Option TurbomindTp2

/-- The routed tensors of a layer. -/
structure RoutedTensors where
  gate : TensorBinding
  up : TensorBinding
  down : TensorBinding
  turbomind : Option TurbomindRouted

/-- All four halves, none of them, or an error. -/
def bindTurbomindTp2 : Except String (Option TurbomindTp2) :=
  match requireLayerTurbomindBinding ctx layer "ffn_gate_up_exps.tp0.weight",
      requireLayerTurbomindBinding ctx layer "ffn_gate_up_exps.tp1.weight",
      requireLayerTurbomindBinding ctx layer "ffn_down_exps.tp0.weight",
      requireLayerTurbomindBinding ctx layer "ffn_down_exps.tp1.weight" with
  | .ok gateUp0, .ok gateUp1, .ok down0, .ok down1 => .ok (some ⟨gateUp0, gateUp1, down0, down1⟩)
  | .error _, .error _, .error _, .error _ => .ok none
  | _, _, _, _ =>
      .error ("partial TurboMind TP2 routed expert binding for layer " ++ toString layer)

/-- The routed tensors of the pack. -/
def bindSourceExperts : Except String RoutedTensors := do
  let gate ← requireLayerTensorBinding ctx layer "ffn_gate_exps.weight"
  let up ← requireLayerTensorBinding ctx layer "ffn_up_exps.weight"
  let down ← requireLayerTensorBinding ctx layer "ffn_down_exps.weight"
  return ⟨gate, up, down, none⟩

/-- The gate and up tensors that stand in for a fused one. -/
def fusedGateUp (b : TurbomindBinding) : Except String (TensorBinding × TensorBinding) := do
  let gate ← makeTurbomindFusedGateUpSyntheticBinding b "ffn_gate_up_exps.weight"
  let up ← makeTurbomindFusedGateUpSyntheticBinding b "ffn_gate_up_exps.weight"
  return (gate, up)

def separateGateUp (gate up : TurbomindBinding) :
    Except String (TensorBinding × TensorBinding) := do
  let gate ← makeTurbomindRoutedBinding gate "ffn_gate_exps.weight"
  let up ← makeTurbomindRoutedBinding up "ffn_up_exps.weight"
  return (gate, up)

/-- Separate gates and ups are written over fused ones. -/
def TurbomindGateUp.bindings : TurbomindGateUp → Except String (TensorBinding × TensorBinding)
  | .fused gateUp => fusedGateUp gateUp
  | .separate gate up => separateGateUp gate up
  | .both gateUp gate up => do
      let _ ← fusedGateUp gateUp
      separateGateUp gate up

/-- The routed tensors of the TurboMind index. -/
def bindTurbomindExperts (t : TurbomindRouted) : Except String RoutedTensors := do
  let (gate, up) ← t.gateUp.bindings
  let down ← makeTurbomindRoutedBinding t.down "ffn_down_exps.weight"
  return ⟨gate, up, down, some t⟩

/-- What of the gate and up tensors is in the TurboMind index. -/
def turbomindGateUp (gate up gateUp : Option TurbomindBinding) : Option TurbomindGateUp :=
  match gateUp, gate, up with
  | none, some gate, some up => some (.separate gate up)
  | some gateUp, some gate, some up => some (.both gateUp gate up)
  | some gateUp, _, _ => some (.fused gateUp)
  | none, _, _ => none

def bindRoutedExpertTensors : Except String RoutedTensors := do
  let gate := (requireLayerTurbomindBinding ctx layer "ffn_gate_exps.weight").toOption
  let up := (requireLayerTurbomindBinding ctx layer "ffn_up_exps.weight").toOption
  let gateUp := (requireLayerTurbomindBinding ctx layer "ffn_gate_up_exps.weight").toOption
  let down := (requireLayerTurbomindBinding ctx layer "ffn_down_exps.weight").toOption
  let tp2 ← bindTurbomindTp2 ctx layer
  match turbomindGateUp gate up gateUp, down with
  | some gateUp, some down => do
      check (gate.isSome ≠ up.isSome)
        ("partial TurboMind routed expert binding for layer " ++ toString layer)
      bindTurbomindExperts ⟨gateUp, down, tp2⟩
  | _, _ => bindSourceExperts ctx layer

end Routed

/-- The tensors that every layer has beside its routed experts. -/
structure FixedTensors where
  sharedGate : TensorBinding
  sharedUp : TensorBinding
  sharedDown : TensorBinding
  router : TensorBinding
  attnQA : TensorBinding
  attnQB : TensorBinding
  attnKvLatent : TensorBinding
  attnOutputA : TensorBinding
  attnOutputB : TensorBinding
  attnNorm : TensorBinding
  attnQANorm : TensorBinding
  attnKvANorm : TensorBinding
  attnSinks : TensorBinding
  hcAttnFn : TensorBinding
  hcAttnBase : TensorBinding
  hcAttnScale : TensorBinding
  ffnNorm : TensorBinding
  hcFfnFn : TensorBinding
  hcFfnBase : TensorBinding
  hcFfnScale : TensorBinding

def bindFixedTensors (ctx : PackBindContext) (layer : ℤ) : Except String FixedTensors := do
  let sharedGate ← requireLayerTensorBinding ctx layer "ffn_gate_shexp.weight"
  let sharedUp ← requireLayerTensorBinding ctx layer "ffn_up_shexp.weight"
  let sharedDown ← requireLayerTensorBinding ctx layer "ffn_down_shexp.weight"
  let router ← requireLayerTensorBinding ctx layer "ffn_gate_inp.weight"
  let attnQA ← requireLayerTensorBinding ctx layer "attn_q_a.weight"
  let attnQB ← requireLayerTensorBinding ctx layer "attn_q_b.weight"
  let attnKvLatent ← requireLayerTensorBinding ctx layer "attn_kv_latent.weight"
  let attnOutputA ← requireLayerTensorBinding ctx layer "attn_output_a.weight"
  let attnOutputB ← requireLayerTensorBinding ctx layer "attn_output_b.weight"
  let attnNorm ← requireLayerTensorBinding ctx layer "attn_norm.weight"
  let attnQANorm ← requireLayerTensorBinding ctx layer "attn_q_a_norm.weight"
  let attnKvANorm ← requireLayerTensorBinding ctx layer "attn_kv_a_norm.weight"
  let attnSinks ← requireLayerTensorBinding ctx layer "attn_sinks"
  let hcAttnFn ← requireLayerTensorBinding ctx layer "hc_attn_fn"
  let hcAttnBase ← requireLayerTensorBinding ctx layer "hc_attn_base"
  let hcAttnScale ← requireLayerTensorBinding ctx layer "hc_attn_scale"
  let ffnNorm ← requireLayerTensorBinding ctx layer "ffn_norm.weight"
  let hcFfnFn ← requireLayerTensorBinding ctx layer "hc_ffn_fn"
  let hcFfnBase ← requireLayerTensorBinding ctx layer "hc_ffn_base"
  let hcFfnScale ← requireLayerTensorBinding ctx layer "hc_ffn_scale"
  return ⟨sharedGate, sharedUp, sharedDown, router, attnQA, attnQB, attnKvLatent, attnOutputA,
    attnOutputB, attnNorm, attnQANorm, attnKvANorm, attnSinks, hcAttnFn, hcAttnBase, hcAttnScale,
    ffnNorm, hcFfnFn, hcFfnBase, hcFfnScale⟩

/-- The matrices among them. -/
structure FixedMatrices where
  router : BoundMatrix
  attnQA : BoundMatrix
  attnQB : BoundMatrix
  attnKvLatent : BoundMatrix
  attnOutputA : BoundMatrix
  attnOutputB : BoundMatrix
  sharedGate : BoundMatrix
  sharedUp : BoundMatrix
  sharedDown : BoundMatrix

def makeFixedMatrices (t : FixedTensors) : Except String FixedMatrices := do
  let router ← makeF32Matrix t.router "ffn_gate_inp.weight"
  let attnQA ← makeF8Matrix t.attnQA "attn_q_a.weight"
  let attnQB ← makeF8Matrix t.attnQB "attn_q_b.weight"
  let attnKvLatent ← makeF8Matrix t.attnKvLatent "attn_kv_latent.weight"
  let attnOutputA ← makeF8Matrix t.attnOutputA "attn_output_a.weight"
  let attnOutputB ← makeF8Matrix t.attnOutputB "attn_output_b.weight"
  let sharedGate ← makeF8Matrix t.sharedGate "ffn_gate_shexp.weight"
  let sharedUp ← makeF8Matrix t.sharedUp "ffn_up_shexp.weight"
  let sharedDown ← makeF8Matrix t.sharedDown "ffn_down_shexp.weight"
  return ⟨router, attnQA, attnQB, attnKvLatent, attnOutputA, attnOutputB, sharedGate, sharedUp,
    sharedDown⟩

inductive RouterKind
  | hash
  | bias
  deriving DecidableEq

/-- How a layer chooses its experts. -/
structure Routing where
  kind : RouterKind
  routesPerToken : ℕ
  tokenCapacity : ℕ

def validateRouterBinding (router : BoundMatrix) (hash bias : Option TensorBinding) :
    Except String Routing := do
  check (router.rows ≠ 256 ∨ router.cols = 0)
    ("router dimensions must be [hidden x 256], got rows=" ++ toString router.rows ++ " cols=" ++
      toString router.cols)
  match hash, bias with
  | some hash, _ => do
      check (¬ hash.dtypeIs "i32" ∨ hash.shape.length ≠ 2 ∨ hash.dim 0 ≠ 6)
        "hash router must be i32 [6 x tokens]"
      return ⟨.hash, 6, u32 (hash.dim 1)⟩
  | none, some bias => do
      check (¬ bias.dtypeIs "f32" ∨ bias.shape.length ≠ 1 ∨ bias.dim 0 ≠ 256)
        "bias router must be f32 [256]"
      return ⟨.bias, 6, 0⟩
  | none, none => .error "layer has neither hash nor bias router metadata"

/-- The compressor of a layer's attention rows. -/
structure AttentionCompressor where
  ape : BoundMatrix
  kv : BoundMatrix
  gate : BoundMatrix
  norm : TensorBinding

/-- The indexer of a layer, with the compressor of its rows. -/
structure Indexer where
  attnQB : BoundMatrix
  proj : BoundMatrix
  ape : BoundMatrix
  kv : BoundMatrix
  gate : BoundMatrix
  norm : TensorBinding

def checkSameOwner (owningGpu : ℤ) (b : TensorBinding) (label : String) : Except String Unit :=
  check (b.owningGpu ≠ owningGpu)
    (label ++ " owner mismatch: got gpu" ++ toString b.owningGpu ++ " expected gpu" ++
      toString owningGpu)

/-- One tensor after the other. -/
def checkOwners (owningGpu : ℤ) : List (TensorBinding × String) → Except String Unit
  | [] => .ok ()
  | (b, label) :: rest => do
      checkSameOwner owningGpu b label
      checkOwners owningGpu rest

def bindAttentionCompressor (ctx : PackBindContext) (layer owningGpu : ℤ) :
    Except String AttentionCompressor := do
  let ape ← requireLayerTensorBinding ctx layer "attn_compress_ape"
  let kv ← requireLayerTensorBinding ctx layer "attn_compress_kv.weight"
  let gate ← requireLayerTensorBinding ctx layer "attn_compress_gate.weight"
  let norm ← requireLayerTensorBinding ctx layer "attn_compress_norm.weight"
  let ape ← makeF32Matrix ape "attn_compress_ape"
  let kv ← makeBf16Matrix kv "attn_compress_kv.weight"
  let gate ← makeBf16Matrix gate "attn_compress_gate.weight"
  checkOwners owningGpu [(ape.binding, "attn_compress_ape"),
    (kv.binding, "attn_compress_kv.weight"), (gate.binding, "attn_compress_gate.weight"),
    (norm, "attn_compress_norm.weight")]
  return ⟨ape, kv, gate, norm⟩

def bindIndexer (ctx : PackBindContext) (layer owningGpu : ℤ) : Except String Indexer := do
  let attnQB ← requireLayerTensorBinding ctx layer "indexer.attn_q_b.weight"
  let proj ← requireLayerTensorBinding ctx layer "indexer.proj.weight"
  let ape ← requireLayerTensorBinding ctx layer "indexer.compress_ape"
  let kv ← requireLayerTensorBinding ctx layer "indexer.compress_kv.weight"
  let gate ← requireLayerTensorBinding ctx layer "indexer.compress_gate.weight"
  let norm ← requireLayerTensorBinding ctx layer "indexer.compress_norm.weight"
  let attnQB ← makeF8Matrix attnQB "indexer.attn_q_b.weight"
  let proj ← makeBf16Matrix proj "indexer.proj.weight"
  let ape ← makeF32Matrix ape "indexer.compress_ape"
  let kv ← makeBf16Matrix kv "indexer.compress_kv.weight"
  let gate ← makeBf16Matrix gate "indexer.compress_gate.weight"
  checkOwners owningGpu [(attnQB.binding, "indexer.attn_q_b.weight"),
    (proj.binding, "indexer.proj.weight"), (ape.binding, "indexer.compress_ape"),
    (kv.binding, "indexer.compress_kv.weight"), (gate.binding, "indexer.compress_gate.weight"),
    (norm, "indexer.compress_norm.weight")]
  return ⟨attnQB, proj, ape, kv, gate, norm⟩

/-- `ds4_layer_state`. -/
structure LayerState where
  layerId : ℤ
  stageId : ℕ
  owningGpu : ℤ
  layerClass : LayerClass
  routed : RoutedTensors
  fixed : FixedTensors
  matrices : FixedMatrices
  routing : Routing
  compressor : Option AttentionCompressor
  indexer : Option Indexer

def compressorWidth : LayerClass → ℕ
  | .swaOnly => 0
  | .ratio4 => 2 * headDim
  | .ratio128 => headDim

/-- Layers of a ratio have a compressor. -/
def compressorOf (ctx : PackBindContext) (layer owningGpu : ℤ) (layerClass : LayerClass) :
    Except String (Option AttentionCompressor) :=
  if layerClass.compressRatio = 0 then .ok none
  else some <$> bindAttentionCompressor ctx layer owningGpu

def indexerOf (ctx : PackBindContext) (layer owningGpu : ℤ) (layerClass : LayerClass) :
    Except String (Option Indexer) :=
  if layerClass.compressRatio = 4 then some <$> bindIndexer ctx layer owningGpu else .ok none

namespace LayerState
variable (s : LayerState)

/-! The sizes that the state is read by. -/
def hiddenSize : ℕ := s.matrices.router.cols

def qLoraRank : ℕ := s.matrices.attnQA.rows

def qWidth : ℕ := s.matrices.attnQB.rows

def kvLatentWidth : ℕ := s.matrices.attnKvLatent.rows

def attentionOutputRank : ℕ := s.matrices.attnOutputA.rows

def intermediateSize : ℕ := s.matrices.sharedGate.rows

def routedExperts : ℕ := u32 (s.routed.gate.dim 2)

/-- The tensors that are on the layer's own GPU, with their labels. -/
def owned : List (TensorBinding × String) :=
  [(s.routed.gate, "ffn_gate_exps.weight"), (s.routed.up, "ffn_up_exps.weight"),
    (s.routed.down, "ffn_down_exps.weight"),
    (s.matrices.sharedGate.binding, "ffn_gate_shexp.weight"),
    (s.matrices.sharedUp.binding, "ffn_up_shexp.weight"),
    (s.matrices.sharedDown.binding, "ffn_down_shexp.weight"),
    (s.matrices.router.binding, "ffn_gate_inp.weight"),
    (s.matrices.attnQA.binding, "attn_q_a.weight"),
    (s.matrices.attnQB.binding, "attn_q_b.weight"),
    (s.matrices.attnKvLatent.binding, "attn_kv_latent.weight"),
    (s.matrices.attnOutputA.binding, "attn_output_a.weight"),
    (s.matrices.attnOutputB.binding, "attn_output_b.weight"),
    (s.fixed.attnNorm, "attn_norm.weight"), (s.fixed.attnQANorm, "attn_q_a_norm.weight"),
    (s.fixed.attnKvANorm, "attn_kv_a_norm.weight"), (s.fixed.attnSinks, "attn_sinks"),
    (s.fixed.hcAttnFn, "hc_attn_fn"), (s.fixed.hcAttnBase, "hc_attn_base"),
    (s.fixed.hcAttnScale, "hc_attn_scale"), (s.fixed.ffnNorm, "ffn_norm.weight"),
    (s.fixed.hcFfnFn, "hc_ffn_fn"), (s.fixed.hcFfnBase, "hc_ffn_base"),
    (s.fixed.hcFfnScale, "hc_ffn_scale")]

def checkAttention : Except String Unit := do
  let m := s.matrices
  check (m.attnQA.cols ≠ s.hiddenSize ∨ m.attnQB.cols ≠ s.qLoraRank ∨
      m.attnKvLatent.cols ≠ s.hiddenSize ∨ m.attnOutputA.cols ≠ s.hiddenSize ∨
      m.attnOutputB.cols ≠ s.attentionOutputRank ∨ m.attnOutputB.rows ≠ s.hiddenSize ∨
      s.qLoraRank ≠ 1024 ∨ s.qWidth ≠ 32768 ∨ s.kvLatentWidth ≠ headDim ∨
      s.attentionOutputRank ≠ 8192)
    "attention projection dimensions do not match DS4 layer state"
  let t := s.fixed
  check (¬ t.attnNorm.dtypeIs "f32" ∨ ¬ t.attnQANorm.dtypeIs "f32" ∨
      ¬ t.attnKvANorm.dtypeIs "f32" ∨ ¬ t.attnSinks.dtypeIs "f32" ∨
      t.attnNorm.shape.length ≠ 1 ∨ t.attnNorm.dim 0 ≠ s.hiddenSize ∨
      t.attnQANorm.shape.length ≠ 1 ∨ t.attnQANorm.dim 0 ≠ s.qLoraRank ∨
      t.attnKvANorm.shape.length ≠ 1 ∨ t.attnKvANorm.dim 0 ≠ s.kvLatentWidth ∨
      t.attnSinks.shape.length ≠ 1 ∨ t.attnSinks.dim 0 ≠ 64)
    "attention control dimensions do not match DS4 layer state"

def checkCompressor : Except String Unit :=
  match s.compressor with
  | none => .ok ()
  | some a =>
      let width := compressorWidth s.layerClass
      check (a.ape.rows ≠ s.layerClass.compressRatio ∨ a.ape.cols ≠ width ∨
          a.kv.rows ≠ width ∨ a.kv.cols ≠ s.hiddenSize ∨ a.gate.rows ≠ width ∨
          a.gate.cols ≠ s.hiddenSize ∨ ¬ a.norm.dtypeIs "f32" ∨ a.norm.shape.length ≠ 1 ∨
          a.norm.dim 0 ≠ headDim)
        "attention compressor dimensions do not match DS4 layer state"

def checkIndexer : Except String Unit :=
  match s.indexer with
  | none => .ok ()
  | some x =>
      let width := 2 * indexerHeadDim
      check (x.attnQB.rows ≠ 64 * indexerHeadDim ∨ x.attnQB.cols ≠ s.qLoraRank ∨
          x.proj.rows ≠ 64 ∨ x.proj.cols ≠ s.hiddenSize ∨
          x.ape.rows ≠ s.layerClass.compressRatio ∨ x.ape.cols ≠ width ∨ x.kv.rows ≠ width ∨
          x.kv.cols ≠ s.hiddenSize ∨ x.gate.rows ≠ width ∨ x.gate.cols ≠ s.hiddenSize ∨
          ¬ x.norm.dtypeIs "f32" ∨ x.norm.shape.length ≠ 1 ∨ x.norm.dim 0 ≠ indexerHeadDim)
        "indexer dimensions do not match DS4 layer state"

/-- The routed tensors have the sizes of the router and of the shared expert. -/
def checkRouted : Except String Unit := do
  let r := s.routed
  check (r.up.dim 2 ≠ s.routedExperts ∨ r.down.dim 2 ≠ s.routedExperts)
    "routed expert counts do not match"
  check (r.gate.dim 0 ≠ s.hiddenSize ∨ r.up.dim 0 ≠ s.hiddenSize ∨
      r.gate.dim 1 ≠ s.intermediateSize ∨ r.up.dim 1 ≠ s.intermediateSize ∨
      r.down.dim 0 ≠ s.intermediateSize ∨ r.down.dim 1 ≠ s.hiddenSize)
    "routed expert dimensions do not match router/shared dims"

/-- The two halves of a layer that two GPUs share. -/
def checkTp2 : Except String Unit :=
  match s.routed.turbomind.bind TurbomindRouted.tp2 with
  | none => .ok ()
  | some t => do
      check (s.intermediateSize % 2 ≠ 0) "TP2 requires even intermediate size"
      check (t.gateUp0.owningGpu ≠ s.owningGpu ∨ t.down0.owningGpu ≠ s.owningGpu ∨
          t.gateUp1.owningGpu = s.owningGpu ∨ t.down1.owningGpu ≠ t.gateUp1.owningGpu)
        "TP2 routed owner/peer GPU layout is invalid"
      let half (gateUp down : TurbomindBinding) : Except String Unit :=
        check (gateUp.n ≠ s.intermediateSize ∨ gateUp.k ≠ s.hiddenSize ∨ down.n ≠ s.hiddenSize ∨
            down.k ≠ s.intermediateSize / 2 ∨ gateUp.expertsTotal ≠ s.routedExperts ∨
            down.expertsTotal ≠ s.routedExperts ∨ gateUp.gateUpInterleaved = false)
          "TP2 routed expert dimensions do not match DS4 FFN dims"
      half t.gateUp0 t.down0
      half t.gateUp1 t.down1

def checkShared : Except String Unit :=
  let m := s.matrices
  check (m.sharedUp.cols ≠ s.hiddenSize ∨ m.sharedUp.rows ≠ s.intermediateSize ∨
      m.sharedDown.cols ≠ s.intermediateSize ∨ m.sharedDown.rows ≠ s.hiddenSize)
    "shared expert dimensions do not match router dims"

/-- The checks that a state ends with. -/
def checkState : Except String Unit := do
  checkOwners s.owningGpu s.owned
  check (s.routed.gate.shape.length ≠ 3 ∨ s.routed.up.shape.length ≠ 3 ∨
    s.routed.down.shape.length ≠ 3) "routed expert tensors must be 3D"
  s.checkAttention
  s.checkCompressor
  s.checkIndexer
  s.checkRouted
  s.checkTp2
  s.checkShared

end LayerState

/-- `ds4_layer_state_init`. -/
def layerStateInit (ctx : PackBindContext) (layer : ℤ) : Except String LayerState := do
  check (layer < 0 ∨ (nLayers : ℤ) ≤ layer) ("invalid layer " ++ toString layer)
  let stage := stageForLayer layer.toNat
  check (ctx.expectedGpus ≤ stage) ("missing stage for layer " ++ toString layer)
  let layerClass := layerClassForLayer layer.toNat
  let routed ← bindRoutedExpertTensors ctx layer
  let fixed ← bindFixedTensors ctx layer
  let hash := (requireLayerTensorBinding ctx layer "ffn_gate_tid2eid").toOption
  let bias := (requireLayerTensorBinding ctx layer "exp_probs_b").toOption
  let matrices ← makeFixedMatrices fixed
  let routing ← validateRouterBinding matrices.router hash bias
  let compressor ← compressorOf ctx layer stage layerClass
  let indexer ← indexerOf ctx layer stage layerClass
  let s : LayerState := ⟨layer, stage, stage, layerClass, routed, fixed, matrices, routing,
    compressor, indexer⟩
  s.checkState
  return s

end Ds4.Context
