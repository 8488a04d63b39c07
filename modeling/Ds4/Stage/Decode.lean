import Ds4.Stage.Attention
import Ds4.Stage.Scheduler

/-! Decoding on a stage: the layers of a span, one slot at a time, between its two hidden
buffers. The kernels that work on several slots at once are left out. -/
namespace Ds4.Stage
open Context State State.Prog

variable {F : Type}

def Scheduler.setHcRow (s : Scheduler F) (buffer : HcBuffer) (slot : ℕ) (row : ℕ → List F) :
    Scheduler F :=
  s.setHc buffer slot { s.hc buffer slot with row := row }

section Decode
variable (K : Kernels F) (d : Device F) (fp8 : Bool)

/-- `ds4_layer_execute_hc_decode`: from the current buffer to the other one. -/
def layerExecuteHcDecode (layer slot : ℕ) (cur : HcBuffer) (token position : ℕ) :
    Prog (Scheduler F) PUnit := do
  let hidden ← readAt fun s _ => (s.hc cur slot).row
  match ← readAt fun s _ => validateDecodeCache layer (s.caches layer slot) with
  | .error e => throw e
  | .ok _ => pure ⟨⟩
  require (← call d.answers) "attention projection sequence failed"
  let proj := K.project layer hidden position
  let inputs ← onCache layer slot (prepareDecodeCacheAttention K d fp8 layer proj position)
  let ok ← call d.answers
  require (inputs.nRaw ≠ 0 && ok) "attention softmax failed"
  let raw ← readAt fun s _ => (s.caches layer slot).rawRows inputs
  let comp ← readAt fun s _ =>
    (s.caches layer slot).compressedRows .attnCompKv inputs.nCompressed
  let out := K.layerOut layer hidden proj raw comp inputs.indexedTopk token position
  launch d.answers (fun s => s.setHcRow cur.other slot out) "HC final expansion failed"
  require (← call d.answers) "HC final profile sync failed"

/-- The layers of a span; the two buffers change places after each. -/
def layerLoop (slot token position : ℕ) : List ℕ → HcBuffer → Prog (Scheduler F) HcBuffer
  | [], cur => pure cur
  | layer :: layers, cur => do
      layerExecuteHcDecode K d fp8 layer slot cur token position
      require (← call d.answers) "HC state is not finite"
      layerLoop slot token position layers cur.other

/-- The checks of a slot and of a span of layers, and the device of the stage. -/
def validateSpan (slot first last : ℕ) : Prog (Scheduler F) PUnit := do
  let active ← readAt fun s _ => s.options.activeSlots
  require (slot < active) ("slot start must be in [0,active_slots), got " ++ toString slot)
  let stage ← readAt fun s _ => s.stage
  let span := "[" ++ toString first ++ "," ++ toString last ++ "]"
  require (first ≤ last) ("invalid layer span " ++ span)
  require (layerBegin stage ≤ first && last ≤ layerEnd stage)
    ("layer span " ++ span ++ " outside stage range")
  require (← call d.answers) ("failed to set scheduler device gpu" ++ toString stage)
  require (← call d.answers) ("failed to activate shard fd for gpu" ++ toString stage)

/-- `ds4_stage_scheduler_decode_hc_layer_span` of one slot. The current buffer is only set
when every layer has returned. -/
def decodeHcLayerSpan (slot token position first last : ℕ) : Prog (Scheduler F) PUnit := do
  validateSpan d slot first last
  let cur ← readAt fun s _ => s.curHc slot
  let cur ← layerLoop K d fp8 slot token position (List.range' first (last + 1 - first)) cur
  write fun s => s.setCur slot cur

/-- A hidden state written from outside becomes the current one. -/
def seedHc (slot : ℕ) (row : ℕ → List F) (error : String) : Prog (Scheduler F) PUnit := do
  launch d.answers (fun s => s.setHcRow .a slot row) error
  write fun s => s.setCur slot .a

/-- `ds4_stage_scheduler_decode_token_layer_span` of one slot. -/
def decodeTokenLayerSpan (slot token position first last : ℕ) : Prog (Scheduler F) PUnit := do
  let stage ← readAt fun s _ => s.stage
  require (stage = 0) "decode-token requires token-embedding stage"
  validateSpan d slot first last
  require (first = layerBegin stage)
    ("decode-token layer span must start at stage first layer " ++ toString (layerBegin stage))
  require (token < K.nVocab) "token outside embedding vocab"
  seedHc d slot (K.embed token) ("token embedding HC seed failed for slot " ++ toString slot)
  decodeHcLayerSpan K d fp8 slot token position first last

/-- `ds4_stage_scheduler_decode_hc_ffn_microbatch_layer` of one slot. -/
def decodeHcFfnMicrobatchLayer (slot token position layer : ℕ) : Prog (Scheduler F) PUnit := do
  validateSpan d slot layer layer
  let cur ← readAt fun s _ => s.curHc slot
  layerExecuteHcDecode K d fp8 layer slot cur token position
  write fun s => s.setCur slot cur.other

/-- The stage that a handoff writes to; `row` is the current hidden state of the stage before. -/
def handoffSlot (slot : ℕ) (row : ℕ → List F) : Prog (Scheduler F) PUnit := do
  let active ← readAt fun s _ => s.options.activeSlots
  require (slot < active)
    ("handoff slot start must be in [0,active_slots), got " ++ toString slot)
  seedHc d slot row ("scheduler HC handoff copy failed for slot " ++ toString slot)

/-- `ds4_stage_scheduler_write_hc`, which has no error text. -/
def writeHc (row : ℕ → List F) : Prog (Scheduler F) PUnit := do
  require (← call d.answers) ""
  seedHc d 0 row ""

/-- What a caller can do with a stage between a snapshot and a restore. -/
inductive Op (F : Type)
  | decodeHc (slot token position first last : ℕ)
  | decodeToken (slot token position first last : ℕ)
  | ffnMicrobatch (slot token position layer : ℕ)
  | handoff (slot : ℕ) (row : ℕ → List F)
  | writeHc (row : ℕ → List F)

def Op.run : Op F → Prog (Scheduler F) PUnit
  | .decodeHc slot token position first last =>
      decodeHcLayerSpan K d fp8 slot token position first last
  | .decodeToken slot token position first last =>
      decodeTokenLayerSpan K d fp8 slot token position first last
  | .ffnMicrobatch slot token position layer =>
      decodeHcFfnMicrobatchLayer K d fp8 slot token position layer
  | .handoff slot row => handoffSlot d slot row
  | .writeHc row => Stage.writeHc d row

/-- What a caller sees of an operation: whether it has failed, and the hidden state after it. -/
structure Seen (F : Type) where
  error : Option String
  hidden : Tensor F

/-- Operations one after the other; a failed one does not stop the caller. -/
def runOps (s : Scheduler F × ℕ) : List (Op F) → List (Seen F) × (Scheduler F × ℕ)
  | [] => ([], s)
  | op :: ops =>
      match op.run K d fp8 s with
      | .ok _ t =>
          let r := runOps t ops
          (⟨none, t.1.hidden 0⟩ :: r.1, r.2)
      | .error e t =>
          let r := runOps t ops
          (⟨some e, t.1.hidden 0⟩ :: r.1, r.2)

end Decode

end Ds4.Stage
