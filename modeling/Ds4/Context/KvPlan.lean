import Ds4.Bytes.LittleEndian

/-! The derived KV plan: budgets of the layers, the arena of a stage and the views into it. -/
namespace Ds4.Context

/-! The saturating arithmetic of the plan, on numbers of 64 bits. -/
section Saturating

def satMul (a b : ℕ) : ℕ := if a ≠ 0 ∧ maxU64 / a < b then maxU64 else a * b

def satAdd (a b : ℕ) : ℕ := if maxU64 - a < b then maxU64 else a + b

/-- Alignments that are no power of two are ignored. -/
def alignUp (v align : ℕ) : ℕ :=
  if align = 0 then v
  else if align &&& (align - 1) ≠ 0 then v
  else if maxU64 - (align - 1) < v then maxU64
  else (v + (align - 1)) &&& (maxU64 ^^^ (align - 1))

end Saturating

/-! `DS4_V100_EXPECTED_GPUS` and the other constants of the layout. -/
def expectedGpus : ℕ := 8

def nLayers : ℕ := 43

def swaRows : ℕ := 128

def headDim : ℕ := 512

def indexerHeadDim : ℕ := 128

def sizeofFloat : ℕ := 4

inductive LayerClass
  | swaOnly
  | ratio4
  | ratio128
  deriving DecidableEq

def layerClassForLayer (layer : ℕ) : LayerClass :=
  if nLayers ≤ layer then .swaOnly
  else if layer ≤ 1 then .swaOnly
  else if layer % 2 = 0 then .ratio4 else .ratio128

/-- How many tokens a compressed row is of. -/
def LayerClass.compressRatio : LayerClass → ℕ
  | .swaOnly => 0
  | .ratio4 => 4
  | .ratio128 => 128

/-- The stage of a layer; layers there are none of have no stage. -/
def stageForLayer (layer : ℕ) : ℕ :=
  if layer ≤ 5 then 0
  else if layer ≤ 11 then 1
  else if layer ≤ 17 then 2
  else if layer ≤ 23 then 3
  else if layer ≤ 29 then 4
  else if layer ≤ 34 then 5
  else if layer ≤ 39 then 6
  else 7

structure KvBudget where
  rawSwaBytes : ℕ := 0
  compressedAttnBytes : ℕ := 0
  indexerKvBytes : ℕ := 0
  compressionStateBytes : ℕ := 0
  totalBytes : ℕ := 0
  deriving DecidableEq

/-- The sum that `ds4_kv_budget_for_layer` ends with. -/
def KvBudget.withTotal (b : KvBudget) : KvBudget :=
  { b with totalBytes := satAdd (satAdd (satAdd b.rawSwaBytes b.compressedAttnBytes)
      b.indexerKvBytes) b.compressionStateBytes }

def kvBudgetForLayer (layer ctxTokens activeSlots : ℕ) : KvBudget :=
  if nLayers ≤ layer ∨ ctxTokens = 0 ∨ activeSlots = 0 then {}
  else
    let raw := satMul (swaRows * headDim * 2) activeSlots
    match layerClassForLayer layer with
    | .swaOnly => ({ rawSwaBytes := raw } : KvBudget).withTotal
    | .ratio4 =>
        ({ rawSwaBytes := raw
           compressedAttnBytes := satMul (satMul (ctxTokens / 4) (headDim * 2)) activeSlots
           indexerKvBytes := satMul (satMul (ctxTokens / 4) (indexerHeadDim * 2)) activeSlots
           compressionStateBytes := satAdd (2 * (2 * headDim) * (2 * 4) * sizeofFloat)
             (2 * (2 * indexerHeadDim) * (2 * 4) * sizeofFloat) } : KvBudget).withTotal
    | .ratio128 =>
        ({ rawSwaBytes := raw
           compressedAttnBytes := satMul (satMul (ctxTokens / 128) (headDim * 2)) activeSlots
           compressionStateBytes := 2 * headDim * 128 * sizeofFloat } : KvBudget).withTotal

/-- The four compressor states of a layer. -/
structure KvStateSplit where
  attnKv : ℕ := 0
  attnScore : ℕ := 0
  indexerKv : ℕ := 0
  indexerScore : ℕ := 0

def kvStateSplitForLayer (layer : ℕ) : KvStateSplit :=
  match layerClassForLayer layer with
  | .swaOnly => {}
  | .ratio4 =>
      { attnKv := (2 * headDim) * (2 * 4) * sizeofFloat
        attnScore := (2 * headDim) * (2 * 4) * sizeofFloat
        indexerKv := (2 * indexerHeadDim) * (2 * 4) * sizeofFloat
        indexerScore := (2 * indexerHeadDim) * (2 * 4) * sizeofFloat }
  | .ratio128 =>
      { attnKv := headDim * 128 * sizeofFloat
        attnScore := headDim * 128 * sizeofFloat }

/-- `ds4_kv_arena_plan`. -/
structure KvArena where
  rawSwaOffset : ℕ
  rawSwaBytes : ℕ
  compressedAttnOffset : ℕ
  compressedAttnBytes : ℕ
  indexerKvOffset : ℕ
  indexerKvBytes : ℕ
  compressionStateOffset : ℕ
  compressionStateBytes : ℕ
  totalBytes : ℕ
  deriving DecidableEq

/-- The sums of a stage's layers. -/
structure StageSums where
  rawSwaBytes : ℕ := 0
  compressedAttnBytes : ℕ := 0
  indexerBytes : ℕ := 0
  compressionStateBytes : ℕ := 0

structure StageKv where
  arena : KvArena
  plannedKvBytes : ℕ

/-- `ds4_layer_kv_view`. -/
structure LayerKvView where
  rawSwaOffset : ℕ
  rawSwaBytes : ℕ
  compressedAttnOffset : ℕ
  compressedAttnBytes : ℕ
  indexerKvOffset : ℕ
  indexerKvBytes : ℕ
  attnStateKvOffset : ℕ
  attnStateKvBytes : ℕ
  attnStateScoreOffset : ℕ
  attnStateScoreBytes : ℕ
  indexerStateKvOffset : ℕ
  indexerStateKvBytes : ℕ
  indexerStateScoreOffset : ℕ
  indexerStateScoreBytes : ℕ
  totalBytes : ℕ
  deriving DecidableEq

/-- The cursors of a stage. -/
structure Cursors where
  raw : ℕ := 0
  comp : ℕ := 0
  index : ℕ := 0
  state : ℕ := 0

section Plan
variable (ctxTokens slots : ℕ)

/-- The first pass: a layer's budget goes to its stage. -/
def addBudget (sums : ℕ → StageSums) (layer : ℕ) : ℕ → StageSums :=
  let b := kvBudgetForLayer layer ctxTokens slots
  let s := sums (stageForLayer layer)
  Function.update sums (stageForLayer layer)
    { rawSwaBytes := satAdd s.rawSwaBytes b.rawSwaBytes
      compressedAttnBytes := satAdd s.compressedAttnBytes b.compressedAttnBytes
      indexerBytes := satAdd s.indexerBytes b.indexerKvBytes
      compressionStateBytes := satAdd s.compressionStateBytes b.compressionStateBytes }

def stageSums : ℕ → StageSums := (List.range nLayers).foldl (addBudget ctxTokens slots) fun _ => {}

/-- The second pass: the regions of an arena, each aligned to 256. -/
def layoutStage (s : StageSums) : StageKv :=
  let compOff := alignUp (satAdd 0 s.rawSwaBytes) 256
  let indexOff := alignUp (satAdd compOff s.compressedAttnBytes) 256
  let stateOff := alignUp (satAdd indexOff s.indexerBytes) 256
  let total := alignUp (satAdd stateOff s.compressionStateBytes) 256
  { arena :=
      { rawSwaOffset := 0
        rawSwaBytes := s.rawSwaBytes
        compressedAttnOffset := compOff
        compressedAttnBytes := s.compressedAttnBytes
        indexerKvOffset := indexOff
        indexerKvBytes := s.indexerBytes
        compressionStateOffset := stateOff
        compressionStateBytes := s.compressionStateBytes
        totalBytes := total }
    plannedKvBytes := total }

def stageKv (stage : ℕ) : StageKv := layoutStage (stageSums ctxTokens slots stage)

/-- A layer's view, at the cursors of its stage. -/
def layerView (arena : KvArena) (cur : Cursors) (b : KvBudget) (split : KvStateSplit) :
    LayerKvView :=
  let score := satAdd cur.state split.attnKv
  let indexerKv := satAdd score split.attnScore
  let indexerScore := satAdd indexerKv split.indexerKv
  { rawSwaOffset := satAdd arena.rawSwaOffset cur.raw
    rawSwaBytes := b.rawSwaBytes
    compressedAttnOffset := satAdd arena.compressedAttnOffset cur.comp
    compressedAttnBytes := b.compressedAttnBytes
    indexerKvOffset := satAdd arena.indexerKvOffset cur.index
    indexerKvBytes := b.indexerKvBytes
    attnStateKvOffset := satAdd arena.compressionStateOffset cur.state
    attnStateKvBytes := split.attnKv
    attnStateScoreOffset := satAdd arena.compressionStateOffset score
    attnStateScoreBytes := split.attnScore
    indexerStateKvOffset := satAdd arena.compressionStateOffset indexerKv
    indexerStateKvBytes := split.indexerKv
    indexerStateScoreOffset := satAdd arena.compressionStateOffset indexerScore
    indexerStateScoreBytes := split.indexerScore
    totalBytes := b.totalBytes }

/-- The cursors behind a layer's view. -/
def moveCursors (cur : Cursors) (b : KvBudget) (split : KvStateSplit) : Cursors :=
  { raw := satAdd cur.raw b.rawSwaBytes
    comp := satAdd cur.comp b.compressedAttnBytes
    index := satAdd cur.index b.indexerKvBytes
    state := satAdd (satAdd (satAdd (satAdd cur.state split.attnKv) split.attnScore)
      split.indexerKv) split.indexerScore }

/-- The third pass: the views so far and the cursors of the stages. -/
def placeLayer (acc : List LayerKvView × (ℕ → Cursors)) (layer : ℕ) :
    List LayerKvView × (ℕ → Cursors) :=
  let stage := stageForLayer layer
  let b := kvBudgetForLayer layer ctxTokens slots
  let split := kvStateSplitForLayer layer
  let cur := acc.2 stage
  (acc.1 ++ [layerView (stageKv ctxTokens slots stage).arena cur b split],
    Function.update acc.2 stage (moveCursors cur b split))

def layerViews : List LayerKvView :=
  ((List.range nLayers).foldl (placeLayer ctxTokens slots) ([], fun _ => {})).1

end Plan

/-- What `apply_derived_kv_plan` leaves in the context. -/
structure KvPlan where
  budgets : ℕ → KvBudget
  stages : ℕ → StageKv
  views : List LayerKvView

/-- Without a context length nothing is derived. -/
def applyDerivedKvPlan (ctxTokens slots : ℕ) : Option KvPlan :=
  if ctxTokens = 0 then none
  else some ⟨fun layer => kvBudgetForLayer layer ctxTokens slots, stageKv ctxTokens slots,
    layerViews ctxTokens slots⟩

/-- The options of `ds4_context_open` that the derived plan depends on. -/
structure KvOptions where
  kvCtxTokens : ℕ
  kvActiveSlots : ℕ
  plannedKvBytesPerGpu : ℕ
  ctxTokens_lt : kvCtxTokens < 2 ^ 64
  activeSlots_lt : kvActiveSlots < 2 ^ 64

/-- The checks of `ds4_context_open` before the plan is made. -/
def KvOptions.error (o : KvOptions) : Option String :=
  if o.kvCtxTokens ≠ 0 ∧ o.kvActiveSlots = 0 then
    some "kv_active_slots must be nonzero when kv_ctx_tokens is set"
  else if o.kvCtxTokens ≠ 0 ∧ o.plannedKvBytesPerGpu ≠ 0 then
    some "planned_kv_bytes_per_gpu cannot be combined with derived kv_ctx_tokens"
  else none

/-- The plan of an opened context. -/
def openPlan (o : KvOptions) : Except String (Option KvPlan) :=
  match o.error with
  | some e => .error e
  | none => .ok (applyDerivedKvPlan o.kvCtxTokens o.kvActiveSlots)

end Ds4.Context
