import Ds4.Context.KvLayout
import Ds4.Context.PackBind

/-! Opening a context: the options and the device facts are checked, the sizes of each GPU are
added up and compared with its memory. -/
namespace Ds4.Context
open Ds4.Packs (Pack TmPack packOpen tmPackOpen add64 mul64)

/-! `DS4_V100_RELAY_BUFFERS` and the other constants of the relay and the devices. -/
def relayBuffers : ℕ := 2

def hcRows : ℕ := 4

def hcCols : ℕ := 4096

def minVramBytes : ℕ := 31 * 1024 * 1024 * 1024

/-- `ds4_device_fact`, as far as it is checked. -/
structure DeviceFact where
  visibleId : ℤ
  ccMajor : ℤ
  totalGlobalMem : ℕ
  peerAccess : ℕ → Bool
  totalGlobalMem_lt : totalGlobalMem < 2 ^ 64

/-- `ds4_context_options`; an index is given by its path and its content. -/
structure ContextOptions where
  packIndex : Option (String × Bytes)
  turbomindPackIndex : Option (String × Bytes)
  expectedGpus : ℤ
  requireProductionTopology : Bool
  enableF32DebugRelay : Bool
  scratchBytesPerGpu : ℕ
  relayMaxActiveSlots : ℕ
  reserveBytesPerGpu : ℕ
  kv : KvOptions
  outputHeadReserveBytes : ℕ
  mtpReserveBytes : ℕ
  deviceFacts : List DeviceFact

/-- The sizes of `ds4_stage_info`. -/
structure StageInfo where
  arenaBytes : ℕ
  scratchBytes : ℕ
  relayF16Bytes : ℕ
  relayF32DebugBytes : ℕ
  plannedKvBytes : ℕ
  outputHeadReserveBytes : ℕ
  mtpReserveBytes : ℕ
  reserveBytes : ℕ
  deviceTotalBytes : ℕ

/-- The last stage has the output head. -/
def onLastStage (i bytes : ℕ) : ℕ := if i = 7 then bytes else 0

namespace ContextOptions
variable (o : ContextOptions)

/-- The product of a relay, with elements of so many bytes. -/
def relayBytes (width : ℕ) : ℕ :=
  mul64 (mul64 (mul64 (mul64 relayBuffers o.relayMaxActiveSlots) hcRows) hcCols) width

/-- `init_stage_map`, with the planned bytes of `apply_derived_kv_plan` and the bytes that the
topology and the indexes add. -/
def stage (plan : Option KvPlan) (arena total : ℕ → ℕ) (i : ℕ) : StageInfo :=
  { arenaBytes := arena i
    scratchBytes := o.scratchBytesPerGpu
    relayF16Bytes := o.relayBytes 2
    relayF32DebugBytes := if o.enableF32DebugRelay then o.relayBytes 4 else 0
    plannedKvBytes :=
      match plan with
      | none => o.kv.plannedKvBytesPerGpu
      | some plan => (plan.stages i).plannedKvBytes
    outputHeadReserveBytes := onLastStage i o.outputHeadReserveBytes
    mtpReserveBytes := onLastStage i o.mtpReserveBytes
    reserveBytes := o.reserveBytesPerGpu
    deviceTotalBytes := total i }

/-- The checks of one device after the other. -/
def checkFacts : ℕ → List DeviceFact → Except String Unit
  | _, [] => .ok ()
  | i, f :: fs =>
      if f.visibleId ≠ i then
        .error ("device fact " ++ toString i ++ " has visible id " ++ toString f.visibleId)
      else if f.ccMajor ≠ 7 then
        .error ("device " ++ toString i ++ " is not V100-class compute capability 7.x")
      else if f.totalGlobalMem < minVramBytes then
        .error ("device " ++ toString i ++ " has insufficient VRAM: " ++
          toString f.totalGlobalMem)
      else checkFacts (i + 1) fs

/-- Neighbours reach each other. -/
def checkPeers : ℕ → List DeviceFact → Except String Unit
  | i, f :: g :: fs =>
      if f.peerAccess (i + 1) = false ∨ g.peerAccess i = false then
        .error ("missing peer edge between stage " ++ toString i ++ " and " ++ toString (i + 1))
      else checkPeers (i + 1) (g :: fs)
  | _, _ => .ok ()

/-- `validate_topology`: the memory of each device, where the topology is required. -/
def validateTopology : Except String (ℕ → ℕ) :=
  if o.requireProductionTopology = false then .ok fun _ => 0
  else if o.expectedGpus ≠ 8 then .error "production topology requires 8 GPUs"
  else if o.deviceFacts.length ≠ Context.expectedGpus then
    .error "production topology requires 8 device facts"
  else
    match checkFacts 0 o.deviceFacts with
    | .error e => .error e
    | .ok _ =>
        match checkPeers 0 o.deviceFacts with
        | .error e => .error e
        | .ok _ => .ok fun i => (o.deviceFacts[i]?.map DeviceFact.totalGlobalMem).getD 0

/-- A context before anything is bound. -/
def unbound : PackBindContext :=
  { expectedGpus := o.expectedGpus
    stages := fun _ => ⟨0, 0⟩
    layers := fun _ => ⟨0, false⟩
    tmDescs := []
    execCounts := fun _ => 0
    descs := []
    families := fun _ => {}
    hasTokenEmbedding := false }

/-- `bind_pack`. -/
def bindPackIndex : Except String PackBindContext :=
  match o.packIndex with
  | none => .ok o.unbound
  | some (path, content) =>
      match packOpen path content with
      | .error e => .error e
      | .ok p => bindPack o.unbound p

/-- `bind_tm_pack`. -/
def bindTmPackIndex (ctx : PackBindContext) : Except String PackBindContext :=
  match o.turbomindPackIndex with
  | none => .ok ctx
  | some (path, content) =>
      match tmPackOpen path content with
      | .error e => .error e
      | .ok p =>
          match bindTmPack ctx.toBindContext p with
          | .error e => .error e
          | .ok bound => .ok { ctx with toBindContext := bound }

end ContextOptions

/-- `checked_stage_used`: the sum as 64 bits hold it. -/
def checkedStageUsed (s : StageInfo) : ℕ :=
  add64 (add64 (add64 (add64 (add64 (add64 s.arenaBytes s.scratchBytes) s.relayF16Bytes)
    s.relayF32DebugBytes) s.plannedKvBytes) s.outputHeadReserveBytes) s.mtpReserveBytes

/-- `validate_memory_budget`, on the stages of a list. -/
def validateMemoryBudget (stages : ℕ → StageInfo) : List ℕ → Except String Unit
  | [] => .ok ()
  | i :: is =>
      let s := stages i
      let used := checkedStageUsed s
      if s.deviceTotalBytes < used ∨ s.deviceTotalBytes - used < s.reserveBytes then
        .error ("stage " ++ toString i ++ " falls below reserve: used=" ++ toString used ++
          " total=" ++ toString s.deviceTotalBytes ++ " reserve=" ++ toString s.reserveBytes)
      else validateMemoryBudget stages is

/-- An opened context. -/
structure OpenContext where
  plan : Option KvPlan
  bound : PackBindContext
  stages : ℕ → StageInfo

/-- `ds4_context_open`. -/
def contextOpen (o : ContextOptions) : Except String OpenContext :=
  if o.expectedGpus ≤ 0 ∨ (expectedGpus : ℤ) < o.expectedGpus then
    .error "expected_gpus must be 1..8"
  else if o.relayMaxActiveSlots = 0 then .error "relay_max_active_slots must be nonzero"
  else
    match openPlan o.kv with
    | .error e => .error e
    | .ok plan =>
        match o.validateTopology with
        | .error e => .error e
        | .ok total =>
            match o.bindPackIndex with
            | .error e => .error e
            | .ok ctx =>
                match o.bindTmPackIndex ctx with
                | .error e => .error e
                | .ok bound =>
                    let stages := o.stage plan (fun i => (bound.stages i).arenaBytes) total
                    if o.requireProductionTopology = false then .ok ⟨plan, bound, stages⟩
                    else
                      match validateMemoryBudget stages (List.range expectedGpus) with
                      | .error e => .error e
                      | .ok _ => .ok ⟨plan, bound, stages⟩

end Ds4.Context
