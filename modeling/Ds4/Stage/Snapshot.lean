import Ds4.Stage.Decode

/-! Snapshots of a stage with one slot. -/
namespace Ds4.Stage
open Context State State.Prog

variable {F : Type}

/-- `scheduler_layer_cache_snapshot`. -/
structure LayerSnapshot (F : Type) where
  nAttnComp : ℕ := 0
  nIndexComp : ℕ := 0
  tensor : CacheTensor → Option (Tensor F) := fun _ => none
  indexerTopk : Option (Tensor ℕ) := none

/-- `ds4_stage_scheduler_snapshot`. -/
structure Snapshot (F : Type) where
  stage : ℕ
  activeSlots : ℕ
  curHcSlot : HcBuffer
  curHc : Option (Tensor F) := none
  layers : ℕ → LayerSnapshot F := fun _ => {}

/-- The tensors that `ds4_stage_scheduler_snapshot_create` goes through. -/
def capturedTensors : List CacheTensor :=
  [.rawKv, .attnStateKv, .attnStateScore, .attnCompKv, .indexStateKv, .indexStateScore,
    .indexCompKv]

/-- The tensors that `ds4_stage_scheduler_snapshot_restore` goes through. -/
def restoredTensors : List CacheTensor :=
  [.rawKv, .attnStateKv, .attnStateScore, .attnCompKv, .indexStateKv, .indexStateScore,
    .indexCompKv]

section Create
variable (d : Device F)

/-- `snapshot_tensor_capture`. -/
def captureTensor {σ α : Type} (t : Option (Tensor α)) : Prog σ (Option (Tensor α)) :=
  match t with
  | none => pure none
  | some t => do
      if t.bytes = 0 then return none
      require (← call d.answers)
        ("failed to allocate snapshot tensor bytes=" ++ toString t.bytes)
      require (← call d.answers) "snapshot tensor read failed"
      return some t

def captureTensors {σ : Type} (c : LayerCache F) : List CacheTensor → LayerSnapshot F →
    Prog σ (LayerSnapshot F)
  | [], snap => pure snap
  | name :: names, snap => do
      let t ← captureTensor d (c.tensor name)
      captureTensors c names { snap with tensor := Function.update snap.tensor name t }

def captureLayer {σ : Type} (c : LayerCache F) : Prog σ (LayerSnapshot F) := do
  let snap ← captureTensors d c capturedTensors
    { nAttnComp := c.nAttnComp, nIndexComp := c.nIndexComp }
  let topk ← captureTensor d c.indexerTopk
  return { snap with indexerTopk := topk }

def captureLayers : List ℕ → Snapshot F → Prog (Scheduler F) (Snapshot F)
  | [], snap => pure snap
  | layer :: layers, snap => do
      let c ← readAt fun s _ => s.caches layer 0
      let ls ← captureLayer d c
      captureLayers layers { snap with layers := Function.update snap.layers layer ls }

/-- `ds4_stage_scheduler_snapshot_create`. -/
def snapshotCreate : Prog (Scheduler F) (Snapshot F) := do
  let active ← readAt fun s _ => s.options.activeSlots
  require (active = 1)
    ("scheduler snapshot currently requires active_slots=1, got " ++ toString active)
  let stage ← readAt fun s _ => s.stage
  require (← call d.answers) ("failed to set scheduler snapshot device gpu" ++ toString stage)
  require (← call d.answers) "failed to allocate scheduler snapshot"
  let cur ← readAt fun s _ => s.curHc 0
  let hidden ← readAt fun s _ => s.hidden 0
  let hc ← captureTensor d (some hidden)
  captureLayers d (stageLayers stage)
    { stage := stage, activeSlots := active, curHcSlot := cur, curHc := hc }

end Create

section Restore
variable (d : Device F)

/-- `snapshot_tensor_restore` on a tensor of a cache. -/
def restoreTensor (name : CacheTensor) (snap : Option (Tensor F)) :
    Prog (LayerCache F) PUnit :=
  match snap with
  | none => pure ⟨⟩
  | some t => do
      let same ← readAt fun c _ => (c.tensor name).elim false fun x => x.bytes = t.bytes
      require same "snapshot tensor restore size mismatch"
      launch d.answers (fun c => c.mapRows name fun _ => t.row) "snapshot tensor write failed"

def restoreTopk (snap : Option (Tensor ℕ)) : Prog (LayerCache F) PUnit :=
  match snap with
  | none => pure ⟨⟩
  | some t => do
      let same ← readAt fun c _ => c.indexerTopk.elim false fun x => x.bytes = t.bytes
      require same "snapshot tensor restore size mismatch"
      launch d.answers (fun c => { c with indexerTopk := some t }) "snapshot tensor write failed"

def restoreLayer (snap : LayerSnapshot F) : Prog (LayerCache F) PUnit := do
  write fun c => { c with nAttnComp := snap.nAttnComp, nIndexComp := snap.nIndexComp }
  each restoredTensors fun name => restoreTensor d name (snap.tensor name)
  restoreTopk d snap.indexerTopk

/-- `snapshot_tensor_restore` on a hidden buffer of slot 0. -/
def restoreHc (buffer : HcBuffer) (snap : Option (Tensor F)) : Prog (Scheduler F) PUnit :=
  match snap with
  | none => pure ⟨⟩
  | some t => do
      let same ← readAt fun s _ => ((s.hc buffer 0).bytes = t.bytes : Bool)
      require same "snapshot tensor restore size mismatch"
      launch d.answers (fun s => s.setHcRow buffer 0 t.row) "snapshot tensor write failed"

/-- `ds4_stage_scheduler_snapshot_restore`. -/
def snapshotRestore (snap : Snapshot F) : Prog (Scheduler F) PUnit := do
  let stage ← readAt fun s _ => s.stage
  require (stage = snap.stage) "scheduler snapshot restore stage mismatch"
  let active ← readAt fun s _ => s.options.activeSlots
  require (active = snap.activeSlots && active = 1)
    "scheduler snapshot restore active-slot mismatch"
  require (← call d.answers) ("failed to set scheduler restore device gpu" ++ toString stage)
  restoreHc d snap.curHcSlot snap.curHc
  write fun s => s.setCur 0 snap.curHcSlot
  each (stageLayers stage) fun layer => onCache layer 0 (restoreLayer d (snap.layers layer))

end Restore

end Ds4.Stage
