import Ds4.Stage.Snapshot
import Ds4.State.Sim

/-! States that no decode can tell apart: the selection of the indexer and the buffer that is
not the current one are written before they are read. -/
namespace Ds4.Stage
open Context State State.Prog

variable {F : Type}

/-- Caches of the same contents, the selection of the indexer apart. -/
structure Alike (c c' : LayerCache F) : Prop where
  tensor : c.tensor = c'.tensor
  topk : c.indexerTopk.map Tensor.values = c'.indexerTopk.map Tensor.values
  rawCap : c.rawCap = c'.rawCap
  rawWindow : c.rawWindow = c'.rawWindow
  attnCompCap : c.attnCompCap = c'.attnCompCap
  nAttnComp : c.nAttnComp = c'.nAttnComp
  indexCompCap : c.indexCompCap = c'.indexCompCap
  nIndexComp : c.nIndexComp = c'.nIndexComp
  indexerTopK : c.indexerTopK = c'.indexerTopK

theorem Alike.refl (c : LayerCache F) : Alike c c := ⟨rfl, rfl, rfl, rfl, rfl, rfl, rfl, rfl, rfl⟩

section Cache
variable {c c' : LayerCache F} (h : Alike c c')
include h

theorem Alike.rows : c.rows = c'.rows := by
  funext name
  unfold LayerCache.rows
  rw [h.tensor]

theorem Alike.setTensor (name : CacheTensor) (t : Option (Tensor F)) :
    Alike (c.setTensor name t) (c'.setTensor name t) := by
  have htensor : (c.setTensor name t).tensor = (c'.setTensor name t).tensor := by
    unfold LayerCache.setTensor
    rw [h.tensor]
  exact { h with tensor := htensor }

theorem Alike.mapRows (name : CacheTensor) (f : (ℕ → List F) → ℕ → List F) :
    Alike (c.mapRows name f) (c'.mapRows name f) := by
  unfold LayerCache.mapRows
  rw [h.tensor]
  exact h.setTensor _ _

theorem Alike.mapRow (name : CacheTensor) (i : ℕ) (f : List F → List F) :
    Alike (c.mapRow name i f) (c'.mapRow name i f) := h.mapRows _ _

theorem Alike.storeState (lane : LaneTensors) (ratio position : ℕ) (row : Engine.StateRow F) :
    Alike (c.storeState lane ratio position row) (c'.storeState lane ratio position row) := by
  unfold LayerCache.storeState
  exact (h.mapRow _ _ _).mapRow _ _ _

theorem Alike.shiftState (lane : LaneTensors) :
    Alike (c.shiftState lane) (c'.shiftState lane) := by
  unfold LayerCache.shiftState
  exact (h.mapRows _ _).mapRows _ _

theorem Alike.setTopk (selected : List ℕ) : Alike (c.setTopk selected) (c'.setTopk selected) := by
  have htopk : (c.setTopk selected).indexerTopk.map Tensor.values =
      (c'.setTopk selected).indexerTopk.map Tensor.values := by
    unfold LayerCache.setTopk
    simp only [Option.map_map]
    exact h.topk
  exact { h with topk := htopk }

theorem Alike.countAttn : Alike { c with nAttnComp := c.nAttnComp + 1 }
    { c' with nAttnComp := c'.nAttnComp + 1 } :=
  { h with nAttnComp := congrArg (· + 1) h.nAttnComp }

theorem Alike.countIndex : Alike { c with nIndexComp := c.nIndexComp + 1 }
    { c' with nIndexComp := c'.nIndexComp + 1 } :=
  { h with nIndexComp := congrArg (· + 1) h.nIndexComp }

theorem Alike.validate (layer : ℕ) :
    validateDecodeCache layer c = validateDecodeCache layer c' := by
  have htopk : ∀ k, c.indexerTopk.elim false (fun t => decide (k ≤ t.values)) =
      c'.indexerTopk.elim false (fun t => decide (k ≤ t.values)) := by
    intro k
    have hmap := congrArg (fun o : Option ℕ => o.elim false fun v => decide (k ≤ v)) h.topk
    simp only [Option.elim_map] at hmap
    exact hmap
  simp only [validateDecodeCache]
  rw [h.tensor, h.rawCap, h.attnCompCap, h.nAttnComp, h.indexCompCap, h.nIndexComp, h.indexerTopK,
    htopk]

end Cache

/-- What the steps of a decode preserve. -/
structure Closed (R : LayerCache F → LayerCache F → Prop) : Prop where
  alike : ∀ c c', R c c' → Alike c c'
  mapRows : ∀ c c' name f, R c c' → R (c.mapRows name f) (c'.mapRows name f)
  setTopk : ∀ c c' selected, R c c' → R (c.setTopk selected) (c'.setTopk selected)
  countAttn : ∀ c c', R c c' → R { c with nAttnComp := c.nAttnComp + 1 }
    { c' with nAttnComp := c'.nAttnComp + 1 }
  countIndex : ∀ c c', R c c' → R { c with nIndexComp := c.nIndexComp + 1 }
    { c' with nIndexComp := c'.nIndexComp + 1 }

theorem alike_closed : Closed (Alike (F := F)) where
  alike _ _ h := h
  mapRows _ _ _ _ h := h.mapRows _ _
  setTopk _ _ _ h := h.setTopk _
  countAttn _ _ h := h.countAttn
  countIndex _ _ h := h.countIndex

section Prepare
variable {R : LayerCache F → LayerCache F → Prop} (hR : Closed R) {K : Kernels F} {d : Device F}
include hR

theorem Closed.mapRow {c c' : LayerCache F} (h : R c c') (name : CacheTensor) (i : ℕ)
    (f : List F → List F) : R (c.mapRow name i f) (c'.mapRow name i f) := hR.mapRows _ _ _ _ h

theorem compressorUpdate_respects (lane : LaneTensors)
    (layer dim ratio position compRow : ℕ) (row : Engine.StateRow F) (error : String) :
    Respects R (compressorUpdate K d lane layer dim ratio position compRow row error) := by
  unfold compressorUpdate
  apply respects_bind
  · apply respects_launch
    intro c c' h
    unfold LayerCache.storeState
    exact hR.mapRow (hR.mapRow h _ _ _) _ _ _
  intro _
  apply respects_ite
  · intro _
    exact respects_pure _
  intro _
  apply respects_bind (respects_call _)
  intro ok
  apply respects_bind (respects_require _ _)
  intro _
  apply respects_bind
  · apply respects_launch
    intro c c' h
    rw [(hR.alike c c' h).rows]
    exact hR.mapRow h _ _ _
  intro _
  apply respects_bind
  · apply respects_launch
    intro c c' h
    exact hR.mapRow h _ _ _
  intro _
  apply respects_bind
  · apply respects_launch
    intro c c' h
    exact hR.mapRow h _ _ _
  intro _
  apply respects_ite
  · intro _
    exact respects_pure _
  intro _
  apply respects_launch
  intro c c' h
  unfold LayerCache.shiftState
  exact hR.mapRows _ _ _ _ (hR.mapRows _ _ _ _ h)

theorem roundAttnRow_respects (fp8 : Bool) (compRow : ℕ) :
    Respects R (roundAttnRow K d fp8 compRow) := by
  unfold roundAttnRow
  apply respects_bind (respects_call _)
  intro ok
  apply respects_bind (respects_require _ _)
  intro _
  have hlast : Respects R (do
      launch d.answers (fun c => c.mapRow .attnCompKv compRow K.f16Round)
        "attention compressed row KV round-trip failed"
      write fun c => { c with nAttnComp := c.nAttnComp + 1 }) := by
    apply respects_bind
    · apply respects_launch
      intro c c' h
      exact hR.mapRow h _ _ _
    intro _
    exact respects_write hR.countAttn
  apply respects_ite
  · intro _
    apply respects_bind _ fun _ => hlast
    apply respects_launch
    intro c c' h
    exact hR.mapRow h _ _ _
  · intro _
    exact hlast

theorem roundIndexRow_respects (compRow : ℕ) : Respects R (roundIndexRow K d compRow) := by
  unfold roundIndexRow
  apply respects_bind (respects_call _)
  intro ok
  apply respects_bind (respects_require _ _)
  intro _
  apply respects_bind
  · apply respects_launch
    intro c c' h
    exact hR.mapRow h _ _ _
  intro _
  exact respects_write hR.countIndex

theorem storeRaw_respects (fp8 : Bool) (proj : Projected F) (position : ℕ) :
    Respects R (storeRaw K d fp8 proj position) := by
  unfold storeRaw
  apply sim_readAt_bind
  · intro c c' _ h
    rw [(hR.alike c c' h).rawWindow]
  intro _ _ _ _
  apply sim_readAt_bind
  · intro c c' _ h
    rw [(hR.alike c c' h).rawCap]
  intro _ _ _ _
  have hlast : ∀ (cap : ℕ) (inputs : AttentionInputs), Respects R (do
      launch d.answers (fun c => c.mapRow .rawKv (position % cap) fun _ =>
        if fp8 then K.quantizeKv proj.kv else proj.kv) "decode cache raw KV update failed"
      return inputs) := by
    intro cap inputs
    apply respects_bind
    · apply respects_launch
      intro c c' h
      exact hR.mapRow h _ _ _
    intro _
    exact respects_pure _
  apply respects_ite
  · intro _
    apply respects_bind (respects_call _)
    intro ok
    apply respects_bind (respects_require _ _)
    intro _
    exact hlast _ _
  · intro _
    exact hlast _ _

theorem stepAttnCompressor_respects (fp8 : Bool) (layer : ℕ) (proj : Projected F)
    (position : ℕ) : Respects R (stepAttnCompressor K d fp8 layer proj position) := by
  unfold stepAttnCompressor
  apply sim_readAt_bind
  · intro c c' _ h
    exact (hR.alike c c' h).nAttnComp
  intro _ _ _ _
  apply sim_readAt_bind
  · intro c c' _ h
    exact (hR.alike c c' h).attnCompCap
  intro _ _ _ _
  apply respects_ite
  · intro _
    exact respects_throw _
  intro _
  apply respects_bind (respects_call _)
  intro ok
  apply respects_bind (respects_require _ _)
  intro _
  apply respects_bind (respects_call _)
  intro ok
  apply respects_bind (respects_require _ _)
  intro _
  apply respects_bind (compressorUpdate_respects hR _ _ _ _ _ _ _ _)
  intro _
  apply respects_ite
  · intro _
    exact roundAttnRow_respects hR fp8 _
  · intro _
    exact respects_pure _

theorem stepIndexCompressor_respects (layer : ℕ) (proj : Projected F) (position : ℕ) :
    Respects R (stepIndexCompressor K d layer proj position) := by
  unfold stepIndexCompressor
  apply sim_readAt_bind
  · intro c c' _ h
    exact (hR.alike c c' h).nIndexComp
  intro _ _ _ _
  apply sim_readAt_bind
  · intro c c' _ h
    exact (hR.alike c c' h).indexCompCap
  intro _ _ _ _
  apply respects_ite
  · intro _
    exact respects_throw _
  intro _
  apply respects_bind (respects_call _)
  intro ok
  apply respects_bind (respects_require _ _)
  intro _
  apply respects_bind (respects_call _)
  intro ok
  apply respects_bind (respects_require _ _)
  intro _
  apply respects_bind (compressorUpdate_respects hR _ _ _ _ _ _ _ _)
  intro _
  apply respects_ite
  · intro _
    exact roundIndexRow_respects hR _
  · intro _
    exact respects_pure _

theorem selectRows_respects (layer : ℕ) (proj : Projected F) (position : ℕ) :
    Respects R (selectRows K d layer proj position) := by
  unfold selectRows
  apply sim_readAt_bind
  · intro c c' _ h
    exact (hR.alike c c' h).nIndexComp
  intro _ _ _ _
  apply sim_readAt_bind
  · intro c c' _ h
    rw [(hR.alike c c' h).indexerTopK]
  intro _ _ _ _
  apply respects_ite
  · intro _
    exact respects_pure _
  intro _
  apply respects_bind (respects_call _)
  intro ok
  apply respects_bind (respects_require _ _)
  intro _
  apply respects_bind (respects_call _)
  intro ok
  apply respects_bind (respects_require _ _)
  intro _
  apply sim_readAt_bind
  · intro c c' _ h
    unfold LayerCache.compressedRows
    rw [(hR.alike c c' h).rows]
  intro _ _ _ _
  apply respects_bind
  · apply respects_launch
    intro c c' h
    exact hR.setTopk _ _ _ h
  intro _
  exact respects_pure _

theorem prepareDecodeCacheAttention_respects (fp8 : Bool) (layer : ℕ) (proj : Projected F)
    (position : ℕ) :
    Respects R (prepareDecodeCacheAttention K d fp8 layer proj position) := by
  unfold prepareDecodeCacheAttention
  apply respects_bind (storeRaw_respects hR fp8 proj position)
  intro inputs
  apply respects_ite
  · intro _
    exact respects_pure _
  intro _
  apply respects_bind (stepAttnCompressor_respects hR fp8 layer proj position)
  intro _
  apply sim_readAt_bind
  · intro c c' _ h
    exact (hR.alike c c' h).nAttnComp
  intro _ _ _ _
  apply respects_ite
  · intro _
    exact respects_pure _
  intro _
  apply respects_bind (stepIndexCompressor_respects hR layer proj position)
  intro _
  apply respects_bind (selectRows_respects hR layer proj position)
  intro _
  exact respects_pure _

end Prepare

end Ds4.Stage
