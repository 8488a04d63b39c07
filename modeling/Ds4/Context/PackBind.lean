import Ds4.Context.TurbomindBind
import Mathlib.Order.Lattice.Nat

/-! Binding of the pack index into a context: the size, the execution and the place of each tensor
are checked. -/
namespace Ds4.Context
open Ds4.Packs (PackEntry Pack add64 mul64)

/-- The bytes of so many elements, unless they are not whole blocks or leave the 64 bits. -/
def sourceBytes (dtype : SourceDtype) (elements : ℕ) : Option ℕ :=
  match dtype with
  | .bf16 => if maxU64 / 2 < elements then none else some (elements * 2)
  | .f32 | .i32 => if maxU64 / 4 < elements then none else some (elements * 4)
  | .f8E4m3B128 =>
      if maxU64 - add64 elements 127 / 128 < elements then none
      else some (elements + add64 elements 127 / 128)
  | .mxfp4 | .fp4 =>
      if elements % 32 ≠ 0 then none
      else if maxU64 / 17 < elements then none
      else some (elements * 17 / 32)
  | .unknown => none

/-- `expected_bytes_for_entry`, on the two columns it reads. -/
def expectedBytes (sourceDtype sourceShape : Bytes) : Option ℕ :=
  (parseShapeDims sourceShape).bind fun dims => sourceBytes (sourceDtypeParse sourceDtype) dims.2

def expectedBytesForEntry (e : PackEntry) : Option ℕ := expectedBytes e.sourceDtype e.sourceShape

/-- `ds4_pack_arena_bytes`: the largest end among the entries of a GPU. -/
def packArenaBytes (p : Pack) (gpu : ℤ) : ℕ :=
  p.entries.foldl (fun stop e =>
    if e.owningGpu = gpu ∧ stop < add64 e.shardOffset e.byteLength then
      add64 e.shardOffset e.byteLength
    else stop) 0

/-- The families that a layer has tensors of, as far as the pack index tells. -/
structure LayerFamilies where
  hasF32Control : Bool := false
  hasFp8Dense : Bool := false
  hasHcControl : Bool := false

/-- A context while indexes are bound into it. -/
structure PackBindContext extends BindContext where
  descs : List (PackEntry × Policy)
  families : ℕ → LayerFamilies
  hasTokenEmbedding : Bool

/-- The flags of a layer behind a tensor of a family. -/
def LayerFamilies.mark (l : LayerFamilies) : TensorFamily → LayerFamilies
  | .f32Control => { l with hasF32Control := true }
  | .fp8Dense => { l with hasFp8Dense := true }
  | .hcControl => { l with hasHcControl := true }
  | _ => l

/-- What is written for a layer's tensor. -/
def countLayerTensor (ctx : PackBindContext) (e : PackEntry) (policy : Policy) : PackBindContext :=
  if e.layerId < 0 then ctx
  else
    let layer := e.layerId.toNat
    let l := ctx.layers layer
    { ctx with
      layers := Function.update ctx.layers layer
        ⟨l.tensorCount + 1, l.hasMxfp4Expert || policy.family = .mxfp4Expert⟩
      families := Function.update ctx.families layer ((ctx.families layer).mark policy.family) }

/-- What is written once an entry is found good. -/
def placePackEntry (ctx : PackBindContext) (e : PackEntry) (policy : Policy) : PackBindContext :=
  let gpu := e.owningGpu.toNat
  let ctx := countLayerTensor ctx e policy
  { ctx with
    stages := Function.update ctx.stages gpu
      ⟨(ctx.stages gpu).tensorCount + 1, (ctx.stages gpu).arenaBytes⟩
    descs := ctx.descs ++ [(e, policy)]
    execCounts := Function.update ctx.execCounts policy.execKind
      (ctx.execCounts policy.execKind + 1)
    hasTokenEmbedding := ctx.hasTokenEmbedding ||
      e.semanticTensorId == lit "token_embd.weight" }

/-- `bind_pack_entry`. -/
def bindPackEntry (p : Pack) (ctx : PackBindContext) (e : PackEntry) :
    Except String PackBindContext :=
  let id := shown e.semanticTensorId
  if e.owningGpu < 0 ∨ maxGpu ctx.toBindContext ≤ e.owningGpu then
    .error (id ++ " has invalid owning GPU " ++ toString e.owningGpu)
  else if (nLayers : ℤ) ≤ e.layerId then
    .error (id ++ " has invalid layer id " ++ toString e.layerId)
  else if 0 ≤ e.layerId ∧ stageForLayer e.layerId.toNat ≠ e.owningGpu.toNat then
    .error (id ++ " owner gpu " ++ toString e.owningGpu ++ " does not match layer " ++
      toString e.layerId ++ " stage " ++ toString (stageForLayer e.layerId.toNat))
  else
    match expectedBytesForEntry e with
    | none => .error (id ++ " has unsupported source shape/dtype " ++ shown e.sourceDtype ++ " " ++
        shown e.sourceShape)
    | some expected =>
        if expected ≠ e.byteLength then
          .error (id ++ " byte length mismatch: expected " ++ toString expected ++ " got " ++
            toString e.byteLength)
        else
          match classifyOrDie e.sourceDtype e.runtimeLayout e.kernelFamily with
          | .error err => .error err
          | .ok policy =>
              let arenaBytes := packArenaBytes p e.owningGpu
              if arenaBytes < e.shardOffset ∨ arenaBytes - e.shardOffset < e.byteLength then
                .error (id ++ " arena span overflows gpu" ++ toString e.owningGpu ++ " arena")
              else .ok (placePackEntry ctx e policy)

/-- `ds4_pack_for_each`, with the binding of an entry. -/
def bindPackEntries (p : Pack) : PackBindContext → List PackEntry → Except String PackBindContext
  | ctx, [] => .ok ctx
  | ctx, e :: es =>
      match bindPackEntry p ctx e with
      | .error err => .error err
      | .ok ctx' => bindPackEntries p ctx' es

/-- `bind_pack`, behind the opening of the index. -/
def bindPack (ctx : PackBindContext) (p : Pack) : Except String PackBindContext :=
  bindPackEntries p
    { ctx with
      stages := fun gpu =>
        if gpu < expectedGpus then ⟨(ctx.stages gpu).tensorCount, packArenaBytes p gpu⟩
        else ctx.stages gpu }
    p.entries

section Bind
variable {p : Pack} {ctx ctx' : PackBindContext} {e : PackEntry} {es : List PackEntry} {gpu : ℤ}

/-- The largest end of a GPU's entries, as numbers without a bound. -/
def packEnd (p : Pack) (gpu : ℤ) : ℕ :=
  (p.entries.toFinset.filter fun e => e.owningGpu = gpu).sup fun e => e.shardOffset + e.byteLength

/-- The arena holds the end of every entry of its GPU, as the code adds it. -/
theorem le_packArenaBytes (he : e ∈ p.entries) (hg : e.owningGpu = gpu) :
    add64 e.shardOffset e.byteLength ≤ packArenaBytes p gpu := by
  have hmono : ∀ (es : List PackEntry) (stop : ℕ), stop ≤ es.foldl (fun stop e =>
      if e.owningGpu = gpu ∧ stop < add64 e.shardOffset e.byteLength then
        add64 e.shardOffset e.byteLength
      else stop) stop := by
    intro es
    induction es with
    | nil => exact fun stop => le_rfl
    | cons x es ih =>
      intro stop
      rw [List.foldl_cons]
      refine le_trans ?_ (ih _)
      split_ifs with hx
      · exact hx.2.le
      · exact le_rfl
  unfold packArenaBytes
  obtain ⟨s, t, hst⟩ := List.append_of_mem he
  rw [hst, List.foldl_append, List.foldl_cons]
  refine le_trans ?_ (hmono t _)
  split_ifs with hx
  · exact le_rfl
  · rw [not_and, not_lt] at hx
    exact hx hg

/-- The arena does not end behind the last tensor. -/
theorem packArenaBytes_le (p : Pack) (gpu : ℤ) : packArenaBytes p gpu ≤ packEnd p gpu := by
  have hfold : ∀ (es : List PackEntry) (stop : ℕ), (∀ e ∈ es, e ∈ p.entries) →
      stop ≤ packEnd p gpu → es.foldl (fun stop e =>
        if e.owningGpu = gpu ∧ stop < add64 e.shardOffset e.byteLength then
          add64 e.shardOffset e.byteLength
        else stop) stop ≤ packEnd p gpu := by
    intro es
    induction es with
    | nil => exact fun stop _ hstop => hstop
    | cons e es ih =>
      intro stop hes hstop
      rw [List.foldl_cons]
      apply ih _ fun x hx => hes x (List.mem_cons_of_mem e hx)
      split_ifs with hx
      · have hmem : e ∈ p.entries.toFinset.filter fun e => e.owningGpu = gpu :=
          Finset.mem_filter.2 ⟨List.mem_toFinset.2 (hes e List.mem_cons_self), hx.1⟩
        have hend : e.shardOffset + e.byteLength ≤ packEnd p gpu :=
          Finset.le_sup (f := fun e : PackEntry => e.shardOffset + e.byteLength) hmem
        exact (Nat.mod_le _ _).trans hend
      · exact hstop
  exact hfold p.entries 0 (fun e he => he) (Nat.zero_le _)

/-- Where no end leaves the 64 bits, the arena ends behind the last tensor. -/
theorem packArenaBytes_eq (h : packEnd p gpu < 2 ^ 64) : packArenaBytes p gpu = packEnd p gpu := by
  apply le_antisymm (packArenaBytes_le p gpu)
  apply Finset.sup_le
  intro e he
  obtain ⟨hmem, hg⟩ := Finset.mem_filter.1 he
  have hend : e.shardOffset + e.byteLength ≤ packEnd p gpu :=
    Finset.le_sup (f := fun e : PackEntry => e.shardOffset + e.byteLength) he
  have hadd : add64 e.shardOffset e.byteLength = e.shardOffset + e.byteLength :=
    Nat.mod_eq_of_lt (hend.trans_lt h)
  rw [← hadd]
  exact le_packArenaBytes (List.mem_toFinset.1 hmem) hg

/-- A tensor that is bound was placed. -/
theorem bindPackEntry_ok (h : bindPackEntry p ctx e = .ok ctx') :
    ∃ policy, ctx' = placePackEntry ctx e policy := by
  unfold bindPackEntry at h
  cases hexp : expectedBytesForEntry e with
  | none =>
    simp only [hexp] at h
    split_ifs at h
  | some expected =>
    cases hpol : classifyOrDie e.sourceDtype e.runtimeLayout e.kernelFamily with
    | error err =>
      simp only [hexp, hpol] at h
      split_ifs at h
    | ok policy =>
      simp only [hexp, hpol] at h
      split_ifs at h
      exact ⟨policy, (Except.ok.inj h).symm⟩

/-- A tensor that is bound leaves the arenas as they were. -/
theorem bindPackEntry_arena (h : bindPackEntry p ctx e = .ok ctx') (i : ℕ) :
    (ctx'.stages i).arenaBytes = (ctx.stages i).arenaBytes ∧
      ctx'.expectedGpus = ctx.expectedGpus := by
  obtain ⟨policy, rfl⟩ := bindPackEntry_ok h
  have hcount : (countLayerTensor ctx e policy).stages = ctx.stages ∧
      (countLayerTensor ctx e policy).expectedGpus = ctx.expectedGpus := by
    unfold countLayerTensor
    split_ifs
    · exact ⟨rfl, rfl⟩
    · exact ⟨rfl, rfl⟩
  unfold placePackEntry
  simp only
  rw [hcount.1, hcount.2]
  refine ⟨?_, rfl⟩
  by_cases hi : i = e.owningGpu.toNat
  · rw [hi, Function.update_self]
  · rw [Function.update_of_ne hi]

theorem bindPackEntries_arena (es : List PackEntry) : ∀ ctx : PackBindContext,
    bindPackEntries p ctx es = .ok ctx' → ∀ i,
    (ctx'.stages i).arenaBytes = (ctx.stages i).arenaBytes ∧
      ctx'.expectedGpus = ctx.expectedGpus := by
  induction es with
  | nil =>
    intro ctx h i
    obtain rfl := Except.ok.inj h
    exact ⟨rfl, rfl⟩
  | cons e es ih =>
    intro ctx h i
    rw [bindPackEntries] at h
    cases hb : bindPackEntry p ctx e with
    | error err =>
      rw [hb] at h
      cases h
    | ok mid =>
      rw [hb] at h
      obtain ⟨hone, hgpus⟩ := bindPackEntry_arena hb i
      obtain ⟨hrest, hgpus'⟩ := ih mid h i
      exact ⟨hrest.trans hone, hgpus'.trans hgpus⟩

/-- Behind the pack the arena of a GPU is that of its entries. -/
theorem bindPack_arena (h : bindPack ctx p = .ok ctx') {i : ℕ} (hi : i < expectedGpus) :
    (ctx'.stages i).arenaBytes = packArenaBytes p i := by
  have harena := (bindPackEntries_arena p.entries _ h i).1
  simp only at harena
  rw [if_pos hi] at harena
  exact harena

end Bind

end Ds4.Context
