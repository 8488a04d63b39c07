import Ds4.Stage.CacheLaws
import Ds4.Stage.Decode

/-! The rows of a cache behind each write of a step, and what a step may touch before its row is
emitted. -/
namespace Ds4.Stage
open Context State State.Prog Engine

variable {F : Type}

section Rows
variable {c : LayerCache F} {name other : CacheTensor}

theorem rows_mapRows_other (h : other ≠ name) (f : (ℕ → List F) → ℕ → List F) :
    (c.mapRows name f).rows other = c.rows other := by
  unfold LayerCache.mapRows LayerCache.rows
  rw [setTensor_other h]

theorem rows_mapRow_other (h : other ≠ name) (i : ℕ) (f : List F → List F) :
    (c.mapRow name i f).rows other = c.rows other := rows_mapRows_other h _

theorem isSome_mapRows (f : (ℕ → List F) → ℕ → List F) (h : (c.tensor other).isSome = true) :
    ((c.mapRows name f).tensor other).isSome = true := by
  unfold LayerCache.mapRows
  by_cases hname : other = name
  · subst hname
    rw [setTensor_same, Option.isSome_map]
    exact h
  · rw [setTensor_other hname]
    exact h

end Rows

section Shape
variable {d : Device F} {o : SchedulerOptions} {layer : ℕ} {c : LayerCache F}

theorem IsShaped.mapRows (h : IsShaped d o layer c) (name : CacheTensor)
    (f : (ℕ → List F) → ℕ → List F) : IsShaped d o layer (c.mapRows name f) := by
  apply h.sameShape
  constructor
  · intro other
    unfold LayerCache.mapRows
    by_cases hname : other = name
    · rw [hname, setTensor_same, Option.map_map]
      rfl
    · rw [setTensor_other hname]
  · rfl

theorem IsShaped.setTopk (h : IsShaped d o layer c) (selected : List ℕ) :
    IsShaped d o layer (c.setTopk selected) := by
  have htopk : (c.setTopk selected).indexerTopk.map Tensor.values =
      c.indexerTopk.map Tensor.values := by
    unfold LayerCache.setTopk
    simp only [Option.map_map]
    rfl
  exact { h with topk := htopk.trans h.topk }

/-- The tensors of a compressor that its layer has. -/
structure HasLane (lane : LaneTensors) (c : LayerCache F) : Prop where
  kv : (c.tensor lane.kv).isSome = true
  score : (c.tensor lane.score).isSome = true
  comp : (c.tensor lane.comp).isSome = true

theorem HasLane.mapRows {lane : LaneTensors} (h : HasLane lane c) (name : CacheTensor)
    (f : (ℕ → List F) → ℕ → List F) : HasLane lane (c.mapRows name f) :=
  ⟨isSome_mapRows f h.kv, isSome_mapRows f h.score, isSome_mapRows f h.comp⟩

theorem IsShaped.attnLane (h : IsShaped d o layer c) (h0 : compressRatio layer ≠ 0) :
    HasLane attnLane c :=
  ⟨h.isSome (if_neg h0), h.isSome (if_neg h0), h.isSome (if_neg h0)⟩

theorem IsShaped.indexLane (h : IsShaped d o layer c) (h4 : compressRatio layer = 4) :
    HasLane indexLane c :=
  ⟨h.isSome (if_pos h4), h.isSome (if_pos h4), h.isSome (if_pos h4)⟩

end Shape

/-- The row of the rolling state that a position is stored in. -/
def stateIndex (ratio position : ℕ) : ℕ :=
  if ratio = 4 then ratio + position % ratio else position % ratio

section Touch

/-- The rows that a step at a position may write before its compressed row is counted. -/
def Dirty (layer position : ℕ) (c : LayerCache F) : CacheTensor → ℕ → Prop
  | .rawKv, i => i = position % c.rawCap
  | .attnStateKv, i => i = stateIndex (compressRatio layer) position
  | .attnStateScore, i => i = stateIndex (compressRatio layer) position
  | .attnCompKv, i => i = c.nAttnComp
  | .indexStateKv, i => i = stateIndex (compressRatio layer) position
  | .indexStateScore, i => i = stateIndex (compressRatio layer) position
  | .indexCompKv, i => i = c.nIndexComp

/-- A step has touched nothing that counts so far. -/
structure Touched (d : Device F) (o : SchedulerOptions) (layer position : ℕ)
    (c t : LayerCache F) : Prop where
  shaped : IsShaped d o layer t
  nAttnComp : t.nAttnComp = c.nAttnComp
  nIndexComp : t.nIndexComp = c.nIndexComp
  rows : ∀ name i, ¬ Dirty layer position c name i → t.rows name i = c.rows name i

variable {d : Device F} {o : SchedulerOptions} {layer position : ℕ} {c t : LayerCache F}

theorem Touched.refl (h : IsShaped d o layer c) : Touched d o layer position c c :=
  ⟨h, rfl, rfl, fun _ _ _ => rfl⟩

theorem Touched.mapRow (h : Touched d o layer position c t) {name : CacheTensor} {i : ℕ}
    (hi : Dirty layer position c name i) (f : List F → List F) :
    Touched d o layer position c (t.mapRow name i f) := by
  constructor
  · exact h.shaped.mapRows name _
  · exact h.nAttnComp
  · exact h.nIndexComp
  · intro other j hj
    by_cases hname : other = name
    · subst hname
      have hij : j ≠ i := by
        rintro rfl
        exact hj hi
      rw [← h.rows other j hj]
      unfold LayerCache.mapRow LayerCache.mapRows LayerCache.rows
      rw [setTensor_same]
      cases t.tensor other with
      | none => rfl
      | some x => exact Function.update_of_ne hij _ _
    · rw [rows_mapRow_other hname]
      exact h.rows other j hj

theorem Touched.setTopk (h : Touched d o layer position c t) (selected : List ℕ) :
    Touched d o layer position c (t.setTopk selected) :=
  ⟨h.shaped.setTopk selected, h.nAttnComp, h.nIndexComp, h.rows⟩

end Touch

/-- Every call from `n` on, up to `m`, has succeeded. -/
def Device.Good (d : Device F) (n m : ℕ) : Prop := ∀ k, n ≤ k → k < m → d.answers k = true

theorem Device.Good.start (d : Device F) (n : ℕ) : d.Good n n := by
  intro k hk hlt
  omega

theorem Device.Good.next {d : Device F} {n m : ℕ} (h : d.Good n m) (hm : d.answers m = true) :
    d.Good n (m + 1) := by
  intro k hk hlt
  by_cases hkm : k = m
  · rw [hkm]
    exact hm
  · exact h k hk (by omega)

/-- A lane and the row it emits next are for the step at a position to write. -/
structure LaneOf (layer position : ℕ) (c : LayerCache F) (lane : LaneTensors) (n : ℕ) : Prop where
  kv : Dirty layer position c lane.kv (stateIndex (compressRatio layer) position)
  score : Dirty layer position c lane.score (stateIndex (compressRatio layer) position)
  comp : Dirty layer position c lane.comp n
  score_ne : lane.score ≠ lane.kv
  comp_ne_kv : lane.comp ≠ lane.kv
  comp_ne_score : lane.comp ≠ lane.score

section Lane
variable {K : Kernels F} {d : Device F} {o : SchedulerOptions} {layer position n m : ℕ}
  {c t : LayerCache F} {lane : LaneTensors} {row : StateRow F}

variable (h : Touched d o layer position c t) (hlane : LaneOf layer position c lane n)
include h hlane

theorem Touched.storeState (ratio : ℕ) (hratio : compressRatio layer = ratio)
    (row : StateRow F) :
    Touched d o layer position c (t.storeState lane ratio position row) := by
  subst hratio
  unfold LayerCache.storeState
  exact (h.mapRow hlane.kv _).mapRow hlane.score _

end Lane

end Ds4.Stage
