import Ds4.Stage.Cache

/-! An allocated cache is fresh, and so is a cleared one. -/
namespace Ds4.Stage
open Context State State.Prog

variable {F : Type} {d : Device F} {o : SchedulerOptions} {layer : ℕ} {c : LayerCache F}

@[simp] theorem setTensor_same (c : LayerCache F) (name : CacheTensor) (t : Option (Tensor F)) :
    (c.setTensor name t).tensor name = t := Function.update_self _ _ _

theorem setTensor_other {name other : CacheTensor} (h : other ≠ name) (t : Option (Tensor F)) :
    (c.setTensor name t).tensor other = c.tensor other := Function.update_of_ne h _ _

/-- Some call fails. -/
def Device.Fails (d : Device F) : Prop := ∃ n, d.answers n = false

section Rules
variable {E : LayerCache F × ℕ → Prop} {Q : Bool → LayerCache F × ℕ → Prop} {n : ℕ}

theorem wp_allocTensor {name : CacheTensor} {values : ℕ}
    (hno : d.answers n = false → Q false (c.setTensor name none, n + 1))
    (hok : ∀ row, Q true (c.setTensor name (some ⟨values, row⟩), n + 1)) :
    wp (allocTensor d name values) Q E (c, n) := by
  simp only [allocTensor, wp_bind, wp_readAt, wp_call, wp_write, wp_pure]
  cases hn : d.answers n with
  | false => exact hno hn
  | true => exact hok _

theorem wp_allocTopk {values : ℕ}
    (hno : d.answers n = false → Q false ({ c with indexerTopk := none }, n + 1))
    (hok : ∀ row, Q true ({ c with indexerTopk := some ⟨values, row⟩ }, n + 1)) :
    wp (allocTopk d values) Q E (c, n) := by
  simp only [allocTopk, wp_bind, wp_readAt, wp_call, wp_write, wp_pure]
  cases hn : d.answers n with
  | false => exact hno hn
  | true => exact hok _

/-- A tensor of the right size is filled, or left alone. -/
theorem wp_fillTensor {name : CacheTensor} {v : F} {rows width : ℕ}
    (hsize : (c.tensor name).map Tensor.values = some (rows * width))
    (hno : d.answers n = false → Q false (c, n + 1))
    (hok : Q true (c.setTensor name (some (filled (rows, width, v))), n + 1)) :
    wp (fillTensor d name v rows width) Q E (c, n) := by
  obtain ⟨t, ht, hvalues⟩ := Option.map_eq_some_iff.1 hsize
  have hcond : ¬ t.values < rows * width := by omega
  simp only [fillTensor, wp_bind, wp_readAt, ht, if_neg hcond, wp_call, wp_write, wp_pure]
  cases hn : d.answers n with
  | false => exact hno hn
  | true =>
    have hfilled : ({ t with row := fun _ => List.replicate width v } : Tensor F) =
        filled (rows, width, v) := by
      unfold filled
      rw [← hvalues]
    rw [← hfilled] at hok
    exact hok

end Rules

/-- Another content for the same tensors. -/
structure SameShape (c c' : LayerCache F) : Prop where
  values : ∀ name, (c'.tensor name).map Tensor.values = (c.tensor name).map Tensor.values
  rest : { c' with tensor := c.tensor } = c

theorem SameShape.refl (c : LayerCache F) : SameShape c c := ⟨fun _ => rfl, rfl⟩

theorem SameShape.trans {a b c : LayerCache F} (h : SameShape a b) (h' : SameShape b c) :
    SameShape a c := by
  constructor
  · intro name
    rw [h'.values, h.values]
  · have hrest := h.rest
    rw [← h'.rest] at hrest
    exact hrest

theorem sameShape_setTensor {name : CacheTensor} {t : Tensor F}
    (h : (c.tensor name).map Tensor.values = some t.values) :
    SameShape c (c.setTensor name (some t)) := by
  constructor
  · intro other
    by_cases hname : other = name
    · subst hname
      rw [setTensor_same, h]
      rfl
    · rw [setTensor_other hname]
  · rfl

section Fills
variable {n rows width capacity : ℕ} {E : LayerCache F × ℕ → Prop}

/-- Three tensors filled one after the other, up to the first failure. -/
def fillThree (c : LayerCache F) (a b e : CacheTensor) (s t u : ℕ × ℕ × F) : LayerCache F :=
  ((c.setTensor a (some (filled s))).setTensor b (some (filled t))).setTensor e (some (filled u))

theorem wp_fillThree (a b e : CacheTensor) (s t u : ℕ × ℕ × F) (hab : b ≠ a) (hae : e ≠ a)
    (hbe : e ≠ b)
    (ha : (c.tensor a).map Tensor.values = some (s.1 * s.2.1))
    (hb : (c.tensor b).map Tensor.values = some (t.1 * t.2.1))
    (he : (c.tensor e).map Tensor.values = some (u.1 * u.2.1)) :
    wp (do
      if !(← fillTensor d a s.2.2 s.1 s.2.1) then return false
      if !(← fillTensor d b t.2.2 t.1 t.2.1) then return false
      fillTensor d e u.2.2 u.1 u.2.1)
      (fun ok r => SameShape c r.1 ∧ (ok = false → d.Fails) ∧
        (ok = true → r.1 = fillThree c a b e s t u)) E (c, n) := by
  have hfirst : SameShape c (c.setTensor a (some (filled s))) := sameShape_setTensor ha
  have hsecond : SameShape c
      ((c.setTensor a (some (filled s))).setTensor b (some (filled t))) := by
    apply hfirst.trans
    apply sameShape_setTensor
    rw [setTensor_other hab]
    exact hb
  rw [wp_bind]
  apply wp_fillTensor ha
  · intro hn
    exact ⟨SameShape.refl c, fun _ => ⟨_, hn⟩, fun h => absurd h (by simp)⟩
  · simp only [Bool.not_true, Bool.false_eq_true, if_false, wp_bind]
    apply wp_fillTensor
    · rw [setTensor_other hab]
      exact hb
    · intro hn
      exact ⟨hfirst, fun _ => ⟨_, hn⟩, fun h => absurd h (by simp)⟩
    · simp only [Bool.not_true, Bool.false_eq_true, if_false]
      apply wp_fillTensor
      · rw [setTensor_other hbe, setTensor_other hae]
        exact he
      · intro hn
        exact ⟨hsecond, fun _ => ⟨_, hn⟩, fun h => absurd h (by simp)⟩
      · refine ⟨hsecond.trans ?_, fun h => absurd h (by simp), fun _ => rfl⟩
        apply sameShape_setTensor
        rw [setTensor_other hbe, setTensor_other hae]
        exact he

/-- The attention compressor after its fills. -/
def attnFilled (d : Device F) (o : SchedulerOptions) (ratio : ℕ) (c : LayerCache F) :
    LayerCache F :=
  fillThree c .attnStateKv .attnStateScore .attnCompKv
    (coff ratio * ratio, coff ratio * headDim, d.zero)
    (coff ratio * ratio, coff ratio * headDim, d.low) (o.attnCapacity, headDim, d.zero)

def indexFilled (d : Device F) (o : SchedulerOptions) (ratio : ℕ) (c : LayerCache F) :
    LayerCache F :=
  fillThree c .indexStateKv .indexStateScore .indexCompKv
    (2 * ratio, 2 * indexerHeadDim, d.zero) (2 * ratio, 2 * indexerHeadDim, d.low)
    (o.indexCapacity, indexerHeadDim, d.zero)

theorem wp_fillAttnCompressor {ratio : ℕ}
    (hkv : (c.tensor .attnStateKv).map Tensor.values =
      some (coff ratio * ratio * (coff ratio * headDim)))
    (hscore : (c.tensor .attnStateScore).map Tensor.values =
      some (coff ratio * ratio * (coff ratio * headDim)))
    (hcomp : (c.tensor .attnCompKv).map Tensor.values = some (o.attnCapacity * headDim)) :
    wp (fillAttnCompressor d o ratio)
      (fun ok r => SameShape c r.1 ∧ (ok = false → d.Fails) ∧
        (ok = true → r.1 = attnFilled d o ratio c)) E (c, n) :=
  wp_fillThree .attnStateKv .attnStateScore .attnCompKv
    (coff ratio * ratio, coff ratio * headDim, d.zero)
    (coff ratio * ratio, coff ratio * headDim, d.low) (o.attnCapacity, headDim, d.zero)
    (by decide) (by decide) (by decide) hkv hscore hcomp

theorem wp_fillIndexCompressor {ratio : ℕ}
    (hkv : (c.tensor .indexStateKv).map Tensor.values =
      some (2 * ratio * (2 * indexerHeadDim)))
    (hscore : (c.tensor .indexStateScore).map Tensor.values =
      some (2 * ratio * (2 * indexerHeadDim)))
    (hcomp : (c.tensor .indexCompKv).map Tensor.values =
      some (o.indexCapacity * indexerHeadDim)) :
    wp (fillIndexCompressor d o ratio)
      (fun ok r => SameShape c r.1 ∧ (ok = false → d.Fails) ∧
        (ok = true → r.1 = indexFilled d o ratio c)) E (c, n) :=
  wp_fillThree .indexStateKv .indexStateScore .indexCompKv
    (2 * ratio, 2 * indexerHeadDim, d.zero) (2 * ratio, 2 * indexerHeadDim, d.low)
    (o.indexCapacity, indexerHeadDim, d.zero) (by decide) (by decide) (by decide)
    hkv hscore hcomp

end Fills

theorem compressRatio_cases (layer : ℕ) :
    compressRatio layer = 0 ∨ compressRatio layer = 4 ∨ compressRatio layer = 128 := by
  unfold compressRatio
  cases layerClassForLayer layer with
  | swaOnly => exact .inl rfl
  | ratio4 => exact .inr (.inl rfl)
  | ratio128 => exact .inr (.inr rfl)

section AllocThree
variable {n va vb ve : ℕ} {a b e : CacheTensor} {err : String} {E : LayerCache F × ℕ → Prop}
  (hE : ∀ r, d.Fails → E r)
include hE

/-- Where one of three allocations fails, the program ends at the check behind them. -/
theorem wp_allocThree {Q : PUnit → LayerCache F × ℕ → Prop} (rest : Prog (LayerCache F) PUnit)
    (hok : ∀ ra rb re, wp rest Q E
      (((c.setTensor a (some ⟨va, ra⟩)).setTensor b (some ⟨vb, rb⟩)).setTensor e
        (some ⟨ve, re⟩), n + 1 + 1 + 1)) :
    wp (do
      let kv ← allocTensor d a va
      let score ← allocTensor d b vb
      let comp ← allocTensor d e ve
      require (kv && score && comp) err
      rest) Q E (c, n) := by
  simp only [wp_bind]
  apply wp_allocTensor
  · intro hn
    apply wp_allocTensor <;> intro _ <;> apply wp_allocTensor <;> intro _ <;>
      exact hE _ ⟨_, hn⟩
  intro ra
  apply wp_allocTensor
  · intro hn
    apply wp_allocTensor <;> intro _ <;> exact hE _ ⟨_, hn⟩
  intro rb
  apply wp_allocTensor
  · intro hn
    exact hE _ ⟨_, hn⟩
  intro re
  exact hok ra rb re

/-- The same with the selection of the indexer as a fourth one. -/
theorem wp_allocFour {Q : PUnit → LayerCache F × ℕ → Prop} {vt : ℕ}
    (rest : Prog (LayerCache F) PUnit)
    (hok : ∀ ra rb re rt, wp rest Q E
      ({ ((c.setTensor a (some ⟨va, ra⟩)).setTensor b (some ⟨vb, rb⟩)).setTensor e
        (some ⟨ve, re⟩) with indexerTopk := some ⟨vt, rt⟩ }, n + 1 + 1 + 1 + 1)) :
    wp (do
      let kv ← allocTensor d a va
      let score ← allocTensor d b vb
      let comp ← allocTensor d e ve
      let topk ← allocTopk d vt
      require (kv && score && comp && topk) err
      rest) Q E (c, n) := by
  simp only [wp_bind]
  apply wp_allocTensor
  · intro hn
    apply wp_allocTensor <;> intro _ <;> apply wp_allocTensor <;> intro _ <;>
      apply wp_allocTopk <;> intro _ <;> exact hE _ ⟨_, hn⟩
  intro ra
  apply wp_allocTensor
  · intro hn
    apply wp_allocTensor <;> intro _ <;> apply wp_allocTopk <;> intro _ <;> exact hE _ ⟨_, hn⟩
  intro rb
  apply wp_allocTensor
  · intro hn
    apply wp_allocTopk <;> intro _ <;> exact hE _ ⟨_, hn⟩
  intro re
  apply wp_allocTopk
  · intro hn
    exact hE _ ⟨_, hn⟩
  intro rt
  exact hok ra rb re rt

end AllocThree

/-- `alloc_layer_cache` leaves a fresh cache, or a call has failed. -/
theorem allocLayerCache_fresh (n : ℕ) :
    wp (allocLayerCache d o layer) (fun _ r => IsFresh d o layer r.1) (fun _ => d.Fails)
      (({} : LayerCache F), n) := by
  unfold allocLayerCache
  rw [wp_bind]
  apply wp_allocTensor
  · intro hn
    exact ⟨_, hn⟩
  intro raw
  simp only [wp_bind, wp_require_true]
  apply wp_fillTensor
  · simp
  · intro hn
    exact ⟨_, hn⟩
  simp only [wp_require_true, wp_write]
  by_cases h0 : compressRatio layer = 0
  · rw [if_pos h0]
    constructor
    case tensor =>
      intro name
      cases name <;> simp [LayerCache.setTensor, tensorShape, h0]
    all_goals simp [LayerCache.setTensor, h0]
  rw [if_neg h0]
  apply wp_allocThree (fun _ h => h)
  intro ra rb re
  rw [wp_bind]
  apply wp_post (wp_fillAttnCompressor (by simp [setTensor_other]) (by simp [setTensor_other])
    (by simp))
  rintro ok ⟨c₁, n₁⟩ ⟨-, hfail, hattn⟩
  cases ok with
  | false => exact hfail rfl
  | true =>
  obtain rfl : c₁ = _ := hattn rfl
  simp only [wp_bind, wp_require_true, wp_write]
  by_cases h4 : compressRatio layer = 4
  · rw [if_neg (not_not.2 h4)]
    apply wp_allocFour (fun _ h => h)
    intro ra' rb' re' rt'
    rw [wp_bind]
    apply wp_post (wp_fillIndexCompressor (by simp [LayerCache.setTensor])
      (by simp [LayerCache.setTensor]) (by simp [LayerCache.setTensor]))
    rintro ok ⟨c₂, n₂⟩ ⟨-, hfail, hindex⟩
    cases ok with
    | false => exact hfail rfl
    | true =>
    obtain rfl : c₂ = _ := hindex rfl
    simp only [wp_bind, wp_require_true, wp_write]
    constructor
    case tensor =>
      intro name
      cases name <;> simp [LayerCache.setTensor, tensorShape, attnFilled, indexFilled, fillThree,
        h4]
    all_goals simp [LayerCache.setTensor, attnFilled, indexFilled, fillThree, h4]
  · rw [if_pos h4]
    constructor
    case tensor =>
      intro name
      cases name <;> simp [LayerCache.setTensor, tensorShape, attnFilled, fillThree, h0, h4]
    all_goals simp [LayerCache.setTensor, attnFilled, fillThree, h0, h4]

theorem IsFresh.shaped (h : IsFresh d o layer c) : IsShaped d o layer c := by
  constructor
  · intro name
    rw [h.tensor, Option.map_map]
    rfl
  · exact h.topk
  · exact h.rawCap
  · exact h.rawWindow
  · exact h.attnCompCap
  · exact h.indexCompCap
  · exact h.indexerTopK

section Reset
variable (h : IsShaped d o layer c)
include h

theorem IsShaped.sameShape {c' : LayerCache F} (hs : SameShape c c') : IsShaped d o layer c' where
  tensor name := (hs.values name).trans (h.tensor name)
  topk := (congrArg (fun x => x.indexerTopk.map Tensor.values) hs.rest).trans h.topk
  rawCap := (congrArg LayerCache.rawCap hs.rest).trans h.rawCap
  rawWindow := (congrArg LayerCache.rawWindow hs.rest).trans h.rawWindow
  attnCompCap := (congrArg LayerCache.attnCompCap hs.rest).trans h.attnCompCap
  indexCompCap := (congrArg LayerCache.indexCompCap hs.rest).trans h.indexCompCap
  indexerTopK := (congrArg LayerCache.indexerTopK hs.rest).trans h.indexerTopK

theorem IsShaped.setCounts (a i : ℕ) :
    IsShaped d o layer { c with nAttnComp := a, nIndexComp := i } :=
  { h with }

theorem IsShaped.tensor_none {name : CacheTensor}
    (hname : tensorShape d o (compressRatio layer) name = none) : c.tensor name = none := by
  have hmap := h.tensor name
  rw [hname] at hmap
  simpa using hmap

theorem IsShaped.isSome {name : CacheTensor} {s : ℕ × ℕ × F}
    (hname : tensorShape d o (compressRatio layer) name = some s) :
    (c.tensor name).isSome = true := by
  have hmap := h.tensor name
  rw [hname] at hmap
  rw [← Option.isSome_map, hmap]
  rfl

/-- A cache of the right shape whose tensors are filled is fresh. -/
theorem IsShaped.fresh (hfilled : ∀ name s, tensorShape d o (compressRatio layer) name = some s →
    c.tensor name = some (filled s)) (hattn : c.nAttnComp = 0) (hindex : c.nIndexComp = 0) :
    IsFresh d o layer c := by
  constructor
  · intro name
    cases hname : tensorShape d o (compressRatio layer) name with
    | none => exact h.tensor_none hname
    | some s => exact hfilled name s hname
  · exact h.topk
  · exact h.rawCap
  · exact h.rawWindow
  · exact h.attnCompCap
  · exact h.indexCompCap
  · exact h.indexerTopK
  · exact hattn
  · exact hindex

/-- The part of `reset_layer_cache` behind the raw rows. -/
theorem resetCompressors_fresh (h0 : compressRatio layer ≠ 0)
    (hraw : c.tensor .rawKv = some (filled (o.rawCapacity, headDim, d.zero)))
    (hattn : c.nAttnComp = 0) (hindex : c.nIndexComp = 0) (n : ℕ) :
    wp (do
      let c ← readAt fun c _ => c
      require ((c.tensor .attnStateKv).isSome && (c.tensor .attnStateScore).isSome &&
        (c.tensor .attnCompKv).isSome) (layerError "attention cache reset failed" layer)
      require (← fillAttnCompressor d o (compressRatio layer))
        (layerError "attention cache reset failed" layer)
      if compressRatio layer ≠ 4 then return
      require ((c.tensor .indexStateKv).isSome && (c.tensor .indexStateScore).isSome &&
        (c.tensor .indexCompKv).isSome) (layerError "indexer cache reset failed" layer)
      require (← fillIndexCompressor d o (compressRatio layer))
        (layerError "indexer cache reset failed" layer))
      (fun _ r => IsFresh d o layer r.1) (fun r => IsShaped d o layer r.1 ∧ d.Fails) (c, n) := by
  have hkv : tensorShape d o (compressRatio layer) .attnStateKv =
      some (coff (compressRatio layer) * compressRatio layer,
        coff (compressRatio layer) * headDim, d.zero) := if_neg h0
  have hscore : tensorShape d o (compressRatio layer) .attnStateScore =
      some (coff (compressRatio layer) * compressRatio layer,
        coff (compressRatio layer) * headDim, d.low) := if_neg h0
  have hcomp : tensorShape d o (compressRatio layer) .attnCompKv =
      some (o.attnCapacity, headDim, d.zero) := if_neg h0
  simp only [wp_bind, wp_readAt]
  rw [h.isSome hkv, h.isSome hscore, h.isSome hcomp]
  apply wp_post (wp_fillAttnCompressor (by rw [h.tensor, hkv]; rfl) (by rw [h.tensor, hscore]; rfl)
    (by rw [h.tensor, hcomp]; rfl))
  rintro ok ⟨c₁, n₁⟩ ⟨hsame, hfail, hdone⟩
  have h₁ := h.sameShape hsame
  cases ok with
  | false => exact ⟨h₁, hfail rfl⟩
  | true =>
  obtain rfl : c₁ = _ := hdone rfl
  simp only [wp_require_true]
  by_cases h4 : compressRatio layer = 4
  · rw [if_neg (not_not.2 h4)]
    have hkv' : tensorShape d o (compressRatio layer) .indexStateKv =
        some (2 * compressRatio layer, 2 * indexerHeadDim, d.zero) := if_pos h4
    have hscore' : tensorShape d o (compressRatio layer) .indexStateScore =
        some (2 * compressRatio layer, 2 * indexerHeadDim, d.low) := if_pos h4
    have hcomp' : tensorShape d o (compressRatio layer) .indexCompKv =
        some (o.indexCapacity, indexerHeadDim, d.zero) := if_pos h4
    rw [h.isSome hkv', h.isSome hscore', h.isSome hcomp']
    simp only [wp_bind]
    apply wp_post (wp_fillIndexCompressor (by rw [h₁.tensor, hkv']; rfl)
      (by rw [h₁.tensor, hscore']; rfl) (by rw [h₁.tensor, hcomp']; rfl))
    rintro ok ⟨c₂, n₂⟩ ⟨hsame', hfail', hdone'⟩
    have h₂ := h₁.sameShape hsame'
    cases ok with
    | false => exact ⟨h₂, hfail' rfl⟩
    | true =>
    obtain rfl : c₂ = _ := hdone' rfl
    apply h₂.fresh
    · intro name s hname
      cases name <;> simp [tensorShape, h4] at hname <;> rw [← hname] <;>
        simp [LayerCache.setTensor, attnFilled, indexFilled, fillThree, hraw, h4]
    · exact hattn
    · exact hindex
  · rw [if_pos h4]
    apply h₁.fresh
    · intro name s hname
      cases name <;> simp [tensorShape, h0, h4] at hname <;> rw [← hname] <;>
        simp [LayerCache.setTensor, attnFilled, fillThree, hraw]
    · exact hattn
    · exact hindex

/-- `reset_layer_cache` leaves a fresh cache; where a call fails it keeps its shape. -/
theorem resetLayerCache_fresh (n : ℕ) :
    wp (resetLayerCache d o layer) (fun _ r => IsFresh d o layer r.1)
      (fun r => IsShaped d o layer r.1 ∧ d.Fails) (c, n) := by
  unfold resetLayerCache
  rw [wp_bind]
  apply wp_fillTensor (h.tensor .rawKv)
  · intro hn
    exact ⟨h, _, hn⟩
  have hraw : SameShape c (c.setTensor .rawKv (some (filled (o.rawCapacity, headDim, d.zero)))) :=
    sameShape_setTensor (h.tensor .rawKv)
  have hcleared := (h.sameShape hraw).setCounts 0 0
  have hfirst :
      (c.setTensor .rawKv (some (filled (o.rawCapacity, headDim, d.zero)))).tensor .rawKv =
      some (filled (o.rawCapacity, headDim, d.zero)) := setTensor_same _ _ _
  simp only [wp_bind, wp_require_true, wp_write]
  by_cases h0 : compressRatio layer = 0
  · rw [if_pos h0]
    apply hcleared.fresh
    · intro name s hname
      cases name <;> simp [tensorShape, h0] at hname
      rw [← hname]
      exact hfirst
    · rfl
    · rfl
  · rw [if_neg h0]
    exact resetCompressors_fresh hcleared h0 hfirst rfl rfl _

end Reset

end Ds4.Stage
