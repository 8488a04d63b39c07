import Ds4.Stage.Reset
import Ds4.Stage.Snapshot
import Mathlib.Tactic.Positivity

/-! What a snapshot holds, and what its restore gives back. -/
namespace Ds4.Stage
open Context State State.Prog

variable {F : Type} {d : Device F} {o : SchedulerOptions} {stage layer : ℕ}

section Sizes
variable {c : LayerCache F}

theorem orDefault_pos (v : ℕ) {default : ℕ} (h : 0 < default) : 0 < orDefault v default := by
  unfold orDefault
  by_cases hv : v = 0
  · rw [if_pos hv]
    exact h
  · rw [if_neg hv]
    exact Nat.pos_of_ne_zero hv

/-- No tensor of a cache is empty. -/
theorem IsShaped.values_pos (h : IsShaped d o layer c) {name : CacheTensor} {t : Tensor F}
    (ht : c.tensor name = some t) : 0 < t.values := by
  have hraw : 0 < o.rawCapacity := orDefault_pos _ (by decide)
  have hattn : 0 < o.attnCapacity := orDefault_pos _ (by decide)
  have hindex : 0 < o.indexCapacity := orDefault_pos _ (by decide)
  have hmap := h.tensor name
  rw [ht, Option.map_some] at hmap
  have hdim : 0 < headDim := by decide
  have hidim : 0 < indexerHeadDim := by decide
  rcases compressRatio_cases layer with hr | hr | hr <;> rw [hr] at hmap <;>
    cases name <;> simp [tensorShape, coff] at hmap <;> rw [hmap] <;> positivity

theorem IsShaped.topk_pos (h : IsShaped d o layer c) {t : Tensor ℕ} (ht : c.indexerTopk = some t) :
    0 < t.values := by
  have hmap := h.topk
  rw [ht, Option.map_some] at hmap
  by_cases h4 : compressRatio layer = 4
  · rw [if_pos h4] at hmap
    rw [Option.some.inj hmap]
    exact orDefault_pos _ (by decide)
  · rw [if_neg h4] at hmap
    cases hmap

end Sizes

section Capture
variable {σ : Type}

/-- A tensor that is not empty is captured, or a call has failed. -/
theorem wp_captureTensor {α : Type} {t : Option (Tensor α)}
    (hpos : ∀ x, t = some x → 0 < x.values) (s : σ × ℕ) :
    wp (captureTensor d t) (fun r s' => r = t ∧ s'.1 = s.1)
      (fun s' => s'.1 = s.1 ∧ d.Fails) s := by
  cases t with
  | none => exact ⟨rfl, rfl⟩
  | some x =>
    have hbytes : x.bytes ≠ 0 := by
      have hx := hpos x rfl
      unfold Tensor.bytes sizeofFloat
      omega
    unfold captureTensor
    simp only [if_neg hbytes, wp_bind, wp_call]
    apply wp_require
    · intro hn
      exact ⟨rfl, _, hn⟩
    intro _
    apply wp_require
    · intro hn
      exact ⟨rfl, _, hn⟩
    intro _
    exact ⟨rfl, rfl⟩

/-- What a snapshot holds of a cache. -/
def LayerCache.snapshot (c : LayerCache F) : LayerSnapshot F :=
  ⟨c.nAttnComp, c.nIndexComp, c.tensor, c.indexerTopk⟩

theorem mem_capturedTensors (name : CacheTensor) : name ∈ capturedTensors := by
  cases name <;> decide

theorem mem_restoredTensors (name : CacheTensor) : name ∈ restoredTensors := by
  cases name <;> decide

variable {c : LayerCache F} (h : IsShaped d o layer c)
include h

theorem wp_captureTensors (names : List CacheTensor) : ∀ (snap : LayerSnapshot F) (s : σ × ℕ),
    wp (captureTensors d c names snap)
      (fun r s' => r = { snap with
        tensor := fun name => if name ∈ names then c.tensor name else snap.tensor name } ∧
        s'.1 = s.1)
      (fun s' => s'.1 = s.1 ∧ d.Fails) s := by
  induction names with
  | nil =>
    intro snap s
    simp [captureTensors]
  | cons name names ih =>
    intro snap s
    rw [captureTensors, wp_bind]
    apply wp_mono (wp_captureTensor (fun x hx => h.values_pos hx) s)
    · rintro r s₁ ⟨rfl, hs₁⟩
      apply wp_mono (ih _ s₁)
      · rintro r s₂ ⟨rfl, hs₂⟩
        refine ⟨?_, hs₂.trans hs₁⟩
        congr 1
        funext other
        by_cases hin : other ∈ names
        · simp [hin]
        · by_cases hname : other = name
          · simp [hname]
          · simp [hin, hname]
      · rintro s₂ ⟨hs₂, hfail⟩
        exact ⟨hs₂.trans hs₁, hfail⟩
    · rintro s₁ hs₁
      exact hs₁

theorem wp_captureLayer (s : σ × ℕ) :
    wp (captureLayer d c) (fun r s' => r = c.snapshot ∧ s'.1 = s.1)
      (fun s' => s'.1 = s.1 ∧ d.Fails) s := by
  unfold captureLayer
  rw [wp_bind]
  apply wp_mono (wp_captureTensors h capturedTensors _ s)
  · rintro r s₁ ⟨rfl, hs₁⟩
    rw [wp_bind]
    apply wp_mono (wp_captureTensor (fun x hx => h.topk_pos hx) s₁)
    · rintro r s₂ ⟨rfl, hs₂⟩
      simp only [wp_pure]
      refine ⟨?_, hs₂.trans hs₁⟩
      simp [LayerCache.snapshot, mem_capturedTensors]
    · rintro s₂ ⟨hs₂, hfail⟩
      exact ⟨hs₂.trans hs₁, hfail⟩
  · intro s₁ hs₁
    exact hs₁

end Capture

section Create
variable {s : Scheduler F}

theorem wp_captureLayers (layers : List ℕ) :
    (∀ layer ∈ layers, IsShaped d o layer (s.caches layer 0)) → ∀ (snap : Snapshot F) (n : ℕ),
    wp (captureLayers d layers snap)
      (fun r s' => r = { snap with layers := fun layer =>
        if layer ∈ layers then (s.caches layer 0).snapshot else snap.layers layer } ∧ s'.1 = s)
      (fun s' => s'.1 = s ∧ d.Fails) (s, n) := by
  induction layers with
  | nil =>
    intro _ snap n
    simp [captureLayers]
  | cons layer layers ih =>
    intro hshaped snap n
    rw [captureLayers, wp_bind, wp_readAt, wp_bind]
    apply wp_mono (wp_captureLayer (hshaped layer List.mem_cons_self) (s, n))
    · rintro r ⟨t, n₁⟩ ⟨rfl, ht⟩
      obtain rfl : t = s := ht
      apply wp_post (ih (fun l hl => hshaped l (List.mem_cons_of_mem layer hl)) _ n₁)
      rintro r s₂ ⟨rfl, hs₂⟩
      refine ⟨?_, hs₂⟩
      congr 1
      funext other
      by_cases hin : other ∈ layers
      · simp [hin]
      · by_cases hlayer : other = layer
        · simp [hlayer]
        · simp [hin, hlayer]
    · intro s₁ hs₁
      exact hs₁

/-- What a snapshot of a scheduler with one slot holds. -/
structure Captures (s : Scheduler F) (stage : ℕ) (snap : Snapshot F) : Prop where
  stage_eq : snap.stage = stage
  slots : snap.activeSlots = 1
  cur : snap.curHcSlot = s.curHc 0
  hc : snap.curHc = some (s.hidden 0)
  layers : ∀ layer ∈ stageLayers stage, snap.layers layer = (s.caches layer 0).snapshot

variable (h : IsSized d o stage s) (ho : o.activeSlots = 1)
include h ho

theorem IsSized.cache {layer : ℕ} (hl : layer ∈ stageLayers stage) :
    IsShaped d o layer (s.caches layer 0) := by
  apply h.caches (layer, 0)
  rw [mem_stageCells]
  exact ⟨hl, by omega⟩

theorem IsSized.hidden_values : (s.hidden 0).values = hcValues :=
  h.hc 0 (by omega) _

/-- A snapshot leaves the scheduler as it was, and holds all of it. -/
theorem snapshotCreate_captures (n : ℕ) :
    wp (snapshotCreate d) (fun snap r => Captures s stage snap ∧ r.1 = s)
      (fun r => r.1 = s ∧ d.Fails) (s, n) := by
  have hpos : ∀ x, some (s.hidden 0) = some x → 0 < x.values := by
    intro x hx
    rw [← Option.some.inj hx, h.hidden_values ho]
    decide
  unfold snapshotCreate
  simp only [wp_bind, wp_readAt, wp_call, h.options, ho, h.stage_eq, decide_true, wp_require_true]
  apply wp_require
  · intro hn
    exact ⟨rfl, _, hn⟩
  intro _
  apply wp_require
  · intro hn
    exact ⟨rfl, _, hn⟩
  intro _
  apply wp_mono (wp_captureTensor hpos _)
  · rintro r ⟨t, n₁⟩ ⟨rfl, ht⟩
    obtain rfl : t = s := ht
    apply wp_post (wp_captureLayers (stageLayers stage) (fun l hl => h.cache ho hl) _ n₁)
    rintro r s₂ ⟨rfl, hs₂⟩
    refine ⟨?_, hs₂⟩
    constructor
    · rfl
    · rfl
    · rfl
    · rfl
    · intro layer hl
      exact if_pos hl
  · intro s₁ hs₁
    exact hs₁

end Create

section Restore
variable {c c₀ : LayerCache F} (h : IsShaped d o layer c) (h₀ : IsShaped d o layer c₀)
include h h₀

/-- A tensor of a snapshot is written back over one of the same size. -/
theorem wp_restoreTensor (name : CacheTensor) (n : ℕ) :
    wp (restoreTensor d name (c₀.tensor name))
      (fun _ r => r.1 = c.setTensor name (c₀.tensor name)) (fun r => r.1 = c ∧ d.Fails) (c, n) := by
  have hsize : (c.tensor name).map Tensor.values = (c₀.tensor name).map Tensor.values :=
    (h.tensor name).trans (h₀.tensor name).symm
  cases h₀t : c₀.tensor name with
  | none =>
    rw [h₀t] at hsize
    have hc : c.tensor name = none := by simpa using hsize
    have hsame : c.setTensor name none = c := by
      unfold LayerCache.setTensor
      rw [← hc, Function.update_eq_self]
    exact hsame.symm
  | some t =>
    rw [h₀t, Option.map_some] at hsize
    obtain ⟨x, hx, hvalues⟩ := Option.map_eq_some_iff.1 hsize
    have hbytes : x.bytes = t.bytes := by
      unfold Tensor.bytes
      rw [hvalues]
    unfold restoreTensor
    simp only [wp_bind, wp_readAt, hx, Option.elim_some, hbytes, decide_true, wp_require_true]
    apply wp_launch
    · intro hn
      exact ⟨rfl, _, hn⟩
    · intro _
      show (c.mapRows name fun _ => t.row) = c.setTensor name (some t)
      unfold LayerCache.mapRows
      rw [hx, Option.map_some, hvalues]

theorem wp_restoreTopk (n : ℕ) :
    wp (restoreTopk d c₀.indexerTopk)
      (fun _ r => r.1 = { c with indexerTopk := c₀.indexerTopk })
      (fun r => r.1 = c ∧ d.Fails) (c, n) := by
  have hsize : c.indexerTopk.map Tensor.values = c₀.indexerTopk.map Tensor.values :=
    h.topk.trans h₀.topk.symm
  cases h₀t : c₀.indexerTopk with
  | none =>
    rw [h₀t] at hsize
    have hc : c.indexerTopk = none := by simpa using hsize
    show c = { c with indexerTopk := none }
    rw [← hc]
  | some t =>
    rw [h₀t, Option.map_some] at hsize
    obtain ⟨x, hx, hvalues⟩ := Option.map_eq_some_iff.1 hsize
    have hbytes : x.bytes = t.bytes := by
      unfold Tensor.bytes
      rw [hvalues]
    unfold restoreTopk
    simp only [wp_bind, wp_readAt, hx, Option.elim_some, hbytes, decide_true, wp_require_true]
    apply wp_launch
    · intro hn
      exact ⟨rfl, _, hn⟩
    · intro _
      rfl

omit h h₀ in
/-- The counts and some of the tensors of a cache are back. -/
structure Restoring (d : Device F) (o : SchedulerOptions) (layer : ℕ) (c₀ : LayerCache F)
    (done : List CacheTensor) (c : LayerCache F) : Prop where
  shaped : IsShaped d o layer c
  nAttnComp : c.nAttnComp = c₀.nAttnComp
  nIndexComp : c.nIndexComp = c₀.nIndexComp
  tensor : ∀ name ∈ done, c.tensor name = c₀.tensor name

omit h in
theorem Restoring.step {done : List CacheTensor} (hr : Restoring d o layer c₀ done c)
    (name : CacheTensor) (n : ℕ) :
    wp (restoreTensor d name (c₀.tensor name))
      (fun _ r => Restoring d o layer c₀ (done ++ [name]) r.1)
      (fun r => IsShaped d o layer r.1 ∧ d.Fails) (c, n) := by
  apply wp_mono (wp_restoreTensor hr.shaped h₀ name n)
  · rintro _ ⟨c', n'⟩ hc'
    obtain rfl : c' = _ := hc'
    constructor
    · constructor
      · intro other
        by_cases hname : other = name
        · rw [hname, setTensor_same]
          exact h₀.tensor name
        · rw [setTensor_other hname]
          exact hr.shaped.tensor other
      · exact hr.shaped.topk
      · exact hr.shaped.rawCap
      · exact hr.shaped.rawWindow
      · exact hr.shaped.attnCompCap
      · exact hr.shaped.indexCompCap
      · exact hr.shaped.indexerTopK
    · exact hr.nAttnComp
    · exact hr.nIndexComp
    · intro other hin
      by_cases hname : other = name
      · rw [hname, setTensor_same]
      · rw [setTensor_other hname]
        apply hr.tensor
        simpa [hname] using hin
  · rintro ⟨c', n'⟩ ⟨hc', hfail⟩
    obtain rfl : c' = c := hc'
    exact ⟨hr.shaped, hfail⟩

omit h in
theorem Restoring.done (hr : Restoring d o layer c₀ restoredTensors c) :
    { c with indexerTopk := c₀.indexerTopk } = c₀ := by
  have htensor : c.tensor = c₀.tensor := by
    funext name
    exact hr.tensor name (mem_restoredTensors name)
  obtain ⟨t₀, k₀, rc₀, rw₀, ac₀, na₀, ic₀, ni₀, tk₀⟩ := c₀
  simp only [LayerCache.mk.injEq]
  exact ⟨htensor, trivial, hr.shaped.rawCap.trans h₀.rawCap.symm,
    hr.shaped.rawWindow.trans h₀.rawWindow.symm, hr.shaped.attnCompCap.trans h₀.attnCompCap.symm,
    hr.nAttnComp, hr.shaped.indexCompCap.trans h₀.indexCompCap.symm, hr.nIndexComp,
    hr.shaped.indexerTopK.trans h₀.indexerTopK.symm⟩

/-- Restoring a cache gives back all of it. -/
theorem wp_restoreLayer (n : ℕ) :
    wp (restoreLayer d c₀.snapshot) (fun _ r => r.1 = c₀)
      (fun r => IsShaped d o layer r.1 ∧ d.Fails) (c, n) := by
  unfold restoreLayer
  simp only [wp_bind, wp_write]
  have hcounts := h.setCounts c₀.nAttnComp c₀.nIndexComp
  apply wp_post (wp_each (I := fun done r => Restoring d o layer c₀ done r.1) _
    ⟨hcounts, rfl, rfl, by simp⟩)
  · rintro _ ⟨c', n'⟩ hr
    apply wp_mono (wp_restoreTopk hr.shaped h₀ n')
    · rintro _ ⟨c'', n''⟩ hc''
      obtain rfl : c'' = _ := hc''
      exact hr.done h₀
    · rintro ⟨c'', n''⟩ ⟨hc'', hfail⟩
      obtain rfl : c'' = c' := hc''
      exact ⟨hr.shaped, hfail⟩
  · rintro done name rest ⟨c', n'⟩ _ hr
    exact hr.step h₀ name n'

end Restore

section RestoreAll
variable {s s₀ : Scheduler F} (h : IsSized d o stage s) (h₀ : IsSized d o stage s₀)
  (ho : o.activeSlots = 1)
include h h₀ ho

/-- What a restore gives back of the scheduler that the snapshot was taken of. -/
structure Restored (stage : ℕ) (s₀ s : Scheduler F) : Prop where
  cur : s.curHc 0 = s₀.curHc 0
  hidden : s.hidden 0 = s₀.hidden 0
  caches : ∀ layer ∈ stageLayers stage, s.caches layer 0 = s₀.caches layer 0

theorem wp_restoreHc (n : ℕ) :
    wp (restoreHc d (s₀.curHc 0) (some (s₀.hidden 0)))
      (fun _ r => r.1 = s.setHc (s₀.curHc 0) 0 (s₀.hidden 0))
      (fun r => r.1 = s ∧ d.Fails) (s, n) := by
  have hvalues : (s.hc (s₀.curHc 0) 0).values = (s₀.hidden 0).values :=
    (h.hc 0 (by omega) _).trans (h₀.hidden_values ho).symm
  have hbytes : (s.hc (s₀.curHc 0) 0).bytes = (s₀.hidden 0).bytes := by
    unfold Tensor.bytes
    rw [hvalues]
  unfold restoreHc
  simp only [wp_bind, wp_readAt, hbytes, decide_true, wp_require_true]
  apply wp_launch
  · intro hn
    exact ⟨rfl, _, hn⟩
  · intro _
    show s.setHcRow (s₀.curHc 0) 0 (s₀.hidden 0).row = _
    unfold Scheduler.setHcRow
    simp only [hvalues]

omit h h₀ ho in
theorem IsSized.setCache (hs : IsSized d o stage s) {layer slot : ℕ} {c : LayerCache F}
    (hc : IsShaped d o layer c) : IsSized d o stage (s.setCache layer slot c) := by
  constructor
  · exact hs.options
  · exact hs.stage_eq
  · rintro ⟨layer', slot'⟩ hp
    by_cases hsame : (layer', slot') = (layer, slot)
    · obtain ⟨rfl, rfl⟩ := Prod.mk.inj hsame
      simp only [setCache_same]
      exact hc
    · simp only [setCache_other c hsame]
      exact hs.caches _ hp
  · exact hs.hc

omit h h₀ ho in
/-- The hidden state and the caches of some layers are back. -/
structure RestoringAll (d : Device F) (o : SchedulerOptions) (stage : ℕ) (s₀ : Scheduler F)
    (done : List ℕ) (s : Scheduler F) : Prop where
  sized : IsSized d o stage s
  cur : s.curHc 0 = s₀.curHc 0
  hidden : s.hidden 0 = s₀.hidden 0
  caches : ∀ layer ∈ done, s.caches layer 0 = s₀.caches layer 0

omit h in
theorem RestoringAll.step {done : List ℕ} (hr : RestoringAll d o stage s₀ done s) {layer : ℕ}
    (hl : layer ∈ stageLayers stage) (n : ℕ) :
    wp (onCache layer 0 (restoreLayer d (s₀.caches layer 0).snapshot))
      (fun _ r => RestoringAll d o stage s₀ (done ++ [layer]) r.1)
      (fun r => IsSized d o stage r.1 ∧ d.Fails) (s, n) := by
  have hc₀ := h₀.cache ho hl
  apply wp_zoom
  apply wp_mono (wp_restoreLayer (hr.sized.cache ho hl) hc₀ n)
  · rintro _ ⟨c, n'⟩ hc
    obtain rfl : c = _ := hc
    constructor
    · exact hr.sized.setCache hc₀
    · exact hr.cur
    · exact hr.hidden
    · intro layer' hin
      by_cases hlayer : layer' = layer
      · rw [hlayer]
        exact setCache_same layer 0 _
      · have hother : (layer', 0) ≠ (layer, 0) := fun hp => hlayer (congrArg Prod.fst hp)
        rw [setCache_other _ hother]
        apply hr.caches
        simpa [hlayer] using hin
  · rintro ⟨c, n'⟩ ⟨hc, hfail⟩
    exact ⟨hr.sized.setCache hc, hfail⟩

/-- A restore gives back what its snapshot was taken of; where a call fails every buffer is
still there. -/
theorem snapshotRestore_restored {snap : Snapshot F} (hsnap : Captures s₀ stage snap) (n : ℕ) :
    wp (snapshotRestore d snap) (fun _ r => IsSized d o stage r.1 ∧ Restored stage s₀ r.1)
      (fun r => IsSized d o stage r.1 ∧ d.Fails) (s, n) := by
  unfold snapshotRestore
  simp only [wp_bind, wp_readAt, wp_call, h.options, ho, h.stage_eq, hsnap.stage_eq, hsnap.slots,
    decide_true, Bool.and_self, wp_require_true, hsnap.cur, hsnap.hc]
  apply wp_require
  · intro hn
    exact ⟨h, _, hn⟩
  intro _
  apply wp_mono (wp_restoreHc h h₀ ho _)
  · rintro _ ⟨t, n₁⟩ ht
    obtain rfl : t = _ := ht
    rw [wp_write]
    have hhc : RestoringAll d o stage s₀ []
        ((s.setHc (s₀.curHc 0) 0 (s₀.hidden 0)).setCur 0 (s₀.curHc 0)) := by
      have hcur : ((s.setHc (s₀.curHc 0) 0 (s₀.hidden 0)).setCur 0 (s₀.curHc 0)).curHc 0 =
          s₀.curHc 0 := setCur_same _ 0 _
      constructor
      · exact (h.setHc _ 0 (h₀.hidden_values ho)).setCur 0 _
      · exact hcur
      · show (s.setHc (s₀.curHc 0) 0 (s₀.hidden 0)).hc _ 0 = s₀.hidden 0
        rw [hcur, setHc_same]
      · simp
    apply wp_post (wp_each (I := fun done r => RestoringAll d o stage s₀ done r.1) _ hhc)
    · intro _ r hr
      exact ⟨hr.sized, hr.cur, hr.hidden, hr.caches⟩
    · rintro done layer rest ⟨t, n'⟩ hall hr
      have hl : layer ∈ stageLayers stage := by simp [hall]
      rw [hsnap.layers layer hl]
      exact hr.step h₀ ho hl n'
  · rintro ⟨t, n₁⟩ ⟨ht, hfail⟩
    obtain rfl : t = s := ht
    exact ⟨h, hfail⟩

end RestoreAll

end Ds4.Stage
