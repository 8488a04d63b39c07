import Ds4.Stage.Scheduler

/-! What an opened scheduler keeps, and what a reset makes of it. -/
namespace Ds4.Stage
open Context State State.Prog

variable {F : Type} {d : Device F} {o : SchedulerOptions} {stage : ℕ} {s : Scheduler F}

variable (d o stage) in
/-- A scheduler with every buffer that it was opened with, whatever they hold. -/
structure IsSized (s : Scheduler F) : Prop where
  options : s.options = o
  stage_eq : s.stage = stage
  caches : ∀ p ∈ stageCells stage o.activeSlots, IsShaped d o p.1 (s.caches p.1 p.2)
  hc : ∀ slot < o.activeSlots, ∀ buffer, (s.hc buffer slot).values = hcValues

theorem IsOpened.hc_values (h : IsOpened d o stage s) :
    ∀ slot < o.activeSlots, ∀ buffer, (s.hc buffer slot).values = hcValues := by
  intro slot hslot buffer
  obtain ⟨n, hn⟩ := h.hc slot hslot buffer
  rw [hn]

theorem IsOpened.sized (h : IsOpened d o stage s) : IsSized d o stage s :=
  ⟨h.options, h.stage_eq, fun p hp => (h.caches p hp).shaped, h.hc_values⟩

/-- A hidden buffer that was cleared. -/
def clearedHc (d : Device F) : Tensor F := ⟨hcValues, fun _ => List.replicate hcCols d.zero⟩

variable (d o stage) in
/-- A scheduler behind a reset. -/
structure IsCleared (s : Scheduler F) : Prop where
  options : s.options = o
  stage_eq : s.stage = stage
  caches : ∀ p ∈ stageCells stage o.activeSlots, IsFresh d o p.1 (s.caches p.1 p.2)
  hc : ∀ slot < o.activeSlots, ∀ buffer, s.hc buffer slot = clearedHc d
  cur : ∀ slot < o.activeSlots, s.curHc slot = .a

theorem IsCleared.sized (h : IsCleared d o stage s) : IsSized d o stage s := by
  constructor
  · exact h.options
  · exact h.stage_eq
  · intro p hp
    exact (h.caches p hp).shaped
  · intro slot hslot buffer
    rw [h.hc slot hslot buffer]
    rfl

theorem IsSized.setHc (h : IsSized d o stage s) (buffer : HcBuffer) (slot : ℕ) {t : Tensor F}
    (ht : t.values = hcValues) : IsSized d o stage (s.setHc buffer slot t) := by
  constructor
  · exact h.options
  · exact h.stage_eq
  · exact h.caches
  · intro slot' hslot buffer'
    by_cases hb : buffer' = buffer ∧ slot' = slot
    · rw [hb.1, hb.2, setHc_same]
      exact ht
    · rw [setHc_other s t (not_and_or.1 hb)]
      exact h.hc slot' hslot buffer'

theorem IsSized.setCur (h : IsSized d o stage s) (slot : ℕ) (buffer : HcBuffer) :
    IsSized d o stage (s.setCur slot buffer) := ⟨h.options, h.stage_eq, h.caches, h.hc⟩

/-- Programs on the caches that keep their shapes keep the scheduler sized. -/
theorem IsSized.cells (h : IsSized d o stage s) {t : Scheduler F}
    (ht : CellsHave s (IsShaped d o) stage o.activeSlots t) : IsSized d o stage t := by
  constructor
  · exact (congrArg Scheduler.options ht.frame).trans h.options
  · exact (congrArg Scheduler.stage ht.frame).trans h.stage_eq
  · exact ht.cells
  · intro slot hslot buffer
    have hframe := congrArg Scheduler.hc ht.frame
    rw [show t.hc = s.hc from hframe]
    exact h.hc slot hslot buffer

/-- Some hidden states are cleared; the caches are fresh. -/
structure ClearedHc (d : Device F) (o : SchedulerOptions) (stage : ℕ) (done : List ℕ)
    (s : Scheduler F) : Prop where
  sized : IsSized d o stage s
  caches : ∀ p ∈ stageCells stage o.activeSlots, IsFresh d o p.1 (s.caches p.1 p.2)
  hc : ∀ slot ∈ done, ∀ buffer, s.hc buffer slot = clearedHc d
  cur : ∀ slot ∈ done, s.curHc slot = .a

theorem ClearedHc.step {done : List ℕ} (h : ClearedHc d o stage done s) (slot : ℕ) :
    ClearedHc d o stage (done ++ [slot])
      (((s.setHc .a slot (clearedHc d)).setHc .b slot (clearedHc d)).setCur slot .a) := by
  have hdone : HcDone s (fun t => t = clearedHc d) done s := ⟨rfl, h.hc, h.cur⟩
  have hnext := hdone.step slot (a := clearedHc d) (b := clearedHc d) rfl rfl
  constructor
  · exact ((h.sized.setHc .a slot rfl).setHc .b slot rfl).setCur slot .a
  · exact h.caches
  · exact hnext.hc
  · exact hnext.cur

/-- A reset clears the scheduler; where a call fails every buffer is still there. -/
theorem schedulerReset_cleared (h : IsSized d o stage s) (n : ℕ) :
    wp (schedulerReset d o stage) (fun _ r => IsCleared d o stage r.1)
      (fun r => IsSized d o stage r.1 ∧ d.Fails) (s, n) := by
  unfold schedulerReset
  rw [eachCell_eq]
  simp only [wp_bind, wp_call]
  apply wp_require
  · intro hn
    exact ⟨h, _, hn⟩
  intro _
  have hcache : ∀ (layer : ℕ) (c : LayerCache F) (n : ℕ), IsShaped d o layer c →
      wp (resetLayerCache d o layer) (fun _ r => IsFresh d o layer r.1)
        (fun r => IsShaped d o layer r.1 ∧ d.Fails) (c, n) :=
    fun _ _ n hc => resetLayerCache_fresh hc n
  have hcells := wp_eachCell (s := s) (n := n + 1) (fun _ _ hc => hc)
    (fun _ _ hc => IsFresh.shaped hc) hcache h.caches
  apply wp_mono hcells
  · rintro _ ⟨t, n'⟩ hfresh
    have hsized := h.cells ⟨hfresh.frame, fun p hp => (hfresh.cells p hp).shaped⟩
    apply wp_post (wp_each (I := fun done r => ClearedHc d o stage done r.1) _
      ⟨hsized, hfresh.cells, by simp, by simp⟩)
    · intro _ r hdone
      constructor
      · exact hdone.sized.options
      · exact hdone.sized.stage_eq
      · exact hdone.caches
      · intro slot hlt
        exact hdone.hc slot (List.mem_range.2 hlt)
      · intro slot hlt
        exact hdone.cur slot (List.mem_range.2 hlt)
    · intro done slot rest r _ hdone
      simp only [wp_bind]
      apply wp_launch
      · intro hn
        exact ⟨hdone.sized, _, hn⟩
      intro _
      apply wp_launch
      · intro hn
        exact ⟨hdone.sized.setHc .a slot rfl, _, hn⟩
      · intro _
        exact hdone.step slot
  · rintro ⟨t, n'⟩ ⟨hshaped, hfails⟩
    exact ⟨h.cells hshaped, hfails⟩

end Ds4.Stage
