import Ds4.Context.Open
import Ds4.Stage.CacheLaws

/-! A stage scheduler: its caches and hidden states, and how it is opened and cleared. -/
namespace Ds4.Stage
open Context State State.Prog

def maxSlots : ℕ := 256

/-- The two hidden buffers of a slot. -/
inductive HcBuffer
  | a
  | b
  deriving DecidableEq

def HcBuffer.other : HcBuffer → HcBuffer
  | .a => .b
  | .b => .a

/-- `ds4_stage_scheduler`. A slot below the active ones has both buffers from the start, so
their null checks are left out. -/
structure Scheduler (F : Type) where
  options : SchedulerOptions
  stage : ℕ
  caches : ℕ → ℕ → LayerCache F := fun _ _ => {}
  hc : HcBuffer → ℕ → Tensor F
  curHc : ℕ → HcBuffer := fun _ => .a

/-- The tables of `init_stage_map`. -/
def layerBegin (stage : ℕ) : ℕ := [0, 6, 12, 18, 24, 30, 35, 40].getD stage 0

def layerEnd (stage : ℕ) : ℕ := [5, 11, 17, 23, 29, 34, 39, 42].getD stage 0

def stageLayers (stage : ℕ) : List ℕ :=
  List.range' (layerBegin stage) (layerEnd stage + 1 - layerBegin stage)

namespace Scheduler
variable {F : Type} (s : Scheduler F)

def setCache (layer slot : ℕ) (c : LayerCache F) : Scheduler F :=
  { s with caches := Function.update s.caches layer (Function.update (s.caches layer) slot c) }

def setHc (buffer : HcBuffer) (slot : ℕ) (t : Tensor F) : Scheduler F :=
  { s with hc := Function.update s.hc buffer (Function.update (s.hc buffer) slot t) }

def setCur (slot : ℕ) (buffer : HcBuffer) : Scheduler F :=
  { s with curHc := Function.update s.curHc slot buffer }

/-- The hidden state that the next decode of a slot starts from. -/
def hidden (slot : ℕ) : Tensor F := s.hc (s.curHc slot) slot

end Scheduler

/-- A program on one cache of a scheduler. -/
def onCache {F α : Type} (layer slot : ℕ) (m : Prog (LayerCache F) α) : Prog (Scheduler F) α :=
  zoom (fun s => s.caches layer slot) (fun c s => s.setCache layer slot c) m

def hcValues : ℕ := hcRows * hcCols

section Open
variable {F : Type} (d : Device F)

/-- The part of `ds4_stage_scheduler_open` that makes the caches and the hidden states; the
context, the pack and the weights are opened before. -/
def schedulerOpen (o : SchedulerOptions) (stage : ℕ) : Prog (Scheduler F) PUnit := do
  require (stage < expectedGpus) ("invalid scheduler stage " ++ toString stage)
  require (o.activeSlots ≠ 0 && o.activeSlots ≤ maxSlots)
    ("kv_active_slots must be in [1," ++ toString maxSlots ++ "]")
  each (stageLayers stage) fun layer =>
    each (List.range o.activeSlots) fun slot => onCache layer slot (allocLayerCache d o layer)
  each (List.range o.activeSlots) fun slot => do
    let n ← readAt fun _ n => n
    let a ← call d.answers
    let b ← call d.answers
    require (a && b) ("failed to allocate scheduler HC slot " ++ toString slot)
    write fun s => ((s.setHc .a slot ⟨hcValues, d.garbage n⟩).setHc .b slot
      ⟨hcValues, d.garbage (n + 1)⟩).setCur slot .a

/-- A scheduler before it is opened. -/
def Scheduler.blank (o : SchedulerOptions) (stage : ℕ) : Scheduler F :=
  { options := o, stage := stage, hc := fun _ _ => ⟨0, fun _ => []⟩ }

/-- `ds4_stage_scheduler_reset`. -/
def schedulerReset (o : SchedulerOptions) (stage : ℕ) : Prog (Scheduler F) PUnit := do
  require (← call d.answers) ("failed to set scheduler reset device gpu" ++ toString stage)
  each (stageLayers stage) fun layer =>
    each (List.range o.activeSlots) fun slot => onCache layer slot (resetLayerCache d o layer)
  each (List.range o.activeSlots) fun slot => do
    let error := "scheduler HC reset failed for slot " ++ toString slot
    launch d.answers (fun s => s.setHc .a slot ⟨hcValues, fun _ => List.replicate hcCols d.zero⟩)
      error
    launch d.answers (fun s => s.setHc .b slot ⟨hcValues, fun _ => List.replicate hcCols d.zero⟩)
      error
    write fun s => s.setCur slot .a

end Open

/-- The caches of a stage: its layers, and the active slots of each. -/
def stageCells (stage k : ℕ) : List (ℕ × ℕ) :=
  (stageLayers stage).flatMap fun layer => (List.range k).map fun slot => (layer, slot)

theorem mem_stageCells {stage k layer slot : ℕ} :
    (layer, slot) ∈ stageCells stage k ↔ layer ∈ stageLayers stage ∧ slot < k := by
  simp [stageCells]

theorem stageCells_nodup (stage k : ℕ) : (stageCells stage k).Nodup := by
  rw [stageCells, List.nodup_flatMap]
  constructor
  · intro layer _
    exact List.nodup_range.map fun a b h => (Prod.mk.inj h).2
  · apply List.Pairwise.imp _ (List.nodup_range' (s := layerBegin stage))
    intro a b hab p hpa hpb
    obtain ⟨_, _, rfl⟩ := List.mem_map.1 hpa
    obtain ⟨_, _, h⟩ := List.mem_map.1 hpb
    exact hab (Prod.mk.inj h).1.symm

/-- One program for each cache of a stage. -/
def eachCell {F : Type} (stage k : ℕ) (m : ℕ → Prog (LayerCache F) PUnit) :
    Prog (Scheduler F) PUnit :=
  each (stageCells stage k) fun p => onCache p.1 p.2 (m p.1)

theorem eachCell_eq {F : Type} (stage k : ℕ) (m : ℕ → Prog (LayerCache F) PUnit) :
    (each (stageLayers stage) fun layer =>
      each (List.range k) fun slot => onCache layer slot (m layer)) = eachCell stage k m := by
  rw [eachCell, stageCells, each_flatMap]
  congr 1
  funext layer
  rw [each_map]

section Laws
variable {F : Type} {s : Scheduler F}

theorem setCache_same (layer slot : ℕ) (c : LayerCache F) :
    (s.setCache layer slot c).caches layer slot = c := by
  simp [Scheduler.setCache]

theorem setCache_other {layer slot layer' slot' : ℕ} (c : LayerCache F)
    (h : (layer', slot') ≠ (layer, slot)) :
    (s.setCache layer slot c).caches layer' slot' = s.caches layer' slot' := by
  by_cases hl : layer' = layer
  · subst hl
    have hs : slot' ≠ slot := fun hs => h (by rw [hs])
    simp [Scheduler.setCache, Function.update_of_ne hs]
  · simp [Scheduler.setCache, Function.update_of_ne hl]

variable {stage k : ℕ} {Pre Post Err : ℕ → LayerCache F → Prop} {Fails : Prop}
  {m : ℕ → Prog (LayerCache F) PUnit}

/-- Some caches of a stage have been gone through, the others are as they were. -/
structure CellsDone (s : Scheduler F) (Pre Post : ℕ → LayerCache F → Prop) (stage k : ℕ)
    (done : List (ℕ × ℕ)) (t : Scheduler F) : Prop where
  frame : { t with caches := s.caches } = s
  post : ∀ p ∈ done, Post p.1 (t.caches p.1 p.2)
  pre : ∀ p ∈ stageCells stage k, p ∉ done → Pre p.1 (t.caches p.1 p.2)

/-- Only the caches of the stage have changed, and each has `P`. -/
structure CellsHave (s : Scheduler F) (P : ℕ → LayerCache F → Prop) (stage k : ℕ)
    (t : Scheduler F) : Prop where
  frame : { t with caches := s.caches } = s
  cells : ∀ p ∈ stageCells stage k, P p.1 (t.caches p.1 p.2)

/-- A program on one cache, run on each cache of a stage. -/
theorem wp_eachCell (hpre : ∀ layer c, Pre layer c → Err layer c)
    (hpost : ∀ layer c, Post layer c → Err layer c)
    (hm : ∀ layer c n, Pre layer c →
      wp (m layer) (fun _ r => Post layer r.1) (fun r => Err layer r.1 ∧ Fails) (c, n))
    {n : ℕ} (hs : ∀ p ∈ stageCells stage k, Pre p.1 (s.caches p.1 p.2)) :
    wp (eachCell stage k m) (fun _ r => CellsHave s Post stage k r.1)
      (fun r => CellsHave s Err stage k r.1 ∧ Fails) (s, n) := by
  have hrun : wp (eachCell stage k m)
      (fun _ r => CellsDone s Pre Post stage k (stageCells stage k) r.1)
      (fun r => CellsHave s Err stage k r.1 ∧ Fails) (s, n) := by
    apply wp_each (I := fun done r => CellsDone s Pre Post stage k done r.1)
    · rintro done ⟨layer, slot⟩ rest ⟨t, n⟩ hcells hdone
      have hmem : (layer, slot) ∈ stageCells stage k := by simp [hcells]
      have hnot : (layer, slot) ∉ done := by
        have hnodup := stageCells_nodup stage k
        rw [hcells] at hnodup
        intro hin
        exact List.disjoint_of_nodup_append hnodup hin List.mem_cons_self
      apply wp_zoom
      apply wp_mono (hm layer _ n (hdone.pre _ hmem hnot))
      · intro _ r hpostr
        constructor
        · exact hdone.frame
        · intro p hp
          by_cases hpe : p = (layer, slot)
          · rw [hpe]
            simp only [setCache_same]
            exact hpostr
          · rw [setCache_other _ hpe]
            apply hdone.post
            simpa [hpe] using hp
        · intro p hp hout
          have hpe : p ≠ (layer, slot) := by
            rintro rfl
            exact hout (by simp)
          rw [setCache_other _ hpe]
          apply hdone.pre p hp
          intro hin
          exact hout (List.mem_append_left _ hin)
      · rintro r ⟨herr, hfails⟩
        refine ⟨?_, hfails⟩
        constructor
        · exact hdone.frame
        · intro p hp
          by_cases hpe : p = (layer, slot)
          · rw [hpe]
            simp only [setCache_same]
            exact herr
          · rw [setCache_other _ hpe]
            by_cases hin : p ∈ done
            · exact hpost _ _ (hdone.post p hin)
            · exact hpre _ _ (hdone.pre p hp hin)
    · constructor
      · rfl
      · intro p hp
        cases hp
      · intro p hp _
        exact hs p hp
  apply wp_post hrun
  intro _ r hdone
  exact ⟨hdone.frame, hdone.post⟩

end Laws

section Opened
variable {F : Type} (d : Device F) (o : SchedulerOptions) (stage : ℕ)

/-- A scheduler as `ds4_stage_scheduler_open` hands it out; the hidden states hold what their
memory held. -/
structure IsOpened (s : Scheduler F) : Prop where
  options : s.options = o
  stage_eq : s.stage = stage
  stage_lt : stage < expectedGpus
  slots_ne : o.activeSlots ≠ 0
  slots_le : o.activeSlots ≤ maxSlots
  caches : ∀ p ∈ stageCells stage o.activeSlots, IsFresh d o p.1 (s.caches p.1 p.2)
  hc : ∀ slot < o.activeSlots, ∀ buffer, ∃ n, s.hc buffer slot = ⟨hcValues, d.garbage n⟩
  cur : ∀ slot < o.activeSlots, s.curHc slot = .a

variable {d o stage}

theorem setCur_same (s : Scheduler F) (slot : ℕ) (buffer : HcBuffer) :
    (s.setCur slot buffer).curHc slot = buffer := by
  simp [Scheduler.setCur]

theorem setHc_same (s : Scheduler F) (buffer : HcBuffer) (slot : ℕ) (t : Tensor F) :
    (s.setHc buffer slot t).hc buffer slot = t := by
  simp [Scheduler.setHc]

theorem setHc_other (s : Scheduler F) {buffer buffer' : HcBuffer} {slot slot' : ℕ} (t : Tensor F)
    (h : buffer' ≠ buffer ∨ slot' ≠ slot) :
    (s.setHc buffer slot t).hc buffer' slot' = s.hc buffer' slot' := by
  by_cases hb : buffer' = buffer
  · subst hb
    have hs : slot' ≠ slot := h.resolve_left (not_not.2 rfl)
    simp [Scheduler.setHc, Function.update_of_ne hs]
  · simp [Scheduler.setHc, Function.update_of_ne hb]

/-- The hidden states of some slots are set. -/
structure HcDone (s : Scheduler F) (P : Tensor F → Prop) (done : List ℕ) (t : Scheduler F) :
    Prop where
  frame : { t with hc := s.hc, curHc := s.curHc } = s
  hc : ∀ slot ∈ done, ∀ buffer, P (t.hc buffer slot)
  cur : ∀ slot ∈ done, t.curHc slot = .a

theorem HcDone.step {s t : Scheduler F} {P : Tensor F → Prop} {done : List ℕ} (slot : ℕ)
    {a b : Tensor F} (h : HcDone s P done t) (ha : P a) (hb : P b) :
    HcDone s P (done ++ [slot]) (((t.setHc .a slot a).setHc .b slot b).setCur slot .a) := by
  constructor
  · exact h.frame
  · intro slot' hin buffer
    show P (((t.setHc .a slot a).setHc .b slot b).hc buffer slot')
    by_cases hs : slot' = slot
    · subst hs
      cases buffer with
      | a =>
        rw [setHc_other _ _ (.inl (by decide)), setHc_same]
        exact ha
      | b =>
        rw [setHc_same]
        exact hb
    · rw [setHc_other _ _ (.inr hs), setHc_other _ _ (.inr hs)]
      apply h.hc
      simpa [hs] using hin
  · intro slot' hin
    show Function.update t.curHc slot .a slot' = .a
    by_cases hs : slot' = slot
    · rw [hs, Function.update_self]
    · rw [Function.update_of_ne hs]
      apply h.cur
      simpa [hs] using hin

/-- What `ds4_stage_scheduler_open` accepts. -/
structure Opens (o : SchedulerOptions) (stage : ℕ) : Prop where
  stage_lt : stage < expectedGpus
  slots_ne : o.activeSlots ≠ 0
  slots_le : o.activeSlots ≤ maxSlots

/-- An open that returns hands out an opened scheduler; it fails on bad options, or where a call
fails. -/
theorem schedulerOpen_opened (n : ℕ) :
    wp (schedulerOpen d o stage) (fun _ r => IsOpened d o stage r.1)
      (fun _ => Opens o stage → d.Fails) (Scheduler.blank o stage, n) := by
  unfold schedulerOpen
  rw [eachCell_eq, wp_bind]
  apply wp_require
  · intro hno h
    exact absurd h.stage_lt (by simpa using hno)
  intro hstage
  rw [wp_bind]
  apply wp_require
  · intro hno h
    simp [h.slots_ne, h.slots_le] at hno
  intro hslots
  simp only [Bool.and_eq_true, decide_eq_true_eq] at hstage hslots
  rw [wp_bind]
  have halloc : ∀ layer (c : LayerCache F) n, c = {} → wp (allocLayerCache d o layer)
      (fun _ r => IsFresh d o layer r.1) (fun r => (fun _ _ => True) layer r.1 ∧ d.Fails)
      (c, n) := by
    intro layer c n hc
    rw [hc]
    apply wp_mono (allocLayerCache_fresh n)
    · intro _ _ h
      exact h
    · intro _ h
      exact ⟨trivial, h⟩
  apply wp_mono (wp_eachCell (fun _ _ _ => trivial) (fun _ _ _ => trivial) halloc
    (fun _ _ => rfl))
  · rintro _ ⟨t, n'⟩ hcells
    apply wp_post (wp_each (I := fun done r =>
      HcDone t (fun x => ∃ n, x = ⟨hcValues, d.garbage n⟩) done r.1) ?_ ⟨rfl, by simp, by simp⟩)
    · intro _ r hdone
      have hframe := hcells.frame
      rw [← hdone.frame] at hframe
      constructor
      · exact congrArg Scheduler.options hframe
      · exact congrArg Scheduler.stage hframe
      · exact hstage
      · exact hslots.1
      · exact hslots.2
      · intro p hp
        have hsame : t.caches = r.1.caches := (congrArg Scheduler.caches hdone.frame).symm
        rw [← hsame]
        exact hcells.cells p hp
      · intro slot hlt
        exact hdone.hc slot (List.mem_range.2 hlt)
      · intro slot hlt
        exact hdone.cur slot (List.mem_range.2 hlt)
    · intro done slot rest r _ hdone
      simp only [wp_bind, wp_readAt, wp_call]
      apply wp_require
      · intro hno _
        rcases Bool.and_eq_false_iff.1 hno with ha | hb
        · exact ⟨_, ha⟩
        · exact ⟨_, hb⟩
      intro _
      rw [wp_write]
      exact hdone.step slot ⟨_, rfl⟩ ⟨_, rfl⟩
  · rintro _ ⟨-, hfails⟩ -
    exact hfails

/-- Where no call fails, good options open. -/
theorem Opens.opens (ho : Opens o stage) (hd : ¬ d.Fails) (n : ℕ) :
    ∃ s n', schedulerOpen d o stage (Scheduler.blank o stage, n) = .ok ⟨⟩ (s, n') ∧
      IsOpened d o stage s := by
  have hwp : wp (schedulerOpen d o stage) (fun _ r => IsOpened d o stage r.1)
      (fun _ => False) (Scheduler.blank o stage, n) :=
    wp_mono (schedulerOpen_opened n) (fun _ _ h => h) fun _ h => hd (h ho)
  obtain ⟨⟨⟩, ⟨s, n'⟩, hrun, hs⟩ := wp_returns hwp
  exact ⟨s, n', hrun, hs⟩

end Opened

/-- The default context of one slot, with the capacities it needs. -/
def defaultOptions : SchedulerOptions where
  rawCap := 128
  rawWindow := 128
  attnCompCap := 262144
  indexCompCap := 262144
  indexerTopK := 1
  kvCtxTokens := 1048576
  kvActiveSlots := 1
  rawCap_lt := by norm_num
  rawWindow_lt := by norm_num
  attnCompCap_lt := by norm_num
  indexCompCap_lt := by norm_num
  indexerTopK_lt := by norm_num
  kvCtxTokens_lt := by norm_num
  kvActiveSlots_lt := by norm_num

/-- A device on which nothing fails. -/
def quietDevice : Device ℤ where
  zero := 0
  low := -1000
  answers := fun _ => true
  garbage := fun _ _ => []
  garbageTopk := fun _ _ => []

theorem quietDevice_quiet : ¬ quietDevice.Fails := by
  rintro ⟨_, hno⟩
  cases hno

end Ds4.Stage
