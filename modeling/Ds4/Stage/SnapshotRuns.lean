import Ds4.Stage.LaneLaws
import Ds4.Stage.OpRuns
import Ds4.Stage.SnapshotLaws

/-! A stage with one slot, over any run: a restore and a reset give back what decodes start from. -/
namespace Ds4.Stage
open Context State State.Prog

variable {F : Type}

/-- What a scheduler can become: every call may have failed on the way. -/
inductive Reached (K : Kernels F) (d : Device F) (fp8 : Bool) (o : SchedulerOptions)
    (stage : ℕ) : Scheduler F × ℕ → Prop
  | opened {n : ℕ} {s : Scheduler F × ℕ}
      (h : schedulerOpen d o stage (Scheduler.blank o stage, n) = .ok ⟨⟩ s) :
      Reached K d fp8 o stage s
  | op {s : Scheduler F × ℕ} (op : Op F) (h : Reached K d fp8 o stage s) :
      Reached K d fp8 o stage (after (op.run K d fp8 s))
  | reset {s : Scheduler F × ℕ} (h : Reached K d fp8 o stage s) :
      Reached K d fp8 o stage (after (schedulerReset d o stage s))
  | create {s : Scheduler F × ℕ} (h : Reached K d fp8 o stage s) :
      Reached K d fp8 o stage (after (snapshotCreate d s))
  | restore {s s₀ t : Scheduler F × ℕ} {snap : Snapshot F} (h : Reached K d fp8 o stage s)
      (h₀ : Reached K d fp8 o stage s₀) (hsnap : snapshotCreate d s₀ = .ok snap t) :
      Reached K d fp8 o stage (after (snapshotRestore d snap s))

variable {K : Kernels F} {d : Device F} {fp8 : Bool} {o : SchedulerOptions} {stage : ℕ}

section Shapes

/-- The same cache, of the shape that its layer needs. -/
def SameShaped (d : Device F) (o : SchedulerOptions) (layer : ℕ) (c c' : LayerCache F) : Prop :=
  c = c' ∧ IsShaped d o layer c

theorem sameShaped_closed (layer : ℕ) : Closed (SameShaped d o layer) := by
  constructor
  · rintro c _ ⟨rfl, -⟩
    exact Alike.refl c
  · rintro c _ name f ⟨rfl, h⟩
    exact ⟨rfl, h.mapRows name f⟩
  · rintro c _ selected ⟨rfl, h⟩
    exact ⟨rfl, h.setTopk selected⟩
  · rintro c _ ⟨rfl, h⟩
    exact ⟨rfl, h.setCounts _ _⟩
  · rintro c _ ⟨rfl, h⟩
    exact ⟨rfl, h.setCounts _ _⟩

variable {s : Scheduler F} (ho : o.activeSlots = 1)
include ho

theorem IsSized.oneSlot (h : IsSized d o stage s) : OneSlot o stage s :=
  ⟨h.options, ho, h.stage_eq, h.hc 0 (by omega)⟩

theorem IsSized.same (h : IsSized d o stage s) : SameCurrent (SameShaped d o) o stage s s :=
  ⟨s.curHc 0, h.oneSlot ho, h.oneSlot ho, rfl, rfl, fun _ _ => rfl,
    fun _ hl => ⟨rfl, h.cache ho hl⟩⟩

theorem SameCurrent.sized (h : SameCurrent (SameShaped d o) o stage s s) :
    IsSized d o stage s := by
  obtain ⟨cur, h⟩ := h
  constructor
  · exact h.left.options
  · exact h.left.stage_eq
  · rintro ⟨layer, slot⟩ hp
    rw [mem_stageCells] at hp
    obtain rfl : slot = 0 := by omega
    exact (h.caches layer hp.1).2
  · intro slot hslot buffer
    obtain rfl : slot = 0 := by omega
    exact h.left.values buffer

/-- Whatever was called and whatever has failed, every buffer is still there. -/
theorem Reached.sized {r : Scheduler F × ℕ} (h : Reached K d fp8 o stage r) :
    IsSized d o stage r.1 := by
  induction h with
  | opened hopen => exact (wp_ok (schedulerOpen_opened _) hopen).sized
  | op op _ ih =>
    have hop : Respects (SameCurrent (SameShaped d o) o stage) (op.run K d fp8) :=
      Op.run_respects sameShaped_closed op
    exact (hop.after (ih.same ho)).sized ho
  | reset _ ih =>
    apply wp_after (P := fun r : Scheduler F × ℕ => IsSized d o stage r.1)
    apply wp_mono (schedulerReset_cleared ih _)
    · intro _ _ h
      exact h.sized
    · intro _ h
      exact h.1
  | create _ ih =>
    apply wp_after (P := fun r : Scheduler F × ℕ => IsSized d o stage r.1)
    apply wp_mono (snapshotCreate_captures ih ho _)
    · rintro _ t ⟨-, ht⟩
      rw [ht]
      exact ih
    · rintro t ⟨ht, -⟩
      rw [ht]
      exact ih
  | restore _ _ hsnap ih ih₀ =>
    apply wp_after (P := fun r : Scheduler F × ℕ => IsSized d o stage r.1)
    apply wp_mono (snapshotRestore_restored ih ih₀ ho (wp_ok (snapshotCreate_captures ih₀ ho _)
      hsnap).1 _)
    · intro _ _ h
      exact h.1
    · intro _ h
      exact h.1

theorem IsSized.runOps (ops : List (Op F)) : ∀ r : Scheduler F × ℕ, IsSized d o stage r.1 →
    IsSized d o stage (runOps K d fp8 r ops).2.1 := by
  rintro ⟨s, n⟩ h
  exact (runOps_same sameShaped_closed ops s s n (h.same ho)).2.sized ho

end Shapes

section Same
variable {s s' : Scheduler F} (ho : o.activeSlots = 1)
include ho

theorem Restored.same (h : IsSized d o stage s) (h' : IsSized d o stage s')
    (hr : Restored stage s s') : SameCurrent (fun _ => Alike) o stage s' s := by
  refine ⟨s.curHc 0, h'.oneSlot ho, h.oneSlot ho, hr.cur, rfl, ?_, ?_⟩
  · rintro _ rfl
    have hhidden := hr.hidden
    unfold Scheduler.hidden at hhidden
    rw [hr.cur] at hhidden
    exact hhidden
  · intro layer hl
    rw [hr.caches layer hl]
    exact Alike.refl _

omit ho in
theorem IsFresh.alike {layer : ℕ} {c c' : LayerCache F} (h : IsFresh d o layer c)
    (h' : IsFresh d o layer c') : Alike c c' where
  tensor := by
    funext name
    rw [h.tensor, h'.tensor]
  topk := h.topk.trans h'.topk.symm
  rawCap := h.rawCap.trans h'.rawCap.symm
  rawWindow := h.rawWindow.trans h'.rawWindow.symm
  attnCompCap := h.attnCompCap.trans h'.attnCompCap.symm
  nAttnComp := h.nAttnComp.trans h'.nAttnComp.symm
  indexCompCap := h.indexCompCap.trans h'.indexCompCap.symm
  nIndexComp := h.nIndexComp.trans h'.nIndexComp.symm
  indexerTopK := h.indexerTopK.trans h'.indexerTopK.symm

/-- A cleared scheduler and an opened one differ in their hidden states only. -/
theorem IsCleared.agreeing (h : IsCleared d o stage s) (h' : IsOpened d o stage s') :
    Agreeing (fun _ => Alike) o stage (fun _ _ => False) s s' := by
  refine ⟨.a, h.sized.oneSlot ho, h'.sized.oneSlot ho, h.cur 0 (by omega), h'.cur 0 (by omega),
    fun _ hno => hno.elim, ?_⟩
  intro layer hl
  have hmem : (layer, 0) ∈ stageCells stage o.activeSlots := by
    rw [mem_stageCells]
    exact ⟨hl, by omega⟩
  exact (h.caches _ hmem).alike (h'.caches _ hmem)

omit ho in
/-- A run that begins with a write does not depend on the hidden state it starts from. -/
theorem runOps_writes (h : Agreeing (fun _ => Alike) o stage (fun _ _ => False) s s')
    {op : Op F} (hop : op.Writes) {n : ℕ} {t : Scheduler F × ℕ}
    (hrun : op.run K d fp8 (s, n) = .ok ⟨⟩ t) (ops : List (Op F)) :
    (runOps K d fp8 (s, n) (op :: ops)).1 = (runOps K d fp8 (s', n) (op :: ops)).1 := by
  have hsim : Sim (Agreeing (fun _ => Alike) o stage fun _ _ => False)
      (SameCurrent (fun _ => Alike) o stage) (Agreeing (fun _ => Alike) o stage fun _ _ => False)
      (op.run K d fp8) := Op.run_writes (fun _ => alike_closed) (fun _ _ hno => hno.elim) hop
  have hout := hsim s s' n h
  rw [hrun] at hout
  rw [runOps, runOps, hrun]
  cases hr' : op.run K d fp8 (s', n) with
  | ok a t' =>
    rw [hr'] at hout
    obtain ⟨x, k⟩ := t
    obtain ⟨y, k'⟩ := t'
    obtain ⟨-, hxy, rfl⟩ : (⟨⟩ : PUnit) = a ∧ SameCurrent (fun _ => Alike) o stage x y ∧ k = k' :=
      hout
    have hrest : (runOps K d fp8 (x, k) ops).1 = (runOps K d fp8 (y, k) ops).1 :=
      (runOps_same (fun _ => alike_closed) ops x y k hxy).1
    simp only [SameCurrent.hidden hxy, hrest]
  | error e t' =>
    rw [hr'] at hout
    exact absurd hout not_false

end Same

/-- The current hidden state, the caches and the counts are back behind a restore, and every later
run is the one from the snapshot; behind a reset the caches are fresh and the hidden state is
cleared, and every later run that begins with a write is the one of a fresh scheduler. Where no
call fails, all three return. -/
theorem snapshot_and_reset {r : Scheduler F × ℕ} (ho : o.activeSlots = 1)
    (hs : Reached K d fp8 o stage r) :
    (∀ snap t ops u, snapshotCreate d r = .ok snap t →
      snapshotRestore d snap (runOps K d fp8 t ops).2 = .ok ⟨⟩ u → Restored stage r.1 u.1 ∧
        ∀ later n, (runOps K d fp8 (u.1, n) later).1 = (runOps K d fp8 (r.1, n) later).1) ∧
    (∀ u, schedulerReset d o stage r = .ok ⟨⟩ u → IsCleared d o stage u.1 ∧
      ∀ k fresh op later n t, schedulerOpen d o stage (Scheduler.blank o stage, k) = .ok ⟨⟩ fresh →
        op.Writes → op.run K d fp8 (u.1, n) = .ok ⟨⟩ t →
        (runOps K d fp8 (u.1, n) (op :: later)).1 =
          (runOps K d fp8 (fresh.1, n) (op :: later)).1) ∧
    (¬ d.Fails → (∃ snap t, snapshotCreate d r = .ok snap t ∧
      ∀ ops, ∃ u, snapshotRestore d snap (runOps K d fp8 t ops).2 = .ok ⟨⟩ u) ∧
      ∃ u, schedulerReset d o stage r = .ok ⟨⟩ u) := by
  have hsized := hs.sized ho
  refine ⟨?_, ?_, ?_⟩
  · intro snap t ops u hcreate hrestore
    obtain ⟨hsnap, ht⟩ := wp_ok (snapshotCreate_captures hsized ho _) hcreate
    rw [← ht] at hsized hsnap ⊢
    obtain ⟨husized, hu⟩ := wp_ok (snapshotRestore_restored (hsized.runOps ho ops t) hsized ho
      hsnap _) hrestore
    refine ⟨hu, ?_⟩
    intro later n
    exact (runOps_same (fun _ => alike_closed) later u.1 t.1 n (hu.same ho hsized husized)).1
  · intro u hreset
    have hu := wp_ok (schedulerReset_cleared hsized _) hreset
    refine ⟨hu, ?_⟩
    intro k fresh op later n t hopen hop hrun
    have hfresh := wp_ok (schedulerOpen_opened k) hopen
    exact runOps_writes (hu.agreeing ho hfresh) hop hrun later
  · intro hd
    constructor
    · obtain ⟨snap, t, hcreate, hsnap, ht⟩ := wp_returns (wp_mono
        (snapshotCreate_captures hsized ho r.2) (fun _ _ h => h) fun _ h => hd h.2)
      refine ⟨snap, t, hcreate, ?_⟩
      intro ops
      rw [← ht] at hsized hsnap
      obtain ⟨_, u, hrestore, -⟩ := wp_returns (wp_mono (snapshotRestore_restored
        (hsized.runOps ho ops t) hsized ho hsnap _) (fun _ _ h => h) fun _ h => hd h.2)
      exact ⟨u, hrestore⟩
    · obtain ⟨_, u, hreset, -⟩ := wp_returns (wp_mono (schedulerReset_cleared hsized r.2)
        (fun _ _ h => h) fun _ h => hd h.2)
      exact ⟨u, hreset⟩

/-- Kernels that give nothing. -/
def quietKernels : Kernels ℤ where
  ops := ⟨0, -2, -1, (· < ·), (· ≤ ·), (· + ·), (· - ·), (· * ·), (· / ·), fun _ => 1⟩
  isZero := fun x => x = 0
  nVocab := 129280
  embed := fun _ _ => []
  project := fun _ _ _ => ⟨[], [], [], []⟩
  quantizeKv := id
  f16Round := id
  attnRow := fun _ _ _ => ⟨[], []⟩
  indexRow := fun _ _ _ => ⟨[], []⟩
  compressorNorm := fun _ _ row => row
  compressorRope := fun _ _ row => row
  selectTopk := fun _ _ _ _ _ => []
  layerOut := fun _ _ _ _ _ _ _ _ _ => []

/-- The memory of this device has been used before. -/
def dirtyDevice : Device ℤ :=
  { quietDevice with garbage := fun _ _ => List.replicate hcCols 1 }

theorem dirtyDevice_quiet : ¬ dirtyDevice.Fails := by
  rintro ⟨_, hno⟩
  cases hno

/-- The hidden state of an opened scheduler is not the one behind a reset. -/
theorem reset_not_opened :
    ¬ ∀ s u, schedulerOpen dirtyDevice defaultOptions 7 (Scheduler.blank defaultOptions 7, 0) =
        .ok ⟨⟩ s → schedulerReset dirtyDevice defaultOptions 7 s = .ok ⟨⟩ u →
        u.1.hidden 0 = s.1.hidden 0 := by
  intro hall
  have hopens : Opens defaultOptions 7 := by
    constructor <;> decide
  obtain ⟨s, n, hopen, hs⟩ := hopens.opens dirtyDevice_quiet 0
  obtain ⟨_, u, hreset, hu⟩ := wp_returns (wp_mono (schedulerReset_cleared hs.sized n)
    (fun _ _ h => h) fun _ h => dirtyDevice_quiet h.2)
  have hsame := hall (s, n) u hopen hreset
  obtain ⟨k, hk⟩ := hs.hc 0 (by decide) (s.curHc 0)
  unfold Scheduler.hidden at hsame
  rw [hu.hc 0 (by decide), hk] at hsame
  have hrow : (List.replicate hcCols (0 : ℤ)).head? = (List.replicate hcCols (1 : ℤ)).head? :=
    congrArg (fun t => (Tensor.row t 0).head?) hsame
  rw [List.head?_replicate, List.head?_replicate] at hrow
  exact absurd hrow (by decide)

theorem quiet_snapshot : ∃ r, Reached quietKernels quietDevice true defaultOptions 7 r ∧
    ∃ snap t, snapshotCreate quietDevice r = .ok snap t ∧ ∀ ops, ∃ u, snapshotRestore quietDevice
      snap (runOps quietKernels quietDevice true t ops).2 = .ok ⟨⟩ u := by
  have hopens : Opens defaultOptions 7 := by
    constructor <;> decide
  obtain ⟨s, n, hopen, -⟩ := hopens.opens quietDevice_quiet 0
  have hs : Reached quietKernels quietDevice true defaultOptions 7 (s, n) := .opened hopen
  exact ⟨(s, n), hs, ((snapshot_and_reset (by decide) hs).2.2 quietDevice_quiet).1⟩

end Ds4.Stage
