import Ds4.Context.KvLayout
import Ds4.Stage.Scheduler
import Mathlib.Algebra.Order.Ring.Star
import Mathlib.Tactic.IntervalCases

/-! The KV memory that a scheduler allocates against the KV plan that the memory check is made
with. The plan counts two bytes for an element, and the compressor states once; the caches hold
four bytes for each and are made for every slot. -/
namespace Ds4.Stage
open Context State State.Prog

def CacheTensor.all : List CacheTensor :=
  [.rawKv, .attnStateKv, .attnStateScore, .attnCompKv, .indexStateKv, .indexStateScore,
    .indexCompKv]

namespace SchedulerOptions
variable (o : SchedulerOptions)

theorem ctxTokens_lt : o.ctxTokens < 2 ^ 64 := by
  unfold ctxTokens orDefault
  have h := o.kvCtxTokens_lt
  split_ifs <;> omega

/-- The options that the scheduler opens its context with. -/
def contextKv : KvOptions where
  kvCtxTokens := o.ctxTokens
  kvActiveSlots := o.activeSlots
  plannedKvBytesPerGpu := 0
  ctxTokens_lt := o.ctxTokens_lt
  activeSlots_lt := (Nat.mod_lt _ (by norm_num)).trans (by norm_num)

theorem contextKv_ctxTokens : o.contextKv.kvCtxTokens = o.ctxTokens := rfl

theorem contextKv_activeSlots : o.contextKv.kvActiveSlots = o.activeSlots := rfl

/-- A compressed row for every four tokens of the context. -/
def CapacitiesSuffice : Prop :=
  o.ctxTokens / 4 ≤ o.attnCapacity ∧ o.ctxTokens / 4 ≤ o.indexCapacity

end SchedulerOptions

/-- The part of a layer's view that is planned for a tensor. -/
def viewBytes (v : LayerKvView) : CacheTensor → ℕ
  | .rawKv => v.rawSwaBytes
  | .attnStateKv => v.attnStateKvBytes
  | .attnStateScore => v.attnStateScoreBytes
  | .attnCompKv => v.compressedAttnBytes
  | .indexStateKv => v.indexerStateKvBytes
  | .indexStateScore => v.indexerStateScoreBytes
  | .indexCompKv => v.indexerKvBytes

namespace Scheduler
variable {F : Type} (s : Scheduler F)

/-- The bytes of a tensor of a layer, over the active slots. -/
def tensorBytes (layer : ℕ) (name : CacheTensor) : ℕ :=
  ((List.range s.options.activeSlots).map fun slot =>
    ((s.caches layer slot).tensor name).elim 0 Tensor.bytes).sum

/-- The KV bytes of a stage. -/
def kvBytes : ℕ :=
  ((stageLayers s.stage).flatMap fun layer =>
    CacheTensor.all.map fun name => s.tensorBytes layer name).sum

/-- The plan covers what has been allocated: in the sum of the stage, and view by view. -/
structure KvCovered (plan : KvPlan) : Prop where
  reserved : s.kvBytes ≤ (plan.stages s.stage).plannedKvBytes
  views : ∀ layer ∈ stageLayers s.stage, ∀ view, plan.views[layer]? = some view →
    ∀ name, s.tensorBytes layer name ≤ viewBytes view name

end Scheduler

section Views
variable (ctxTokens slots : ℕ)

theorem foldl_placeLayer_compressed (layers : List ℕ) : ∀ (vs : List LayerKvView)
    (cur : ℕ → Cursors),
    (layers.foldl (placeLayer ctxTokens slots) (vs, cur)).1.map (·.compressedAttnBytes) =
      vs.map (·.compressedAttnBytes) ++
        layers.map fun layer => (kvBudgetForLayer layer ctxTokens slots).compressedAttnBytes := by
  induction layers with
  | nil =>
    intro vs cur
    simp
  | cons layer layers ih =>
    intro vs cur
    rw [List.foldl_cons, placeLayer, ih, List.map_append, List.append_assoc]
    rfl

/-- The compressed rows of a layer's view are those of its budget. -/
theorem layerViews_compressed {layer : ℕ} (hl : layer < nLayers) :
    ∃ view, (layerViews ctxTokens slots)[layer]? = some view ∧ view.compressedAttnBytes =
      (kvBudgetForLayer layer ctxTokens slots).compressedAttnBytes := by
  have hmap := foldl_placeLayer_compressed ctxTokens slots (List.range nLayers) [] fun _ => {}
  have hlen := congrArg List.length hmap
  have hget := congrArg (fun l => l[layer]?) hmap
  simp only [List.length_map, List.map_nil, List.nil_append, List.length_range] at hlen
  simp only [List.map_nil, List.nil_append, List.getElem?_map, List.getElem?_range hl,
    Option.map_some] at hget
  obtain ⟨view, hview, heq⟩ := Option.map_eq_some_iff.1 hget
  exact ⟨view, hview, heq⟩

/-- The plan counts two bytes for each value of a compressed row. -/
theorem ratio4_budget_le {layer : ℕ} (hclass : layerClassForLayer layer = .ratio4)
    (hfit : ctxTokens / 4 * (headDim * 2) * slots ≤ maxU64) :
    (kvBudgetForLayer layer ctxTokens slots).compressedAttnBytes ≤
      ctxTokens / 4 * (headDim * 2) * slots := by
  unfold kvBudgetForLayer
  split_ifs with hnone
  · exact Nat.zero_le _
  · have hslots : slots ≠ 0 := fun h => hnone (.inr (.inr h))
    have hinner : ctxTokens / 4 * (headDim * 2) ≤ maxU64 :=
      (Nat.le_mul_of_pos_right _ (Nat.pos_of_ne_zero hslots)).trans hfit
    simp only [hclass, KvBudget.withTotal]
    rw [satMul_eq hinner, satMul_eq hfit]

/-- Every stage has a layer that compresses four tokens into one. -/
theorem exists_ratio4 {stage : ℕ} (h : stage < expectedGpus) :
    ∃ layer ∈ stageLayers stage, layer < nLayers ∧ layerClassForLayer layer = .ratio4 := by
  unfold expectedGpus at h
  interval_cases stage
  · exact ⟨2, by decide⟩
  · exact ⟨6, by decide⟩
  · exact ⟨12, by decide⟩
  · exact ⟨18, by decide⟩
  · exact ⟨24, by decide⟩
  · exact ⟨30, by decide⟩
  · exact ⟨36, by decide⟩
  · exact ⟨40, by decide⟩

end Views

section Cover
variable {F : Type} {d : Device F} {o : SchedulerOptions} {stage : ℕ} {s : Scheduler F}

theorem attnCapacity_lt : o.attnCapacity < 2 ^ 32 := by
  unfold SchedulerOptions.attnCapacity orDefault
  have h := o.attnCompCap_lt
  split_ifs <;> omega

theorem attnCapacity_pos : 0 < o.attnCapacity := by
  unfold SchedulerOptions.attnCapacity orDefault
  split_ifs <;> omega

/-- The compressed rows of a ratio-4 layer, with four bytes for each value. -/
theorem IsOpened.tensorBytes_attnComp (h : IsOpened d o stage s) {layer : ℕ}
    (hl : layer ∈ stageLayers stage) (hclass : layerClassForLayer layer = .ratio4) :
    s.tensorBytes layer .attnCompKv = o.activeSlots * (o.attnCapacity * headDim * sizeofFloat) := by
  have hratio : compressRatio layer = 4 := congrArg LayerClass.compressRatio hclass
  have hcell : ∀ slot ∈ List.range s.options.activeSlots,
      ((s.caches layer slot).tensor .attnCompKv).elim 0 Tensor.bytes =
        o.attnCapacity * headDim * sizeofFloat := by
    intro slot hslot
    rw [h.options, List.mem_range] at hslot
    rw [(h.caches (layer, slot) (mem_stageCells.2 ⟨hl, hslot⟩)).tensor]
    simp [tensorShape, hratio, filled, Tensor.bytes]
  rw [Scheduler.tensorBytes, List.map_congr_left hcell, List.map_const', List.sum_replicate,
    List.length_range, h.options, smul_eq_mul]

/-- In every stage the view of some layer is too small for the rows of its slots. -/
theorem IsOpened.view_short (h : IsOpened d o stage s) (hcap : o.ctxTokens / 4 ≤ o.attnCapacity) :
    ∃ layer ∈ stageLayers stage, ∃ view,
      (layerViews o.ctxTokens o.activeSlots)[layer]? = some view ∧
      viewBytes view .attnCompKv < s.tensorBytes layer .attnCompKv := by
  obtain ⟨layer, hl, hlt, hclass⟩ := exists_ratio4 h.stage_lt
  obtain ⟨view, hview, hbytes⟩ := layerViews_compressed o.ctxTokens o.activeSlots hlt
  refine ⟨layer, hl, view, hview, ?_⟩
  have hpos := attnCapacity_pos (o := o)
  have hcap32 := attnCapacity_lt (o := o)
  have hslots := Nat.pos_of_ne_zero h.slots_ne
  have hslots256 := h.slots_le
  have hplan : o.ctxTokens / 4 * (headDim * 2) * o.activeSlots ≤
      o.attnCapacity * (headDim * 2) * o.activeSlots :=
    Nat.mul_le_mul_right _ (Nat.mul_le_mul_right _ hcap)
  have hfit : o.attnCapacity * (headDim * 2) * o.activeSlots ≤ maxU64 := by
    have hbound : o.attnCapacity * (headDim * 2) * o.activeSlots ≤
        2 ^ 32 * (headDim * 2) * maxSlots :=
      Nat.mul_le_mul (Nat.mul_le_mul_right _ hcap32.le) hslots256
    exact hbound.trans (by decide)
  have hbudget := ratio4_budget_le _ _ hclass (hplan.trans hfit)
  rw [h.tensorBytes_attnComp hl hclass]
  show view.compressedAttnBytes < _
  rw [hbytes]
  apply (hbudget.trans hplan).trans_lt
  have hhalf : o.attnCapacity * (headDim * 2) * o.activeSlots =
      o.activeSlots * (o.attnCapacity * headDim * 2) := by ring
  rw [hhalf]
  apply Nat.mul_lt_mul_of_pos_left _ hslots
  apply Nat.mul_lt_mul_of_pos_left (by decide)
  exact Nat.mul_pos hpos (by decide)

theorem openPlan_views {k : KvOptions} {plan : KvPlan} (hopen : openPlan k = .ok (some plan)) :
    plan.views = layerViews k.kvCtxTokens k.kvActiveSlots := by
  rw [openPlan] at hopen
  cases herror : k.error with
  | some e =>
    rw [herror] at hopen
    cases hopen
  | none =>
    rw [herror, applyDerivedKvPlan] at hopen
    by_cases hctx : k.kvCtxTokens = 0
    · rw [if_pos hctx] at hopen
      cases hopen
    · rw [if_neg hctx] at hopen
      cases hopen
      rfl

/-- The context of a scheduler has a plan. -/
theorem contextKv_plan (h : IsOpened d o stage s) :
    ∃ plan, openPlan o.contextKv = .ok (some plan) := by
  have hctx : o.contextKv.kvCtxTokens ≠ 0 := by
    show orDefault o.kvCtxTokens 1048576 ≠ 0
    unfold orDefault
    split_ifs <;> omega
  have herror : o.contextKv.error = none := by
    unfold KvOptions.error
    rw [if_neg, if_neg]
    · rintro ⟨-, hne⟩
      exact hne rfl
    · rintro ⟨-, hzero⟩
      exact h.slots_ne hzero
  rw [openPlan, herror, applyDerivedKvPlan, if_neg hctx]
  exact ⟨_, rfl⟩

theorem IsOpened.not_covered {plan : KvPlan} (h : IsOpened d o stage s)
    (hcap : o.CapacitiesSuffice) (hplan : openPlan o.contextKv = .ok (some plan)) :
    ¬ s.KvCovered plan := by
  intro hcov
  obtain ⟨layer, hl, view, hview, hshort⟩ := h.view_short hcap.1
  have hviews := openPlan_views hplan
  rw [o.contextKv_ctxTokens, o.contextKv_activeSlots] at hviews
  rw [← hviews] at hview
  rw [← h.stage_eq] at hl
  exact absurd (hcov.views layer hl view hview .attnCompKv) (not_le.2 hshort)

/-- An opened scheduler that its plan does not cover. -/
theorem Opens.not_covered (ho : Opens o stage) (hd : ¬ d.Fails) (hcap : o.CapacitiesSuffice)
    (n : ℕ) : ∃ s plan n',
      schedulerOpen d o stage (Scheduler.blank o stage, n) = .ok ⟨⟩ (s, n') ∧
      openPlan o.contextKv = .ok (some plan) ∧ o.CapacitiesSuffice ∧ ¬ s.KvCovered plan := by
  obtain ⟨s, n', hopen, hs⟩ := ho.opens hd n
  obtain ⟨plan, hplan⟩ := contextKv_plan hs
  exact ⟨s, plan, n', hopen, hplan, hcap, hs.not_covered hcap hplan⟩

end Cover

/-- Whatever the context length, the slots and the stage: the plan that the memory check is made
with does not cover what the scheduler allocates. -/
theorem kvPlan_never_covers {F : Type} (d : Device F) (o : SchedulerOptions) (stage n n' : ℕ)
    (s : Scheduler F) (plan : KvPlan) (hcap : o.CapacitiesSuffice)
    (hopen : schedulerOpen d o stage (Scheduler.blank o stage, n) = .ok ⟨⟩ (s, n'))
    (hplan : openPlan o.contextKv = .ok (some plan)) : ¬ s.KvCovered plan :=
  (wp_ok (schedulerOpen_opened n) hopen).not_covered hcap hplan

theorem defaultOptions_suffice : defaultOptions.CapacitiesSuffice := by
  constructor <;> decide

theorem defaultOptions_opens : Opens defaultOptions 7 := by
  constructor <;> decide

/-- With the default options the last stage opens, and its plan does not cover it. -/
theorem default_not_covered : ∃ s plan n,
    schedulerOpen quietDevice defaultOptions 7 (Scheduler.blank defaultOptions 7, 0) =
      .ok ⟨⟩ (s, n) ∧ openPlan defaultOptions.contextKv = .ok (some plan) ∧
      defaultOptions.CapacitiesSuffice ∧ ¬ s.KvCovered plan :=
  defaultOptions_opens.not_covered quietDevice_quiet defaultOptions_suffice 0

theorem default_never_covered : ∃ (s : Scheduler ℤ) (plan : KvPlan), ¬ s.KvCovered plan := by
  obtain ⟨s, n, hopen, hs⟩ := defaultOptions_opens.opens quietDevice_quiet 0
  obtain ⟨plan, hplan⟩ := contextKv_plan hs
  exact ⟨s, plan, kvPlan_never_covers quietDevice defaultOptions 7 0 n s plan
    defaultOptions_suffice hopen hplan⟩

end Ds4.Stage
