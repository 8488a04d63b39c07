import Ds4.Replay.BatchPlan
import Mathlib.Data.List.GetD

/-! A batch does for each of its prompts what a run of its own does. -/
namespace Ds4.Replay
open State

variable {S L T : Type} (E : Engine S L T)

/-- The buffers of the caller are as they were. -/
structure Frame (r r' : Run S L T) : Prop where
  outputs : r'.outputs = r.outputs
  counts : r'.counts = r.counts

section Prompts
variable (prompts : List (List ℤ)) (plan : List BatchSlotPlan)

/-- The prompts are read up to a position: each slot is behind as much of its prompt as there is,
and at every position exactly those slots were fed whose prompts go on. -/
structure ReadTo (pos : ℕ) (r : Run S L T) : Prop where
  slots : ∀ slot x, plan[slot]? = some x →
    SlotAt r slot (promptState E (x.prompt prompts) (min pos x.promptLen))
      (promptFeed (x.prompt prompts) (min pos x.promptLen))
  feeds : r.feeds = (List.range pos).map (feedAt prompts plan)
  tokens : ∀ x ∈ plan, ∀ q < min pos x.promptLen, 0 ≤ (x.prompt prompts).getD q 0

variable {prompts plan} (hplan : PlanOf prompts plan)
include hplan

theorem feedAt_get (pos : ℕ) {slot : ℕ} {x : BatchSlotPlan} (hx : plan[slot]? = some x) :
    (feedAt prompts plan pos)[slot]? =
      if pos < x.promptLen then some (promptAt prompts pos x) else none := by
  rw [feedAt, List.getElem?_map, takeWhile_falling pos hplan.falling, hx, Option.filter_some]
  by_cases h : pos < x.promptLen
  · rw [if_pos (by simpa using h), if_pos h]
    rfl
  · rw [if_neg (by simpa using h), if_neg h]
    rfl

theorem ReadTo.step {pos : ℕ} {r : Run S L T} (h : ReadTo E prompts plan pos r)
    (htokens : ∀ x ∈ plan.takeWhile (fun x => pos < x.promptLen),
      0 ≤ (x.prompt prompts).getD pos 0) :
    ReadTo E prompts plan (pos + 1) (fedRun E (feedAt prompts plan pos) r) := by
  constructor
  · intro slot x hx
    have hslot := h.slots slot x hx
    have hget := feedAt_get hplan pos hx
    by_cases hpos : pos < x.promptLen
    · rw [if_pos hpos] at hget
      rw [min_eq_left hpos.le] at hslot
      rw [min_eq_left hpos, promptState, promptFeed_succ]
      exact hslot.feed E _ hget
    · rw [if_neg hpos] at hget
      rw [min_eq_right (not_lt.1 hpos)] at hslot
      rw [min_eq_right ((not_lt.1 hpos).trans pos.le_succ)]
      exact hslot.skip E hget
  · show r.feeds ++ [feedAt prompts plan pos] = _
    rw [h.feeds, List.range_succ, List.map_append]
    rfl
  · intro x hx q hq
    by_cases hqpos : q = pos
    · subst hqpos
      apply htokens
      obtain ⟨slot, hslot⟩ := List.mem_iff_getElem?.1 hx
      apply List.mem_of_getElem? (i := slot)
      rw [takeWhile_falling q hplan.falling, hslot, Option.filter_some, if_pos]
      simpa using (lt_min_iff.1 hq).2
    · apply h.tokens x hx q
      rw [lt_min_iff] at hq ⊢
      exact ⟨by omega, hq.2⟩

theorem wp_feedPrompts (left : ℕ) : ∀ (r : Run S L T) (pos : ℕ),
    (∀ q < pos + left, ∃ x ∈ plan, q < x.promptLen) → ReadTo E prompts plan pos r →
    wp (feedPrompts E prompts plan left pos)
      (fun _ r' => ReadTo E prompts plan (pos + left) r' ∧ Frame r r')
      (fun _ => ∃ x ∈ plan, ∃ v ∈ x.prompt prompts, v < 0) r := by
  induction left with
  | zero =>
    intro r pos _ h
    exact ⟨h, rfl, rfl⟩
  | succ left ih =>
    intro r pos hlong h
    rw [feedPrompts, wp_bind]
    apply wp_mono (wp_batchTokens pos plan)
    · rintro _ r' ⟨rfl, rfl, htokens⟩
      have hne : (feedAt prompts plan pos).length ≠ 0 := by
        obtain ⟨x, hx, hlt⟩ := hlong pos (by omega)
        obtain ⟨slot, hslot⟩ := List.mem_iff_getElem?.1 hx
        have hget := feedAt_get hplan pos hslot
        rw [if_pos hlt] at hget
        have hslot' := (List.getElem?_eq_some_iff.1 hget).1
        omega
      have hstep := h.step E hplan htokens
      rw [if_pos hne, wp_bind, wp_feedTokenBatch]
      rw [show pos + (left + 1) = pos + 1 + left by omega] at hlong ⊢
      apply wp_post (ih _ (pos + 1) hlong hstep)
      rintro _ r'' ⟨hread, hframe⟩
      exact ⟨hread, hframe.outputs, hframe.counts⟩
    · rintro _ ⟨x, hx, hlt, hneg⟩
      refine ⟨x, hx, _, ?_, hneg⟩
      rw [hplan.len x hx] at hlt
      rw [List.getD_eq_getElem _ _ hlt]
      exact List.getElem_mem hlt

end Prompts

section Select
variable {r : Run S L T}

/-- Outputs at different cells: each is written, and no other. -/
structure Emitted (xs : List (ℕ × ℕ × L)) (r r' : Run S L T) : Prop where
  texts : ∀ x ∈ xs, (E.tokenText x.2.1).isSome = true
  cells : ∀ x ∈ xs, r'.outputs x.1 = ⟨x.2.1, x.2.2, E.tokenText x.2.1⟩
  others : ∀ cell, cell ∉ xs.map Prod.fst → r'.outputs cell = r.outputs cell
  slots : r'.slots = r.slots
  feeds : r'.feeds = r.feeds

theorem wp_emitAll (xs : List (ℕ × ℕ × L)) : ∀ r : Run S L T, (xs.map Prod.fst).Nodup →
    wp (emitAll E xs) (fun _ r' => Emitted E xs r r')
      (fun _ => ∃ x ∈ xs, E.tokenText x.2.1 = none) r := by
  induction xs with
  | nil =>
    intro r _
    exact ⟨by simp, by simp, fun _ _ => rfl, rfl, rfl⟩
  | cons x xs ih =>
    intro r hnodup
    rw [List.map_cons, List.nodup_cons] at hnodup
    rw [emitAll, wp_bind]
    apply wp_emit
    · intro hnone
      exact ⟨x, List.mem_cons_self, hnone⟩
    intro hsome
    apply wp_mono (ih _ hnodup.2)
    · rintro _ r' hr'
      constructor
      · intro y hy
        rcases List.mem_cons.1 hy with rfl | hy
        · exact hsome
        · exact hr'.texts y hy
      · intro y hy
        rcases List.mem_cons.1 hy with rfl | hy
        · rw [hr'.others _ hnodup.1]
          exact Function.update_self _ _ _
        · exact hr'.cells y hy
      · intro cell hcell
        rw [List.map_cons, List.mem_cons, not_or] at hcell
        rw [hr'.others cell hcell.2]
        exact Function.update_of_ne hcell.1 _ _
      · exact hr'.slots
      · exact hr'.feeds
    · rintro _ ⟨y, hy, hnone⟩
      exact ⟨y, List.mem_cons_of_mem x hy, hnone⟩

/-- One slot is no special case. -/
theorem selectTokenBatch_eq (plan : List BatchSlotPlan) (step stride : ℕ) :
    selectTokenBatch E plan step stride = (do
      let r ← get
      emitAll E (plan.zipIdx.map fun x =>
        (x.1.promptIdx * stride + step, E.select (r.slots x.2)))) := by
  cases plan with
  | nil => rfl
  | cons p ps =>
    cases ps with
    | nil =>
      show selectTokenSlot E 0 (p.promptIdx * stride + step) = _
      unfold selectTokenSlot
      congr 1
      funext r
      show _ = (do emit E _ _; emitAll E [])
      rw [emitAll, bind_pure_unit]
    | cons q ps => rfl

variable {prompts : List (List ℤ)} {plan : List BatchSlotPlan} {step stride : ℕ}

/-- The outputs of a step, by prompt. -/
def stepOutputs (prompts : List (List ℤ)) (plan : List BatchSlotPlan) (step stride : ℕ) :
    List (ℕ × ℕ × L) :=
  plan.map fun x => (x.promptIdx * stride + step, E.select (genState E (x.prompt prompts) step))

theorem wp_selectTokenBatch
    (hstates : ∀ slot x, plan[slot]? = some x →
      r.slots slot = genState E (x.prompt prompts) step)
    (hnodup : (plan.map fun x => x.promptIdx * stride + step).Nodup) :
    wp (selectTokenBatch E plan step stride)
      (fun _ r' => Emitted E (stepOutputs E prompts plan step stride) r r')
      (fun _ => ∃ x ∈ plan, (outputAt E (x.prompt prompts) step).text = none) r := by
  have hlist : (plan.zipIdx.map fun x =>
      (x.1.promptIdx * stride + step, E.select (r.slots x.2))) =
      stepOutputs E prompts plan step stride := by
    apply List.ext_getElem?
    intro slot
    rw [stepOutputs, List.getElem?_map, List.getElem?_map, List.getElem?_zipIdx]
    cases hx : plan[slot]? with
    | none => rfl
    | some x => simp [hstates slot x hx]
  rw [selectTokenBatch_eq, wp_bind, wp_get, hlist]
  apply wp_mono (wp_emitAll E (stepOutputs E prompts plan step stride) r _)
  · intro _ r' h
    exact h
  · rintro _ ⟨y, hy, hnone⟩
    obtain ⟨x, hx, rfl⟩ := List.mem_map.1 hy
    exact ⟨x, hx, hnone⟩
  · rw [stepOutputs, List.map_map]
    exact hnodup

end Select

section Cells
variable {prompts : List (List ℤ)} {plan : List BatchSlotPlan} {stride : ℕ}

/-- The cells of a stride are told apart by prompt and step. -/
theorem cell_inj {i j a b : ℕ} (ha : a < stride) (hb : b < stride)
    (h : i * stride + a = j * stride + b) : i = j ∧ a = b := by
  have hpos : 0 < stride := by omega
  have hdiv := congrArg (· / stride) h
  simp only [Nat.add_comm _ a, Nat.add_comm _ b, Nat.add_mul_div_right _ _ hpos,
    Nat.div_eq_of_lt ha, Nat.div_eq_of_lt hb, Nat.zero_add] at hdiv
  subst hdiv
  exact ⟨rfl, by omega⟩

theorem PlanOf.nodup (h : PlanOf prompts plan) {step : ℕ} (hstep : step < stride) :
    (plan.map fun x => x.promptIdx * stride + step).Nodup := by
  have hidx : (plan.map (·.promptIdx)).Nodup := h.perm.nodup_iff.2 List.nodup_range
  have hmap : (plan.map fun x => x.promptIdx * stride + step) =
      (plan.map (·.promptIdx)).map fun i => i * stride + step := by
    rw [List.map_map]
    rfl
  rw [hmap]
  apply hidx.map
  intro i j hij
  exact (cell_inj hstep hstep hij).1

end Cells

section Continue
variable (prompts : List (List ℤ)) (plan : List BatchSlotPlan) (stride : ℕ)
  (read : List Feed) (outputs : ℕ → Output L T)

/-- Every slot stands where output `step` is selected; what was read comes first in the feeds. -/
structure SlotsAt (step : ℕ) (r : Run S L T) : Prop where
  slots : ∀ slot x, plan[slot]? = some x →
    SlotAt r slot (genState E (x.prompt prompts) step) (genFeed E (x.prompt prompts) step)
  feeds : ∃ more, r.feeds = read ++ more

/-- The first `n` outputs of every prompt are written, and nothing else is. -/
structure Written (n : ℕ) (r : Run S L T) : Prop where
  texts : ∀ x ∈ plan, ∀ j < n, (outputAt E (x.prompt prompts) j).text.isSome = true
  cells : ∀ x ∈ plan, ∀ j < n,
    r.outputs (x.promptIdx * stride + j) = outputAt E (x.prompt prompts) j
  others : ∀ cell, (∀ x ∈ plan, ∀ j < n, cell ≠ x.promptIdx * stride + j) →
    r.outputs cell = outputs cell

/-- The runtime behind new counts. -/
def counted (count : ℕ) (r : Run S L T) : Run S L T :=
  { r with counts := fun i => if i ∈ plan.map (·.promptIdx) then count else r.counts i }

theorem wp_setCounts {count : ℕ} {Q : PUnit → Run S L T → Prop} {Err : Run S L T → Prop}
    {r : Run S L T} : wp (setCounts plan count) Q Err r = Q ⟨⟩ (counted plan count r) := rfl

variable {prompts plan stride read outputs}

theorem counted_counts {count : ℕ} {r : Run S L T} {x : BatchSlotPlan} (hx : x ∈ plan) :
    (counted plan count r).counts x.promptIdx = count :=
  if_pos (List.mem_map_of_mem hx)

/-- The selected outputs are the next ones. -/
theorem Written.step {step : ℕ} {r r' : Run S L T} (hstep : step < stride)
    (h : Written E prompts plan stride outputs step r)
    (hr' : Emitted E (stepOutputs E prompts plan step stride) r r') :
    Written E prompts plan stride outputs (step + 1) r' := by
  have hmem : ∀ x ∈ plan, (x.promptIdx * stride + step,
      E.select (genState E (x.prompt prompts) step)) ∈ stepOutputs E prompts plan step stride :=
    fun x hx => List.mem_map.2 ⟨x, hx, rfl⟩
  have hcells : (stepOutputs E prompts plan step stride).map Prod.fst =
      plan.map fun x => x.promptIdx * stride + step := by
    rw [stepOutputs, List.map_map]
    rfl
  constructor
  · intro x hx j hj
    by_cases hjs : j = step
    · rw [hjs]
      exact hr'.texts _ (hmem x hx)
    · exact h.texts x hx j (by omega)
  · intro x hx j hj
    by_cases hjs : j = step
    · rw [hjs]
      exact hr'.cells _ (hmem x hx)
    · rw [← h.cells x hx j (by omega)]
      apply hr'.others
      rw [hcells]
      intro hin
      obtain ⟨y, -, hy⟩ := List.mem_map.1 hin
      exact hjs (cell_inj hstep (by omega) hy).2.symm
  · intro cell hcell
    rw [← h.others cell fun x hx j hj => hcell x hx j (by omega)]
    apply hr'.others
    rw [hcells]
    intro hin
    obtain ⟨x, hx, hxc⟩ := List.mem_map.1 hin
    exact hcell x hx step (Nat.lt_succ_self step) hxc.symm

theorem SlotsAt.counted {step : ℕ} {r : Run S L T} (h : SlotsAt E prompts plan read step r)
    (count : ℕ) : SlotsAt E prompts plan read step (counted plan count r) := by
  constructor
  · intro slot x hx
    exact ⟨(h.slots slot x hx).state, (h.slots slot x hx).fed⟩
  · exact h.feeds

variable (hplan : PlanOf prompts plan)
include hplan

/-- One output of every prompt. -/
theorem wp_selectStep {step : ℕ} {r : Run S L T} (hstep : step < stride)
    (hslots : SlotsAt E prompts plan read step r)
    (hout : Written E prompts plan stride outputs step r) :
    wp (selectTokenBatch E plan step stride)
      (fun _ r' => SlotsAt E prompts plan read step r' ∧
        Written E prompts plan stride outputs (step + 1) r')
      (fun _ => ∃ x ∈ plan, (outputAt E (x.prompt prompts) step).text = none) r := by
  apply wp_post (wp_selectTokenBatch E (fun slot x hx => (hslots.slots slot x hx).state)
    (hplan.nodup hstep))
  intro _ r' hr'
  refine ⟨?_, hout.step E hstep hr'⟩
  constructor
  · intro slot x hx
    have hslot := hslots.slots slot x hx
    constructor
    · rw [hr'.slots, hslot.state]
    · rw [hr'.feeds, hslot.fed]
  · rw [hr'.feeds]
    exact hslots.feeds

omit hplan in
/-- Every slot is fed its last output. -/
theorem SlotsAt.step {step : ℕ} {r : Run S L T} (h : SlotsAt E prompts plan read step r)
    (hlen : ∀ x ∈ plan, x.promptLen = (x.prompt prompts).length)
    (hout : Written E prompts plan stride outputs (step + 1) r) :
    SlotsAt E prompts plan read (step + 1)
      (fedRun E (lastOutputs plan (step + 1) stride r) r) := by
  constructor
  · intro slot x hx
    have hmem := List.mem_of_getElem? hx
    have hget : (lastOutputs plan (step + 1) stride r)[slot]? =
        some ((outputAt E (x.prompt prompts) step).token,
          ((x.prompt prompts).length + step) % 2 ^ 32) := by
      rw [lastOutputs, List.getElem?_map, hx, Option.map_some, Nat.add_sub_cancel,
        hout.cells x hmem step (Nat.lt_succ_self step), hlen x hmem]
      rfl
    rw [genFeed_succ, genState]
    exact (h.slots slot x hx).feed E _ hget
  · obtain ⟨more, hmore⟩ := h.feeds
    refine ⟨more ++ [lastOutputs plan (step + 1) stride r], ?_⟩
    show r.feeds ++ _ = _
    rw [hmore, List.append_assoc]

theorem wp_continueBatch (left : ℕ) : ∀ (r : Run S L T) (step : ℕ), step + left < stride →
    SlotsAt E prompts plan read step r → Written E prompts plan stride outputs (step + 1) r →
    (∀ x ∈ plan, r.counts x.promptIdx = step + 1) →
    wp (continueBatch E plan stride left (step + 1))
      (fun _ r' => SlotsAt E prompts plan read (step + left) r' ∧
        Written E prompts plan stride outputs (step + left + 1) r' ∧
        ∀ x ∈ plan, r'.counts x.promptIdx = step + left + 1)
      (fun _ => ∃ x ∈ plan, ∃ k ≤ step + left,
        (outputAt E (x.prompt prompts) k).text = none) r := by
  induction left with
  | zero =>
    intro r step _ hslots hout hcounts
    exact ⟨hslots, hout, hcounts⟩
  | succ left ih =>
    intro r step hlt hslots hout hcounts
    have hfed := hslots.step E hplan.len hout
    have hout' : Written E prompts plan stride outputs (step + 1)
        (fedRun E (lastOutputs plan (step + 1) stride r) r) :=
      ⟨hout.texts, hout.cells, hout.others⟩
    rw [continueBatch, wp_bind, wp_get, wp_bind, wp_feedTokenBatch, wp_bind]
    apply wp_mono (wp_selectStep E hplan (by omega) hfed hout')
    · rintro _ r' ⟨hslots', hwritten⟩
      rw [wp_bind, wp_setCounts]
      rw [show step + (left + 1) = step + 1 + left by omega] at hlt ⊢
      apply ih _ (step + 1) hlt
      · exact hslots'.counted E _
      · exact ⟨hwritten.texts, hwritten.cells, hwritten.others⟩
      · intro x hx
        exact counted_counts hx
    · rintro _ ⟨x, hx, hnone⟩
      exact ⟨x, hx, step + 1, by omega, hnone⟩

end Continue

section Batch
variable {o : Options} {prompts : List (List ℤ)} {maxTokens stride : ℕ}

/-- A batch that both generations take: the prompts have tokens and fit, and so do the outputs. -/
structure Accepts (o : Options) (prompts : List (List ℤ)) (maxTokens stride : ℕ) : Prop where
  some : prompts ≠ []
  nonempty : ∀ p ∈ prompts, p ≠ []
  slots : prompts.length ≤ o.kvActiveSlots
  slots_le : o.kvActiveSlots ≤ Stage.maxSlots
  context : ∀ p ∈ prompts, o.kvCtxTokens = 0 ∨ p.length + maxTokens ≤ o.kvCtxTokens
  stride_le : maxTokens ≤ stride

theorem lt_foldl_max (plan : List BatchSlotPlan) (q : ℕ) : ∀ m : ℕ,
    q < plan.foldl (fun m p => max m p.promptLen) m ↔ q < m ∨ ∃ x ∈ plan, q < x.promptLen := by
  induction plan with
  | nil => simp
  | cons x plan ih =>
    intro m
    rw [List.foldl_cons, ih, lt_max_iff]
    simp only [List.mem_cons, exists_eq_or_imp]
    exact or_assoc

/-- The length of the longest prompt. -/
def longest (prompts : List (List ℤ)) : ℕ :=
  (unsortedPlan prompts 0).foldl (fun m p => max m p.promptLen) 0

/-- The plan of a batch. -/
def batchPlan (prompts : List (List ℤ)) : List BatchSlotPlan :=
  sortBatchPlan (unsortedPlan prompts 0)

theorem lt_longest {q : ℕ} : q < longest prompts ↔ ∃ x ∈ batchPlan prompts, q < x.promptLen := by
  have hperm := sortBatchPlan_perm (unsortedPlan prompts 0)
  rw [longest, lt_foldl_max]
  simp only [Nat.not_lt_zero, false_or]
  constructor
  · rintro ⟨x, hx, hq⟩
    exact ⟨x, hperm.mem_iff.2 hx, hq⟩
  · rintro ⟨x, hx, hq⟩
    exact ⟨x, hperm.mem_iff.1 hx, hq⟩

/-- Behind the prompts every slot stands where its first output is selected. -/
theorem ReadTo.slotsAt {r : Run S L T}
    (h : ReadTo E prompts (batchPlan prompts) (longest prompts) r) :
    SlotsAt E prompts (batchPlan prompts)
      ((List.range (longest prompts)).map (feedAt prompts (batchPlan prompts))) 0 r ∧
    ∀ x ∈ batchPlan prompts, ∀ v ∈ x.prompt prompts, 0 ≤ v := by
  have hmin : ∀ x ∈ batchPlan prompts, min (longest prompts) x.promptLen =
      (x.prompt prompts).length := by
    intro x hx
    rw [← (planOf_sort prompts).len x hx, min_eq_right]
    by_contra hlt
    exact absurd (lt_longest.2 ⟨x, hx, not_le.1 hlt⟩) (Nat.lt_irrefl _)
  constructor
  · constructor
    · intro slot x hx
      have hslot := h.slots slot x hx
      rw [hmin x (List.mem_of_getElem? hx)] at hslot
      simpa [genState, genFeed] using hslot
    · exact ⟨[], by rw [h.feeds, List.append_nil]⟩
  · intro x hx v hv
    obtain ⟨q, hq, rfl⟩ := List.getElem_of_mem hv
    have htoken := h.tokens x hx q (by rw [hmin x hx]; exact hq)
    rwa [List.getD_eq_getElem _ _ hq] at htoken

/-- What `ds4_replay_generate_batch` does on a fresh runtime. -/
theorem generateBatch_spec (h : Accepts o prompts maxTokens stride) (hmax : maxTokens ≠ 0)
    (outputs : ℕ → Output L T) (counts : ℕ → ℕ) :
    wp (generateBatch E o prompts maxTokens stride)
      (fun _ r => (∀ x ∈ batchPlan prompts, Good E (x.prompt prompts) maxTokens) ∧
        SlotsAt E prompts (batchPlan prompts)
          ((List.range (longest prompts)).map (feedAt prompts (batchPlan prompts)))
          (maxTokens - 1) r ∧
        Written E prompts (batchPlan prompts) stride outputs maxTokens r ∧
        ∀ x ∈ batchPlan prompts, r.counts x.promptIdx = maxTokens)
      (fun _ => ∃ x ∈ batchPlan prompts, ¬ Good E (x.prompt prompts) maxTokens)
      (E.fresh outputs counts) := by
  have hplan : PlanOf prompts (batchPlan prompts) := planOf_sort prompts
  have hlen : prompts.length ≠ 0 := by
    intro hno
    exact h.some (List.length_eq_zero_iff.1 hno)
  have hnotext : ∀ k < maxTokens, ∀ x : BatchSlotPlan,
      (outputAt E (x.prompt prompts) k).text = none → ¬ Good E (x.prompt prompts) maxTokens := by
    intro k hk x hnone hgood
    have hsome := hgood.texts k hk
    rw [hnone] at hsome
    cases hsome
  unfold generateBatch
  simp only [wp_bind, wp_get, hlen, hmax, h.stride_le, h.slots, h.slots.trans h.slots_le, ne_eq,
    not_false_eq_true, decide_true, Bool.and_self, wp_require_true, Engine.fresh, Bool.not_false]
  apply wp_mono (wp_planPrompts prompts h.nonempty h.context 0)
  · rintro _ r ⟨rfl, rfl⟩
    have hread : ReadTo E prompts (batchPlan prompts) 0
        (E.fresh outputs counts) := by
      constructor
      · intro slot x _
        rw [Nat.zero_min]
        exact ⟨rfl, rfl⟩
      · rfl
      · intro x _ q hq
        rw [Nat.zero_min] at hq
        exact absurd hq (Nat.not_lt_zero q)
    apply wp_mono (wp_feedPrompts E hplan (longest prompts) _ 0
      (fun q hq => lt_longest.1 (by omega)) hread)
    · rintro _ r ⟨hread', hframe⟩
      rw [Nat.zero_add] at hread'
      obtain ⟨hslots, htokens⟩ := hread'.slotsAt
      rw [wp_setCounts]
      have hwritten : Written E prompts (batchPlan prompts) stride outputs 0
          (counted (batchPlan prompts) 0 r) := by
        constructor
        · intro x _ j hj
          exact absurd hj (Nat.not_lt_zero j)
        · intro x _ j hj
          exact absurd hj (Nat.not_lt_zero j)
        · intro cell _
          show r.outputs cell = outputs cell
          rw [hframe.outputs]
          rfl
      have hpos : 0 < maxTokens := Nat.pos_of_ne_zero hmax
      have hlt : 0 < stride := hpos.trans_le h.stride_le
      apply wp_mono (wp_selectStep E hplan hlt (hslots.counted E 0) hwritten)
      · rintro _ r' ⟨hslots', hwritten'⟩
        rw [wp_setCounts]
        have hleft : 0 + (maxTokens - 1) < stride := by
          have hle := h.stride_le
          omega
        have hdone : 0 + (maxTokens - 1) + 1 = maxTokens := by omega
        apply wp_mono (wp_continueBatch E hplan (maxTokens - 1) _ 0 hleft (hslots'.counted E 1)
          ⟨hwritten'.texts, hwritten'.cells, hwritten'.others⟩ fun x hx => counted_counts hx)
        · rintro _ r'' ⟨hslots'', hwritten'', hcounts⟩
          rw [hdone] at hwritten'' hcounts
          rw [Nat.zero_add] at hslots''
          refine ⟨?_, ?_, ?_, hcounts⟩
          · intro x hx
            exact ⟨htokens x hx, hwritten''.texts x hx⟩
          · exact ⟨fun slot x hx => ⟨(hslots''.slots slot x hx).state,
              (hslots''.slots slot x hx).fed⟩, hslots''.feeds⟩
          · exact ⟨hwritten''.texts, hwritten''.cells, hwritten''.others⟩
        · rintro r'' ⟨x, hx, k, hk, hnone⟩
          exact ⟨x, hx, hnotext k (by omega) x hnone⟩
      · rintro r' ⟨x, hx, hnone⟩
        exact ⟨x, hx, hnotext 0 hpos x hnone⟩
    · rintro r ⟨x, hx, v, hv, hneg⟩
      refine ⟨x, hx, ?_⟩
      intro hgood
      exact absurd (hgood.tokens v hv) (by omega)
  · intro r hno
    exact hno.elim

/-- The slot that a prompt is given. -/
def slotOf (prompts : List (List ℤ)) (i : ℕ) : ℕ :=
  ((batchPlan prompts).map (·.promptIdx)).idxOf i

theorem slotOf_get {i : ℕ} {p : List ℤ} (hp : prompts[i]? = some p) :
    ∃ x, (batchPlan prompts)[slotOf prompts i]? = some x ∧ x.promptIdx = i ∧
      x.prompt prompts = p := by
  have hplan : PlanOf prompts (batchPlan prompts) := planOf_sort prompts
  have hi : i ∈ (batchPlan prompts).map (·.promptIdx) := by
    rw [hplan.perm.mem_iff, List.mem_range]
    exact (List.getElem?_eq_some_iff.1 hp).1
  have hget := List.getElem?_idxOf hi
  rw [List.getElem?_map] at hget
  obtain ⟨x, hx, hxi⟩ := Option.map_eq_some_iff.1 hget
  refine ⟨x, hx, hxi, ?_⟩
  unfold BatchSlotPlan.prompt
  rw [hxi, List.getD_eq_getElem?_getD, hp]
  rfl

theorem slotOf_lt {i : ℕ} {p : List ℤ} (hp : prompts[i]? = some p) :
    slotOf prompts i < prompts.length := by
  have hplan : PlanOf prompts (batchPlan prompts) := planOf_sort prompts
  obtain ⟨x, hx, -⟩ := slotOf_get hp
  have hlen := hplan.perm.length_eq
  rw [List.length_map, List.length_range] at hlen
  rw [← hlen]
  exact (List.getElem?_eq_some_iff.1 hx).1

theorem slotOf_inj {i j : ℕ} {p q : List ℤ} (hp : prompts[i]? = some p)
    (hq : prompts[j]? = some q) (h : slotOf prompts i = slotOf prompts j) : i = j := by
  obtain ⟨x, hx, rfl, -⟩ := slotOf_get hp
  obtain ⟨y, hy, rfl, -⟩ := slotOf_get hq
  rw [h, hy] at hx
  rw [Option.some.inj hx]

/-- While prompts are read a slot is fed as long as its own goes on. -/
theorem read_get {pos i : ℕ} {p : List ℤ} (more : List Feed) (hp : prompts[i]? = some p)
    (hpos : ∃ q ∈ prompts, pos < q.length) :
    (((((List.range (longest prompts)).map (feedAt prompts (batchPlan prompts)) ++ more).getD
      pos [])[slotOf prompts i]?).isSome = true ↔ pos < p.length) := by
  have hplan : PlanOf prompts (batchPlan prompts) := planOf_sort prompts
  obtain ⟨x, hx, -, rfl⟩ := slotOf_get hp
  have hlt : pos < longest prompts := by
    obtain ⟨q, hq, hqpos⟩ := hpos
    obtain ⟨j, hj⟩ := List.mem_iff_getElem?.1 hq
    obtain ⟨y, hy, -, rfl⟩ := slotOf_get hj
    have hmem := List.mem_of_getElem? hy
    rw [lt_longest]
    refine ⟨y, hmem, ?_⟩
    rw [hplan.len y hmem]
    exact hqpos
  rw [List.getD_eq_getElem?_getD, List.getElem?_append_left (by simpa using hlt),
    List.getElem?_map, List.getElem?_range hlt, Option.map_some, Option.getD_some,
    feedAt_get hplan pos hx, hplan.len x (List.mem_of_getElem? hx)]
  by_cases hpos : pos < (x.prompt prompts).length
  · simp [hpos]
  · simp [hpos]

/-- Nothing stops a batch exactly where nothing stops one of its prompts. -/
theorem generateBatch_ok_iff (h : Accepts o prompts maxTokens stride) (hmax : maxTokens ≠ 0)
    (outputs : ℕ → Output L T) (counts : ℕ → ℕ) :
    (∃ r, generateBatch E o prompts maxTokens stride (E.fresh outputs counts) = .ok ⟨⟩ r) ↔
      ∀ p ∈ prompts, Good E p maxTokens := by
  have hspec := generateBatch_spec E h hmax outputs counts
  have hplan : PlanOf prompts (batchPlan prompts) := planOf_sort prompts
  constructor
  · rintro ⟨r, hr⟩ p hp
    obtain ⟨i, hi⟩ := List.mem_iff_getElem?.1 hp
    obtain ⟨x, hx, -, rfl⟩ := slotOf_get hi
    exact (wp_ok hspec hr).1 x (List.mem_of_getElem? hx)
  · intro hgood
    unfold wp at hspec
    cases hr : generateBatch E o prompts maxTokens stride (E.fresh outputs counts) with
    | ok a r => exact ⟨r, rfl⟩
    | error e r =>
      rw [hr] at hspec
      obtain ⟨x, hx, hno⟩ := hspec
      exact absurd (hgood _ (List.mem_of_getElem? (hplan.prompt_get hx))) hno

theorem generate_ok_iff {p : List ℤ} {outputCap : ℕ} (hp : p ≠ []) (hmax : maxTokens ≠ 0)
    (hcap : maxTokens ≤ outputCap)
    (hctx : o.kvCtxTokens = 0 ∨ p.length + maxTokens ≤ o.kvCtxTokens)
    (outputs : ℕ → Output L T) (counts : ℕ → ℕ) :
    (∃ r, generate E o p maxTokens outputCap (E.fresh outputs counts) = .ok ⟨⟩ r) ↔
      Good E p maxTokens := by
  have hspec := generate_spec E hp hmax hcap hctx outputs counts
  constructor
  · rintro ⟨r, hr⟩
    exact (wp_ok hspec hr).1
  · intro hgood
    unfold wp at hspec
    cases hr : generate E o p maxTokens outputCap (E.fresh outputs counts) with
    | ok a r => exact ⟨r, rfl⟩
    | error e r =>
      rw [hr] at hspec
      exact absurd hgood hspec

/-- Without an output to write both generations refuse. -/
theorem generate_zero {p : List ℤ} (outputs : ℕ → Output L T) (counts : ℕ → ℕ) :
    ¬ ∃ r, generate E o p 0 stride (E.fresh outputs counts) = .ok ⟨⟩ r := by
  rintro ⟨r, hr⟩
  have hspec : wp (generate E o p 0 stride) (fun _ _ => False) (fun _ => True)
      (E.fresh outputs counts) := by
    unfold generate
    simp only [wp_bind, wp_modify, ne_eq, not_true_eq_false, decide_false, Bool.and_false,
      wp_require_false]
  exact wp_ok hspec hr

theorem generateBatch_zero (outputs : ℕ → Output L T) (counts : ℕ → ℕ) :
    ¬ ∃ r, generateBatch E o prompts 0 stride (E.fresh outputs counts) = .ok ⟨⟩ r := by
  rintro ⟨r, hr⟩
  have hspec : wp (generateBatch E o prompts 0 stride) (fun _ _ => False) (fun _ => True)
      (E.fresh outputs counts) := by
    unfold generateBatch
    simp only [wp_bind, ne_eq, not_true_eq_false, decide_false, Bool.and_false, Bool.false_and,
      wp_require_false]
  exact wp_ok hspec hr

/-- A batch returns exactly where each of its prompts does alone, and then every prompt has the
outputs, the count and the feeds of its own run. Its slot is fed the positions in order, in no
step of the prompts after its own has ended, and no other cell is written. -/
theorem generateBatch_generate (h : Accepts o prompts maxTokens stride)
    (outputs : ℕ → Output L T) (counts : ℕ → ℕ) :
    ((∃ r, generateBatch E o prompts maxTokens stride (E.fresh outputs counts) = .ok ⟨⟩ r) ↔
      ∀ p ∈ prompts, ∃ t, generate E o p maxTokens stride (E.fresh outputs counts) = .ok ⟨⟩ t) ∧
    ∀ r, generateBatch E o prompts maxTokens stride (E.fresh outputs counts) = .ok ⟨⟩ r →
      (∀ i p, prompts[i]? = some p → slotOf prompts i < prompts.length ∧
        (∀ j q, prompts[j]? = some q → slotOf prompts i = slotOf prompts j → i = j) ∧
        (∀ outputCap outputs' counts' t, maxTokens ≤ outputCap →
          generate E o p maxTokens outputCap (E.fresh outputs' counts') = .ok ⟨⟩ t →
          (∀ step < maxTokens, r.outputs (i * stride + step) = t.outputs step) ∧
          r.counts i = t.counts 0 ∧ fedTo r.feeds (slotOf prompts i) = fedTo t.feeds 0) ∧
        (p.length + maxTokens ≤ 2 ^ 32 → (fedTo r.feeds (slotOf prompts i)).map Prod.snd =
          List.range (p.length + (maxTokens - 1))) ∧
        ∀ pos, (∃ q ∈ prompts, pos < q.length) →
          (((r.feeds.getD pos [])[slotOf prompts i]?).isSome = true ↔ pos < p.length)) ∧
      ∀ cell, (∀ i < prompts.length, ∀ step < maxTokens, cell ≠ i * stride + step) →
        r.outputs cell = outputs cell := by
  have hplan : PlanOf prompts (batchPlan prompts) := planOf_sort prompts
  by_cases hmax : maxTokens = 0
  · subst hmax
    obtain ⟨p, hp⟩ := List.exists_mem_of_ne_nil prompts h.some
    refine ⟨⟨fun hr => absurd hr (generateBatch_zero E outputs counts), fun hall => ?_⟩, ?_⟩
    · exact absurd (hall p hp) (generate_zero E outputs counts)
    · intro r hr
      exact absurd ⟨r, hr⟩ (generateBatch_zero E outputs counts)
  constructor
  · rw [generateBatch_ok_iff E h hmax]
    apply forall₂_congr
    intro p hp
    rw [generate_ok_iff E (h.nonempty p hp) hmax h.stride_le (h.context p hp)]
  · intro r hr
    obtain ⟨hgood, hslots, hwritten, hcounts⟩ := wp_ok (generateBatch_spec E h hmax _ _) hr
    constructor
    · intro i p hp
      obtain ⟨x, hx, rfl, rfl⟩ := slotOf_get hp
      have hmem := List.mem_of_getElem? hx
      have hfed := (hslots.slots _ x hx).fed
      refine ⟨slotOf_lt hp, fun j q hq => slotOf_inj hp hq, ?_, ?_, ?_⟩
      · intro outputCap outputs' counts' t hcap ht
        obtain ⟨-, hout, hfed', hcount⟩ := wp_ok (generate_spec E (h.nonempty _
          (List.mem_of_getElem? hp)) hmax hcap (h.context _ (List.mem_of_getElem? hp)) _ _) ht
        refine ⟨?_, ?_, ?_⟩
        · intro step hstep
          rw [hwritten.cells x hmem step hstep, hout step hstep]
        · rw [hcounts x hmem, hcount]
        · rw [hfed, hfed']
      · intro hctx
        rw [hfed]
        exact genFeed_range E _ (by omega)
      · intro pos hpos
        obtain ⟨more, hmore⟩ := hslots.feeds
        rw [hmore]
        exact read_get more hp hpos
    · intro cell hcell
      apply hwritten.others
      intro x hx step hstep
      apply hcell _ _ step hstep
      have hget := hplan.prompt_get hx
      exact (List.getElem?_eq_some_iff.1 hget).1

end Batch

/-- An engine whose slots add up what they are given. -/
def addingEngine : Engine ℕ Unit Unit where
  start := 0
  decode := fun s token position => s + token + position
  select := fun s => (s, ())
  tokenText := fun _ => some ()

theorem twoPrompts_accepts : Accepts ⟨0, 2⟩ [[1], [2, 3]] 2 2 := by
  constructor <;> simp [Stage.maxSlots]

theorem twoPrompts_generate :
    ∃ r, generateBatch addingEngine ⟨0, 2⟩ [[1], [2, 3]] 2 2
      (addingEngine.fresh (fun _ => ⟨0, (), none⟩) fun _ => 0) = .ok ⟨⟩ r := by
  apply (generateBatch_generate addingEngine twoPrompts_accepts _ _).1.2
  intro p hp
  simp only [List.mem_cons, List.not_mem_nil, or_false] at hp
  rcases hp with rfl | rfl
  · exact ⟨_, rfl⟩
  · exact ⟨_, rfl⟩

end Ds4.Replay
