import Ds4.Replay.Single

/-! The plan of a batch: the prompts by falling length, so that those that are still read are the
first ones, and what the slots are fed while the prompts are read. -/
namespace Ds4.Replay
open State

section Sorting

theorem moveDown_perm (key : BatchSlotPlan) (ps : List BatchSlotPlan) :
    (moveDown key ps).Perm (key :: ps) := by
  induction ps with
  | nil => exact .refl _
  | cons p ps ih =>
    unfold moveDown
    by_cases h : p.promptLen < key.promptLen
    · rw [if_pos h]
      exact (ih.cons p).trans (.swap key p ps)
    · rw [if_neg h]

theorem moveDown_rising (key : BatchSlotPlan) {ps : List BatchSlotPlan}
    (h : ps.Pairwise fun a b => a.promptLen ≤ b.promptLen) :
    (moveDown key ps).Pairwise fun a b => a.promptLen ≤ b.promptLen := by
  induction ps with
  | nil => exact List.pairwise_singleton _ _
  | cons p ps ih =>
    rw [List.pairwise_cons] at h
    unfold moveDown
    by_cases hlt : p.promptLen < key.promptLen
    · rw [if_pos hlt, List.pairwise_cons]
      refine ⟨?_, ih h.2⟩
      intro b hb
      rcases List.mem_cons.1 ((moveDown_perm key ps).mem_iff.1 hb) with rfl | hb
      · exact hlt.le
      · exact h.1 b hb
    · rw [if_neg hlt, List.pairwise_cons]
      refine ⟨?_, List.pairwise_cons.2 h⟩
      intro b hb
      rcases List.mem_cons.1 hb with rfl | hb
      · exact not_lt.1 hlt
      · exact (not_lt.1 hlt).trans (h.1 b hb)

theorem foldl_moveDown (plan : List BatchSlotPlan) : ∀ done : List BatchSlotPlan,
    done.Pairwise (fun a b => a.promptLen ≤ b.promptLen) →
    (plan.foldl (fun done key => moveDown key done) done).Perm (plan ++ done) ∧
    (plan.foldl (fun done key => moveDown key done) done).Pairwise
      fun a b => a.promptLen ≤ b.promptLen := by
  induction plan with
  | nil =>
    intro done h
    exact ⟨.refl _, h⟩
  | cons key plan ih =>
    intro done h
    obtain ⟨hperm, hrising⟩ := ih (moveDown key done) (moveDown_rising key h)
    refine ⟨?_, hrising⟩
    apply hperm.trans
    apply ((moveDown_perm key done).append_left plan).trans
    exact List.perm_middle

theorem sortBatchPlan_perm (plan : List BatchSlotPlan) : (sortBatchPlan plan).Perm plan := by
  have h := (foldl_moveDown plan [] List.Pairwise.nil).1
  rw [List.append_nil] at h
  exact (List.reverse_perm _).trans h

theorem sortBatchPlan_falling (plan : List BatchSlotPlan) :
    (sortBatchPlan plan).Pairwise fun a b => b.promptLen ≤ a.promptLen := by
  unfold sortBatchPlan
  rw [List.pairwise_reverse]
  exact (foldl_moveDown plan [] List.Pairwise.nil).2

/-- Of a plan by falling length the prompts that go on are the first ones. -/
theorem takeWhile_falling (pos : ℕ) {plan : List BatchSlotPlan}
    (h : plan.Pairwise fun a b => b.promptLen ≤ a.promptLen) (slot : ℕ) :
    (plan.takeWhile fun x => pos < x.promptLen)[slot]? =
      plan[slot]?.filter fun x => pos < x.promptLen := by
  induction plan generalizing slot with
  | nil => rfl
  | cons x plan ih =>
    rw [List.pairwise_cons] at h
    by_cases hx : pos < x.promptLen
    · rw [List.takeWhile_cons_of_pos (by simpa using hx)]
      cases slot with
      | zero =>
        rw [List.getElem?_cons_zero, List.getElem?_cons_zero, Option.filter_some,
          if_pos (by simpa using hx)]
      | succ slot =>
        rw [List.getElem?_cons_succ, List.getElem?_cons_succ]
        exact ih h.2 slot
    · rw [List.takeWhile_cons_of_neg (by simpa using hx)]
      symm
      rw [List.getElem?_nil, Option.filter_eq_none_iff]
      intro y hy
      rcases List.mem_cons.1 (List.mem_of_getElem? hy) with rfl | hy
      · simpa using hx
      · simpa using (h.1 y hy).trans (not_lt.1 hx)

end Sorting

/-- The prompt of a slot. -/
def BatchSlotPlan.prompt (x : BatchSlotPlan) (prompts : List (List ℤ)) : List ℤ :=
  prompts.getD x.promptIdx []

/-- A plan has every prompt once, by falling length. -/
structure PlanOf (prompts : List (List ℤ)) (plan : List BatchSlotPlan) : Prop where
  perm : (plan.map (·.promptIdx)).Perm (List.range prompts.length)
  len : ∀ x ∈ plan, x.promptLen = (x.prompt prompts).length
  falling : plan.Pairwise fun a b => b.promptLen ≤ a.promptLen

section Plan
variable {prompts : List (List ℤ)}

/-- The plan before it is sorted. -/
def unsortedPlan (prompts : List (List ℤ)) (i : ℕ) : List BatchSlotPlan :=
  (prompts.zipIdx i).map fun x => ⟨x.2, x.1.length⟩

theorem planOf_sort (prompts : List (List ℤ)) :
    PlanOf prompts (sortBatchPlan (unsortedPlan prompts 0)) := by
  have hperm := sortBatchPlan_perm (unsortedPlan prompts 0)
  constructor
  · apply (hperm.map _).trans
    rw [unsortedPlan, List.map_map]
    show ((prompts.zipIdx 0).map Prod.snd).Perm _
    rw [List.zipIdx_map_snd, List.range_eq_range']
  · intro x hx
    obtain ⟨⟨p, i⟩, hp, rfl⟩ := List.mem_map.1 (hperm.mem_iff.1 hx)
    have hget : prompts[i]? = some p := by simpa using List.mem_zipIdx_iff_getElem?.1 hp
    simp [BatchSlotPlan.prompt, hget]
  · exact sortBatchPlan_falling _

/-- A prompt of the batch has a slot. -/
theorem PlanOf.slot {plan : List BatchSlotPlan} (h : PlanOf prompts plan) {i : ℕ} {p : List ℤ}
    (hp : prompts[i]? = some p) :
    ∃ (slot : ℕ) (x : BatchSlotPlan), plan[slot]? = some x ∧ x.promptIdx = i ∧
      x.prompt prompts = p := by
  have hi : i ∈ List.range prompts.length := by
    rw [List.mem_range]
    exact (List.getElem?_eq_some_iff.1 hp).1
  obtain ⟨x, hx, rfl⟩ := List.mem_map.1 (h.perm.mem_iff.2 hi)
  obtain ⟨slot, hslot⟩ := List.mem_iff_getElem?.1 hx
  refine ⟨slot, x, hslot, rfl, ?_⟩
  unfold BatchSlotPlan.prompt
  rw [List.getD_eq_getElem?_getD, hp]
  rfl

/-- A slot of the plan has a prompt of the batch. -/
theorem PlanOf.prompt_get {plan : List BatchSlotPlan} (h : PlanOf prompts plan)
    {x : BatchSlotPlan} (hx : x ∈ plan) :
    prompts[x.promptIdx]? = some (x.prompt prompts) := by
  have hi := h.perm.mem_iff.1 (List.mem_map_of_mem hx)
  rw [List.mem_range] at hi
  unfold BatchSlotPlan.prompt
  rw [List.getD_eq_getElem?_getD, List.getElem?_eq_getElem hi]
  rfl

end Plan

variable {S L T : Type} (E : Engine S L T)

section Feeds
variable {prompts : List (List ℤ)} {plan : List BatchSlotPlan} {r : Run S L T}

theorem wp_planPrompts {o : Options} {maxTokens : ℕ} (ps : List (List ℤ)) :
    (∀ p ∈ ps, p ≠ []) →
    (∀ p ∈ ps, o.kvCtxTokens = 0 ∨ p.length + maxTokens ≤ o.kvCtxTokens) → ∀ i : ℕ,
    wp (planPrompts o maxTokens ps i) (fun plan r' => plan = unsortedPlan ps i ∧ r' = r)
      (fun _ => False) r := by
  induction ps with
  | nil =>
    intro _ _ i
    exact ⟨rfl, rfl⟩
  | cons p ps ih =>
    intro hne hctx i
    have hlen : p.length ≠ 0 := by
      intro h
      exact hne p List.mem_cons_self (List.length_eq_zero_iff.1 h)
    have hctx' : (decide (o.kvCtxTokens = 0) ||
        decide (p.length + maxTokens ≤ o.kvCtxTokens)) = true := by
      simpa using hctx p List.mem_cons_self
    rw [planPrompts]
    simp only [hlen, hctx', ne_eq, not_false_eq_true, decide_true, wp_bind, wp_require_true]
    apply wp_post (ih (fun q hq => hne q (List.mem_cons_of_mem p hq))
      (fun q hq => hctx q (List.mem_cons_of_mem p hq)) (i + 1))
    rintro _ r' ⟨rfl, hr⟩
    exact ⟨rfl, hr⟩

/-- What a slot is fed at a position. -/
def promptAt (prompts : List (List ℤ)) (pos : ℕ) (x : BatchSlotPlan) : ℕ × ℕ :=
  (((x.prompt prompts).getD pos 0).toNat, pos)

/-- The feed at a position: the prompts that go on. -/
def feedAt (prompts : List (List ℤ)) (plan : List BatchSlotPlan) (pos : ℕ) : Feed :=
  (plan.takeWhile fun x => pos < x.promptLen).map (promptAt prompts pos)

theorem wp_batchTokens (pos : ℕ) (plan : List BatchSlotPlan) :
    wp (batchTokens prompts pos plan)
      (fun feed r' => feed = feedAt prompts plan pos ∧ r' = r ∧
        ∀ x ∈ plan.takeWhile (fun x => pos < x.promptLen), 0 ≤ (x.prompt prompts).getD pos 0)
      (fun _ => ∃ x ∈ plan, pos < x.promptLen ∧ (x.prompt prompts).getD pos 0 < 0) r := by
  induction plan with
  | nil => exact ⟨rfl, rfl, by simp⟩
  | cons x plan ih =>
    rw [batchTokens]
    by_cases hx : x.promptLen ≤ pos
    · rw [if_pos hx]
      have hno : ¬ pos < x.promptLen := not_lt.2 hx
      refine ⟨?_, rfl, ?_⟩
      · unfold feedAt
        rw [List.takeWhile_cons_of_neg (by simpa using hno)]
        rfl
      · rw [List.takeWhile_cons_of_neg (by simpa using hno)]
        simp
    · rw [if_neg hx, wp_bind]
      have hgo : pos < x.promptLen := not_le.1 hx
      apply wp_promptToken
      · intro hneg
        exact ⟨x, List.mem_cons_self, hgo, hneg⟩
      intro hpos
      rw [wp_bind]
      apply wp_mono ih
      · rintro _ r' ⟨rfl, hr, hrest⟩
        refine ⟨?_, hr, ?_⟩
        · unfold feedAt
          rw [List.takeWhile_cons_of_pos (by simpa using hgo)]
          rfl
        · rw [List.takeWhile_cons_of_pos (by simpa using hgo)]
          intro y hy
          rcases List.mem_cons.1 hy with rfl | hy
          · exact hpos
          · exact hrest y hy
      · rintro r' ⟨y, hy, hlt, hneg⟩
        exact ⟨y, List.mem_cons_of_mem x hy, hlt, hneg⟩

end Feeds

end Ds4.Replay
