import Ds4.Routing.StablePlan

/-! The loops of the host planners. -/
namespace Ds4.Routing

open Parts

/-- A loop whose body keeps an invariant and does not fail ends with it. -/
theorem foldlM_range_ok {σ ε : Type} {f : σ → ℕ → Except ε σ} {P : ℕ → σ → Prop} {n : ℕ} {s : σ}
    (h0 : P 0 s) (hstep : ∀ i < n, ∀ s, P i s → ∃ s', f s i = .ok s' ∧ P (i + 1) s') :
    ∃ s', (List.range n).foldlM f s = .ok s' ∧ P n s' := by
  induction n with
  | zero => exact ⟨s, rfl, h0⟩
  | succ n ih =>
    obtain ⟨s', hs', hP⟩ := ih fun i hi => hstep i (Nat.lt_succ_of_lt hi)
    obtain ⟨s'', hs'', hP'⟩ := hstep n (Nat.lt_succ_self n) s' hP
    refine ⟨s'', ?_, hP'⟩
    rw [List.range_succ, List.foldlM_append, hs']
    show (List.foldlM f s' [n]) = _
    rw [List.foldlM_cons, hs'']
    rfl

/-- The double loop over the slots and their choices passes over the entries in order. -/
theorem foldlM_slots_ok {σ ε : Type} {f : ℕ → σ → ℕ → Except ε σ} {P : ℕ → σ → Prop}
    {slots topK : ℕ} {s : σ} (h0 : P 0 s)
    (hstep : ∀ slot < slots, ∀ k < topK, ∀ s, P (slot * topK + k) s →
      ∃ s', f slot s k = .ok s' ∧ P (slot * topK + k + 1) s') :
    ∃ s', (List.range slots).foldlM (fun s slot => (List.range topK).foldlM (f slot) s) s =
      .ok s' ∧ P (slots * topK) s' := by
  apply foldlM_range_ok (P := fun slot s => P (slot * topK) s)
  · rw [Nat.zero_mul]
    exact h0
  · intro slot hslot s hs
    rw [Nat.succ_mul]
    exact foldlM_range_ok (P := fun k s => P (slot * topK + k) s) hs (hstep slot hslot)

section Pasting
variable {α : Type} {start n : ℕ} {src src' mem : ℕ → α} {a : ℕ}

theorem pasteAt_in (h : start ≤ a) (h' : a < start + n) :
    pasteAt start n src mem a = src (a - start) := if_pos ⟨h, h'⟩

theorem pasteAt_out (h : ¬ (start ≤ a ∧ a < start + n)) : pasteAt start n src mem a = mem a :=
  if_neg h

theorem pasteAt_zero_in (h : a < n) : pasteAt 0 n src mem a = src a :=
  pasteAt_in (Nat.zero_le a) (by omega)

theorem pasteAt_congr (h : ∀ i < n, src i = src' i) :
    pasteAt start n src mem = pasteAt start n src' mem := by
  funext i
  unfold pasteAt
  split_ifs with hi
  · exact h _ (by omega)
  · rfl

end Pasting

section Counts
variable {opt : RouteOptions} {selected : ℕ → ℤ}

/-- Two of the first choices of a slot belong to one rank. -/
def DuplicateIn (selected : ℕ → ℤ) (topK slot k : ℕ) : Prop :=
  ∃ k₂ < k, ∃ k₁ < k₂, ∃ rank,
    Owned selected rank (slot * topK + k₁) ∧ Owned selected rank (slot * topK + k₂)

/-- Some slot has two routes on one rank. -/
def HasDuplicate (opt : RouteOptions) (selected : ℕ → ℤ) : Prop :=
  ∃ slot < opt.slots, DuplicateIn selected opt.topK slot opt.topK

/-- The counters before an entry of a slot. -/
structure CountedTo (opt : RouteOptions) (selected : ℕ → ℤ) (slot k : ℕ) (st : CountState) :
    Prop where
  counts : ∀ rank e, st.counts rank e = expertCount selected (slot * opt.topK + k) rank e
  seen : ∀ rank, st.seenRank rank = true ↔ ∃ k' < k, Owned selected rank (slot * opt.topK + k')
  duplicate : st.compactDuplicate = true ↔
    (∃ s < slot, DuplicateIn selected opt.topK s opt.topK) ∨ DuplicateIn selected opt.topK slot k

theorem expertCount_succ (i rank e : ℕ) : expertCount selected (i + 1) rank e =
    expertCount selected i rank e +
      if Owned selected rank i ∧ localOf (selected i) = e then 1 else 0 := by
  unfold expertCount keyCount
  rw [ownedBefore_succ, List.countP_append]
  by_cases h : Owned selected rank i
  · by_cases he : localOf (selected i) = e <;> simp [h, he]
  · simp [h]

theorem DuplicateIn.succ {topK slot k : ℕ} : DuplicateIn selected topK slot (k + 1) ↔
    DuplicateIn selected topK slot k ∨ ∃ k₁ < k, ∃ rank,
      Owned selected rank (slot * topK + k₁) ∧ Owned selected rank (slot * topK + k) := by
  constructor
  · rintro ⟨k₂, hk₂, h⟩
    rcases Nat.lt_succ_iff_lt_or_eq.1 hk₂ with hlt | rfl
    · exact Or.inl ⟨k₂, hlt, h⟩
    · exact Or.inr h
  · rintro (⟨k₂, hk₂, h⟩ | h)
    · exact ⟨k₂, Nat.lt_succ_of_lt hk₂, h⟩
    · exact ⟨k, Nat.lt_succ_self k, h⟩

theorem CountedTo.step {slot k : ℕ} {st : CountState} (h : CountedTo opt selected slot k st)
    (hmax : selected (slot * opt.topK + k) < kGlobalExperts) :
    ∃ st', countRoute (selected (slot * opt.topK + k)) st = .ok st' ∧
      CountedTo opt selected slot (k + 1) st' := by
  by_cases hneg : selected (slot * opt.topK + k) < 0
  · have hnone : ∀ rank, ¬ Owned selected rank (slot * opt.topK + k) := by
      intro rank hown
      exact absurd hown.1.1 (not_le.2 hneg)
    refine ⟨st, if_pos hneg, ?_, ?_, ?_⟩
    · intro rank e
      rw [h.counts, ← Nat.add_assoc, expertCount_succ, if_neg fun hc => hnone rank hc.1]
      rfl
    · intro rank
      rw [h.seen]
      constructor
      · rintro ⟨k', hk', hown⟩
        exact ⟨k', Nat.lt_succ_of_lt hk', hown⟩
      · rintro ⟨k', hk', hown⟩
        rcases Nat.lt_succ_iff_lt_or_eq.1 hk' with hlt | rfl
        · exact ⟨k', hlt, hown⟩
        · exact absurd hown (hnone rank)
    · rw [h.duplicate, DuplicateIn.succ]
      constructor
      · rintro (hs | hk)
        · exact Or.inl hs
        · exact Or.inr (Or.inl hk)
      · rintro (hs | hk | ⟨k₁, _, rank, _, hown⟩)
        · exact Or.inl hs
        · exact Or.inr hk
        · exact absurd hown (hnone rank)
  · have hexp : IsExpert (selected (slot * opt.topK + k)) := ⟨not_lt.1 hneg, hmax⟩
    have hiff : ∀ rank, Owned selected rank (slot * opt.topK + k) ↔
        rankOf (selected (slot * opt.topK + k)) = rank :=
      fun rank => ⟨fun hown => hown.2, fun heq => ⟨hexp, heq⟩⟩
    refine ⟨_, (if_neg hneg).trans (if_neg (not_le.2 hmax)), ?_, ?_, ?_⟩
    · intro rank e
      rw [← Nat.add_assoc, expertCount_succ, ← h.counts]
      by_cases hrank : rankOf (selected (slot * opt.topK + k)) = rank
      · subst hrank
        by_cases he : localOf (selected (slot * opt.topK + k)) = e
        · subst he
          simp [hiff]
        · have he' : e ≠ localOf (selected (slot * opt.topK + k)) := fun hc => he hc.symm
          simp [he, Function.update_of_ne he']
      · have hrank' : rank ≠ rankOf (selected (slot * opt.topK + k)) := fun hc => hrank hc.symm
        simp [hiff, hrank, Function.update_of_ne hrank']
    · intro rank
      show Function.update st.seenRank (rankOf (selected (slot * opt.topK + k))) true rank =
        true ↔ _
      by_cases hrank : rankOf (selected (slot * opt.topK + k)) = rank
      · subst hrank
        simp only [Function.update_self, true_iff]
        exact ⟨k, Nat.lt_succ_self k, (hiff _).2 rfl⟩
      · have hrank' : rank ≠ rankOf (selected (slot * opt.topK + k)) := fun hc => hrank hc.symm
        rw [Function.update_of_ne hrank', h.seen]
        constructor
        · rintro ⟨k', hk', hown⟩
          exact ⟨k', Nat.lt_succ_of_lt hk', hown⟩
        · rintro ⟨k', hk', hown⟩
          rcases Nat.lt_succ_iff_lt_or_eq.1 hk' with hlt | rfl
          · exact ⟨k', hlt, hown⟩
          · exact absurd ((hiff rank).1 hown) hrank
    · simp only [Bool.or_eq_true]
      rw [h.duplicate, h.seen, DuplicateIn.succ]
      constructor
      · rintro ((hs | hk) | ⟨k', hk', hown⟩)
        · exact Or.inl hs
        · exact Or.inr (Or.inl hk)
        · exact Or.inr (Or.inr ⟨k', hk', _, hown, (hiff _).2 rfl⟩)
      · rintro (hs | hk | ⟨k₁, hk₁, rank, hown₁, hown⟩)
        · exact Or.inl (Or.inl hs)
        · exact Or.inl (Or.inr hk)
        · rw [← (hiff rank).1 hown] at hown₁
          exact Or.inr ⟨k₁, hk₁, hown₁⟩

/-- The counting loop ends with the counts of all experts and knows about duplicates. -/
theorem countRoutes_ok (hmax : ∀ i < opt.entries, selected i < kGlobalExperts) :
    ∃ st, countRoutes opt selected = .ok st ∧
      (∀ rank e, st.counts rank e = expertCount selected opt.entries rank e) ∧
      (st.compactDuplicate = true ↔ HasDuplicate opt selected) := by
  have hloop : ∃ st, countRoutes opt selected = .ok st ∧
      (∀ rank e, st.counts rank e = expertCount selected (opt.slots * opt.topK) rank e) ∧
      (st.compactDuplicate = true ↔
        ∃ s < opt.slots, DuplicateIn selected opt.topK s opt.topK) := by
    unfold countRoutes
    apply foldlM_range_ok (P := fun slot (st : CountState) =>
      (∀ rank e, st.counts rank e = expertCount selected (slot * opt.topK) rank e) ∧
      (st.compactDuplicate = true ↔ ∃ s < slot, DuplicateIn selected opt.topK s opt.topK))
    · constructor
      · intro rank e
        rw [Nat.zero_mul]
        rfl
      · simp
    · rintro slot hslot st ⟨hcounts, hdup⟩
      have hstart : CountedTo opt selected slot 0 { st with seenRank := fun _ => false } := by
        refine ⟨hcounts, by simp, ?_⟩
        show st.compactDuplicate = true ↔ _
        rw [hdup]
        constructor
        · exact Or.inl
        · rintro (hs | ⟨k₂, hk₂, _⟩)
          · exact hs
          · exact absurd hk₂ (Nat.not_lt_zero k₂)
      obtain ⟨st', hst', hdone⟩ := foldlM_range_ok hstart fun k hk s hs =>
        hs.step (hmax _ (entry_lt hslot hk))
      refine ⟨st', hst', ?_, ?_⟩
      · intro rank e
        rw [hdone.counts, Nat.succ_mul]
      · rw [hdone.duplicate]
        constructor
        · rintro (⟨s, hs, hd⟩ | hd)
          · exact ⟨s, Nat.lt_succ_of_lt hs, hd⟩
          · exact ⟨slot, Nat.lt_succ_self slot, hd⟩
        · rintro ⟨s, hs, hd⟩
          rcases Nat.lt_succ_iff_lt_or_eq.1 hs with hlt | rfl
          · exact Or.inl ⟨s, hlt, hd⟩
          · exact Or.inr hd
  exact hloop

end Counts

section Scan
variable {counts old : ℕ → ℕ}

theorem offsetScan_loop (counts old : ℕ → ℕ) (m : ℕ) :
    ((List.range m).foldl (offsetStep counts) ⟨old, 0⟩).running =
      ∑ l ∈ Finset.range m, counts l ∧
    ∀ e < m, ((List.range m).foldl (offsetStep counts) ⟨old, 0⟩).offsets e =
      ∑ l ∈ Finset.range e, counts l := by
  induction m with
  | zero => exact ⟨rfl, fun e he => absurd he (Nat.not_lt_zero e)⟩
  | succ m ih =>
    obtain ⟨hrun, hoff⟩ := ih
    simp only [List.range_succ, List.foldl_append, List.foldl_cons, List.foldl_nil, offsetStep]
    constructor
    · rw [hrun, Finset.sum_range_succ]
    · intro e he
      rcases Nat.lt_succ_iff_lt_or_eq.1 he with hlt | rfl
      · rw [Function.update_of_ne (Nat.ne_of_lt hlt)]
        exact hoff e hlt
      · rw [Function.update_self]
        exact hrun

theorem offsetScan_running :
    (offsetScan counts old).running = ∑ l ∈ Finset.range kLocalExperts, counts l := by
  have h := (offsetScan_loop counts old kLocalExperts).1
  simp only [offsetScan]
  exact h

theorem offsetScan_offsets {e : ℕ} (he : e ≤ kLocalExperts) :
    (offsetScan counts old).offsets e = ∑ l ∈ Finset.range e, counts l := by
  have h := offsetScan_loop counts old kLocalExperts
  simp only [offsetScan]
  rcases Nat.lt_or_eq_of_le he with hlt | heq
  · rw [Function.update_of_ne (Nat.ne_of_lt hlt)]
    exact h.2 e hlt
  · rw [heq, Function.update_self]
    exact h.1

end Scan

end Ds4.Routing
