import Ds4.Routing.Select
import Mathlib.Algebra.BigOperators.Group.Finset.Basic
import Mathlib.Data.Int.ConditionallyCompleteOrder
import Mathlib.Data.Nat.Cast.Order.Basic

/-! The router's rows are the choice they are meant to be, on both kernels. -/
namespace Ds4.Routing

open Parts

section Row
variable {F : Type} [Field F] [LinearOrder F] {act : F → F} {inp : RouterInputs F} {slot : ℕ}

/-- The cells of the three arrays, side by side. -/
def TopExperts.entries (st : TopExperts F) (k : ℕ) : Entry F :=
  (st.best k, st.bestScore k, st.bestProb k)

/-- The entry of an expert goes in front of a lower score. -/
def goesBefore (x y : Entry F) : Bool := y.2.1 < x.2.1

theorem topStep_entries (st : TopExperts F) (e : ℕ) :
    (topStep act inp slot st e).entries =
      match placeFirst kModelTopK fun k => goesBefore (entryOf act inp slot e) (st.entries k) with
      | none => st.entries
      | some k => place kModelTopK st.entries k (entryOf act inp slot e) := by
  have hsame : (fun k => goesBefore (entryOf act inp slot e) (st.entries k)) =
      fun k => decide (st.bestScore k < (biased act inp slot e : F)) := rfl
  have hstep : topStep act inp slot st e =
      match placeFirst kModelTopK fun k =>
        decide (st.bestScore k < (biased act inp slot e : F)) with
      | none => st
      | some k =>
          ⟨place kModelTopK st.best k e,
            place kModelTopK st.bestScore k (biased act inp slot e : F),
          place kModelTopK st.bestProb k (unbiased act inp slot e)⟩ := rfl
  rw [hsame, hstep]
  cases placeFirst kModelTopK fun k => decide (st.bestScore k < (biased act inp slot e : F)) with
  | none => rfl
  | some k =>
    have hinner := place_pair kModelTopK k st.bestScore st.bestProb (biased act inp slot e : F)
      (unbiased act inp slot e)
    have houter :=
      place_pair kModelTopK k st.best (fun j => (st.bestScore j, st.bestProb j)) (e : ℤ)
      ((biased act inp slot e : F), unbiased act inp slot e)
    rw [← hinner] at houter
    exact houter

/-- The three arrays stay aligned through the whole loop. -/
theorem foldl_entries (es : List ℕ) (st : TopExperts F) :
    (es.foldl (topStep act inp slot) st).entries =
      insertAll kModelTopK goesBefore st.entries (es.map (entryOf act inp slot)) := by
  induction es generalizing st with
  | nil => rfl
  | cons e es ih =>
    rw [List.foldl_cons, ih, topStep_entries]
    rfl

/-- The experts in the order of the loop. -/
def allEntries (act : F → F) (inp : RouterInputs F) (slot : ℕ) : List (Entry F) :=
  (List.range kGlobalExperts).map (entryOf act inp slot)

omit [LinearOrder F] in
theorem entryOf_injective : Function.Injective (entryOf act inp slot) :=
  fun _ _ h => Int.ofNat.inj (congrArg Prod.fst h)

omit [LinearOrder F] in
theorem mem_allEntries {x : Entry F} :
    x ∈ allEntries act inp slot ↔ ∃ e < kGlobalExperts, entryOf act inp slot e = x := by
  simp only [allEntries, List.mem_map, List.mem_range]

variable (act inp slot) in
/-- After the loop the arrays hold the first six of all experts. -/
theorem top_holdsFirst :
    HoldsFirst (Ahead (fun x : Entry F => x.2.1) Prod.fst) kModelTopK (-1, ⊥, 0)
    (allEntries act inp slot)
    ((List.range kGlobalExperts).foldl (topStep act inp slot) TopExperts.init).entries := by
  rw [foldl_entries]
  refine insertAll_holdsFirst ?_ ?_ (List.nodup_range.map entryOf_injective)
  · intro x hx
    obtain ⟨e, -, rfl⟩ := mem_allEntries.1 hx
    exact decide_eq_true (WithBot.bot_lt_coe _)
  · refine List.Pairwise.map _ (fun e e' h => ?_) List.pairwise_lt_range
    have hlater : (entryOf act inp slot e).1 < (entryOf act inp slot e').1 := Nat.cast_lt.2 h
    rw [ahead_later (fun x : Entry F => x.2.1) Prod.fst hlater]
    exact decide_eq_true_iff

omit [LinearOrder F] in
theorem min_topEntries : min kModelTopK (allEntries act inp slot).length = kModelTopK := by
  rw [allEntries, List.length_map, List.length_range]
  decide

theorem precedes_of_ahead {e e' : ℕ} (hne : e ≠ e')
    (h : Ahead (fun x : Entry F => x.2.1) Prod.fst (entryOf act inp slot e)
      (entryOf act inp slot e')) : Precedes act inp slot e e' := by
  have hstrict := h.strict _ _ fun hsame => hne (Int.ofNat.inj hsame)
  simp only [entryOf, WithBot.coe_lt_coe, WithBot.coe_inj, Nat.cast_lt] at hstrict
  exact hstrict

omit [LinearOrder F] in
theorem foldl_add_range (w : ℕ → F) (n : ℕ) :
    (List.range n).foldl (fun sum k => sum + w k) 0 = ∑ k ∈ Finset.range n, w k := by
  induction n with
  | zero => rfl
  | succ n ih =>
    rw [List.range_succ, List.foldl_append, ih, Finset.sum_range_succ]
    rfl

theorem routeWeights_eq (w : ℕ → F) (k : ℕ) :
    routeWeights w k = w k / max (∑ j ∈ Finset.range kModelTopK, w j) minSum * routeScale := by
  simp only [routeWeights, foldl_add_range]
  split_ifs with h
  · rw [max_eq_right h.le]
  · rw [max_eq_left (not_lt.1 h)]

theorem routeWeights_congr {w w' : ℕ → F} (h : ∀ k < kModelTopK, w k = w' k) {k : ℕ}
    (hk : k < kModelTopK) : routeWeights w k = routeWeights w' k := by
  have hsum : ∑ j ∈ Finset.range kModelTopK, w j = ∑ j ∈ Finset.range kModelTopK, w' j :=
    Finset.sum_congr rfl fun j hj => h j (Finset.mem_range.1 hj)
  rw [routeWeights_eq, routeWeights_eq, h k hk, hsum]

variable (act inp slot) in
/-- The loop's row is the choice. -/
theorem topRow_choice : ∃ chosen, IsChoice act inp slot (topRow act inp slot) chosen := by
  have hfirst := top_holdsFirst act inp slot
  have hrow : topRow act inp slot =
      ⟨((List.range kGlobalExperts).foldl (topStep act inp slot) TopExperts.init).best,
        routeWeights ((List.range kGlobalExperts).foldl (topStep act inp slot)
          TopExperts.init).bestProb⟩ := rfl
  rw [hrow]
  revert hfirst
  generalize (List.range kGlobalExperts).foldl (topStep act inp slot) TopExperts.init = st
  rintro ⟨hmem, hcells, hsorted, hahead, -⟩
  rw [min_topEntries] at hmem hcells hsorted hahead
  have hchoose : ∀ k, ∃ e, k < kModelTopK → e < kGlobalExperts ∧
      st.entries k = entryOf act inp slot e := by
    intro k
    by_cases hk : k < kModelTopK
    · obtain ⟨e, he, heq⟩ := mem_allEntries.1 (hmem k hk)
      exact ⟨e, fun _ => ⟨he, heq.symm⟩⟩
    · exact ⟨0, fun h => absurd h hk⟩
  choose chosen hchosen using hchoose
  have hdistinct : ∀ j < kModelTopK, ∀ k < kModelTopK, chosen j = chosen k → j = k := by
    intro j hj k hk hsame
    apply hcells j hj k hk
    rw [(hchosen j hj).2, (hchosen k hk).2, hsame]
  have hprob : ∀ k < kModelTopK, st.bestProb k = unbiased act inp slot (chosen k) :=
    fun k hk => congrArg (fun x => x.2.2) (hchosen k hk).2
  exact ⟨chosen, {
    expert := fun k hk => (hchosen k hk).1
    selected := fun k hk => congrArg Prod.fst (hchosen k hk).2
    distinct := hdistinct
    sorted := by
      intro j k hjk hk
      have h := hsorted j k hjk hk
      rw [(hchosen j (hjk.trans hk)).2, (hchosen k hk).2] at h
      exact precedes_of_ahead (fun hsame => hjk.ne (hdistinct j (hjk.trans hk) k hk hsame)) h
    ahead := by
      intro e he hnone k hk
      have hout : ∀ j < kModelTopK, st.entries j ≠ entryOf act inp slot e := by
        intro j hj hsame
        rw [(hchosen j hj).2] at hsame
        exact hnone j hj (entryOf_injective hsame)
      have h := hahead _ (mem_allEntries.2 ⟨e, he, rfl⟩) hout k hk
      rw [(hchosen k hk).2] at h
      exact precedes_of_ahead (hnone k hk) h
    weights := fun k hk => (routeWeights_congr hprob hk).trans (routeWeights_eq _ k) }⟩

/-- The fast kernel and the general one's hash branch write the same row. -/
theorem hashFastRow_eq {hash : ℕ → ℤ} {tokens : ℕ → ℕ} (hhash : inp.hash = some hash)
    (htokens : inp.tokens = some tokens) (hrows : 0 < inp.hashRows) :
    routerSelectHashFastRow act inp hash tokens slot = routerSelectTopkRow act inp slot := by
  unfold routerSelectHashFastRow routerSelectTopkRow hashBranchRow
  by_cases hidle : inp.isInactive slot = true
  · rw [if_pos hidle, if_pos hidle]
  · rw [if_neg hidle, if_neg hidle, hhash, htokens]
    exact (if_pos hrows).symm

end Row

section Memory
variable {F : Type} {slots slot k : ℕ} {mem : (ℕ → ℤ) × (ℕ → F)} {row : ℕ → RouterRow F}

/-- The cells that a launch leaves for one slot. -/
def rowAt (mem : (ℕ → ℤ) × (ℕ → F)) (slot : ℕ) : RouterRow F :=
  ⟨fun k => mem.1 (slot * kModelTopK + k), fun k => mem.2 (slot * kModelTopK + k)⟩

theorem selectRows_selected (sched : Schedule) (row : ℕ → RouterRow F)
    (mem : (ℕ → ℤ) × (ℕ → F)) (hslot : slot < slots) (hk : k < kModelTopK) :
    (rowAt (selectRows sched row slots mem) slot).selected k = (row slot).selected k :=
  launch_row sched hslot hk

theorem selectRows_weights (sched : Schedule) (row : ℕ → RouterRow F)
    (mem : (ℕ → ℤ) × (ℕ → F)) (hslot : slot < slots) (hk : k < kModelTopK) :
    (rowAt (selectRows sched row slots mem) slot).weights k = (row slot).weights k :=
  launch_row sched hslot hk

/-- The order of the blocks does not show in the outputs. -/
theorem selectRows_order (sched sched' : Schedule) :
    selectRows sched row slots mem = selectRows sched' row slots mem := by
  have hsel := (rowStores_settle kModelTopK slots fun slot => (row slot).selected).raceFree
  have hw := (rowStores_settle kModelTopK slots fun slot => (row slot).weights).raceFree
  exact Prod.ext ((launch_eq sched hsel).trans (launch_eq sched' hsel).symm)
    ((launch_eq sched hw).trans (launch_eq sched' hw).symm)

end Memory

section Rows
variable {F : Type} [Field F] [LinearOrder F] (act : F → F) (inp : RouterInputs F)

/-- The general kernel chooses by score when one of these is missing. -/
def RouterInputs.ByScore : Prop := inp.hash = none ∨ inp.tokens = none ∨ inp.hashRows = 0

/-- What the two kernels are to leave in the outputs. -/
structure RouterSound (sched : Schedule) (mem : (ℕ → ℤ) × (ℕ → F)) : Prop where
  chosen : ∀ slot < inp.slots, inp.isInactive slot = false → inp.ByScore → ∃ chosen,
    IsChoice act inp slot (rowAt (routerSelectTopkRows act inp sched mem) slot) chosen
  inactive : ∀ slot < inp.slots, inp.isInactive slot = true → ∀ k < kModelTopK,
    (rowAt (routerSelectTopkRows act inp sched mem) slot).selected k = -1 ∧
      (rowAt (routerSelectTopkRows act inp sched mem) slot).weights k = 0
  hashFast : ∀ hash tokens, inp.hash = some hash → inp.tokens = some tokens → 0 < inp.hashRows →
    ∀ sched' : Schedule,
      routerSelectHashFastRows act inp sched' hash tokens mem =
        routerSelectTopkRows act inp sched mem

variable {act inp}

theorem IsChoice.congr {slot : ℕ} {row row' : RouterRow F} {chosen : ℕ → ℕ}
    (h : IsChoice act inp slot row chosen)
    (hsel : ∀ k < kModelTopK, row'.selected k = row.selected k)
    (hw : ∀ k < kModelTopK, row'.weights k = row.weights k) :
    IsChoice act inp slot row' chosen where
  expert := h.expert
  selected k hk := (hsel k hk).trans (h.selected k hk)
  distinct := h.distinct
  sorted := h.sorted
  ahead := h.ahead
  weights k hk := (hw k hk).trans (h.weights k hk)

theorem topkRow_byScore (h : inp.ByScore) {slot : ℕ} (hactive : inp.isInactive slot = false) :
    routerSelectTopkRow act inp slot = topRow act inp slot := by
  unfold routerSelectTopkRow
  rw [if_neg (by rw [hactive]; exact Bool.false_ne_true)]
  rcases h with hnone | hnone | hnone
  · rw [hnone]
  · rw [hnone]
    cases inp.hash <;> rfl
  · rw [hnone]
    cases inp.hash <;> cases inp.tokens <;> rfl

variable (act inp) in
/-- The router selects as it is meant to, in whatever order the blocks of a launch run. -/
theorem router_sound (sched : Schedule) (mem : (ℕ → ℤ) × (ℕ → F)) :
    RouterSound act inp sched mem where
  chosen slot hslot hactive hscore := by
    obtain ⟨chosen, hchoice⟩ := topRow_choice act inp slot
    rw [← topkRow_byScore hscore hactive] at hchoice
    exact ⟨chosen, hchoice.congr (fun k hk => selectRows_selected sched _ mem hslot hk)
      fun k hk => selectRows_weights sched _ mem hslot hk⟩
  inactive slot hslot hidle k hk := by
    have hrow : routerSelectTopkRow act inp slot = inactiveRow := if_pos hidle
    have hsel := selectRows_selected sched (routerSelectTopkRow act inp) mem hslot hk
    have hw := selectRows_weights sched (routerSelectTopkRow act inp) mem hslot hk
    rw [hrow] at hsel hw
    exact ⟨hsel, hw⟩
  hashFast hash tokens hhash htokens hrows sched' := by
    have hrow : routerSelectHashFastRow act inp hash tokens = routerSelectTopkRow act inp :=
      funext fun slot => hashFastRow_eq hhash htokens hrows
    unfold routerSelectHashFastRows routerSelectTopkRows
    rw [hrow]
    exact selectRows_order sched' sched

end Rows

end Ds4.Routing
