import Ds4.Bytes.Search
import Mathlib.Data.List.Induction

/-! The earliest of several patterns in a text that grows: behind a text without any of them, only
what starts near its end is still to be looked at. -/
namespace Ds4.Search

variable {α : Type*} [DecidableEq α] {pat s t u : List α} {pats : List (List α)} {i j k n : ℕ}

omit [DecidableEq α] in
theorem infix_iff_drop : pat <:+: s ↔ ∃ j, pat <+: s.drop j := by
  constructor
  · rintro ⟨x, y, rfl⟩
    refine ⟨x.length, ?_⟩
    rw [List.append_assoc, List.drop_left]
    exact List.prefix_append pat y
  · rintro ⟨j, hj⟩
    exact hj.isInfix.trans (List.drop_suffix j s).isInfix

theorem find_eq_none : find pat s = none ↔ ¬ pat <:+: s :=
  ⟨absent_of_find_none, find_none_of_absent⟩

theorem findLast_none (h : findLast pat s = none) : ¬ pat <:+: s := by
  induction s with
  | nil =>
    rw [findLast] at h
    split_ifs at h with hnil
    exact fun hin => hnil (List.infix_nil.1 hin)
  | cons c s ih =>
    rw [findLast] at h
    cases hs : findLast pat s with
    | some i =>
      rw [hs] at h
      cases h
    | none =>
      rw [hs] at h
      simp only at h
      split_ifs at h with hpre
      intro hin
      exact (List.infix_cons_iff.1 hin).elim hpre (ih hs)

/-- The last occurrence: none starts behind it. -/
theorem findLast_some (h : findLast pat s = some i) :
    pat <+: s.drop i ∧ ∀ j, i < j → j ≤ s.length → ¬ pat <+: s.drop j := by
  induction s generalizing i with
  | nil =>
    rw [findLast] at h
    split_ifs at h with hnil
    subst hnil
    refine ⟨List.nil_prefix, ?_⟩
    intro j hij hj
    rw [List.length_nil] at hj
    omega
  | cons c s ih =>
    rw [findLast] at h
    cases hs : findLast pat s with
    | some k =>
      rw [hs] at h
      obtain rfl := Option.some.inj h
      obtain ⟨hpre, hlast⟩ := ih hs
      refine ⟨hpre, ?_⟩
      intro j hkj hj
      obtain ⟨j, rfl⟩ : ∃ l, j = l + 1 := ⟨j - 1, by omega⟩
      exact hlast j (by omega) (Nat.le_of_succ_le_succ hj)
    | none =>
      rw [hs] at h
      simp only at h
      split_ifs at h with hpre
      obtain rfl := Option.some.inj h
      refine ⟨hpre, ?_⟩
      intro j hkj hj hin
      obtain ⟨j, rfl⟩ : ∃ l, j = l + 1 := ⟨j - 1, by omega⟩
      exact findLast_none hs (infix_iff_drop.2 ⟨j, hin⟩)

/-- Where nothing starts before `k`, the search may start there. -/
theorem find_drop (hk : k ≤ s.length) (h : ∀ j < k, ¬ pat <+: s.drop j) :
    find pat s = (find pat (s.drop k)).map (· + k) := by
  cases hf : find pat (s.drop k) with
  | none =>
    rw [Option.map_none, find_eq_none, infix_iff_drop]
    rintro ⟨j, hj⟩
    by_cases hjk : j < k
    · exact h j hjk hj
    · apply find_eq_none.1 hf
      rw [infix_iff_drop]
      refine ⟨j - k, ?_⟩
      rwa [List.drop_drop, Nat.add_sub_cancel' (Nat.le_of_not_lt hjk)]
  | some i =>
    obtain ⟨hpre, hle⟩ := find_some hf
    rw [List.drop_drop] at hpre
    rw [List.length_drop] at hle
    rw [Option.map_some, find_eq_some_iff]
    refine ⟨⟨by rwa [Nat.add_comm], by omega⟩, ?_⟩
    intro j hj
    by_cases hjk : j < k
    · exact h j hjk
    · have hno := find_first hf (show j - k < i by omega)
      rwa [List.drop_drop, Nat.add_sub_cancel' (Nat.le_of_not_lt hjk)] at hno

/-- One more pattern in the search for the earliest occurrence. -/
def better (s : List α) (best : Option (ℕ × List α)) (pat : List α) : Option (ℕ × List α) :=
  match find pat s with
  | none => best
  | some p =>
      match best with
      | none => some (p, pat)
      | some b => if p < b.1 then some (p, pat) else some b

/-- The earliest occurrence of any of the patterns; of several there, the first one's. -/
def firstOf (pats : List (List α)) (s : List α) : Option (ℕ × List α) := pats.foldl (better s) none

theorem firstOf_append (pats : List (List α)) (pat s : List α) :
    firstOf (pats ++ [pat]) s = better s (firstOf pats s) pat := by
  unfold firstOf
  rw [List.foldl_append]
  rfl

theorem firstOf_none : firstOf pats s = none ↔ ∀ p ∈ pats, ¬ p <:+: s := by
  induction pats using List.reverseRecOn with
  | nil => simp [firstOf]
  | append_singleton pats pat ih =>
    rw [firstOf_append, better]
    cases hf : find pat s with
    | none =>
      simp only
      rw [ih]
      constructor
      · intro h p hp
        rcases List.mem_append.1 hp with hp | hp
        · exact h p hp
        · rw [List.mem_singleton.1 hp]
          exact find_eq_none.1 hf
      · exact fun h p hp => h p (List.mem_append_left _ hp)
    | some p =>
      have hin : pat <:+: s := infix_iff_drop.2 ⟨p, (find_some hf).1⟩
      constructor
      · intro h
        cases hbest : firstOf pats s with
        | none =>
          rw [hbest] at h
          cases h
        | some b =>
          rw [hbest] at h
          simp only at h
          split_ifs at h
      · intro h
        exact absurd hin (h pat (by simp))

/-- The occurrence `i` of `pat` is the earliest, and no pattern listed before it occurs there. -/
def IsFirst (pats : List (List α)) (s : List α) (i : ℕ) (pat : List α) : Prop :=
  find pat s = some i ∧ ∃ xs ys, pats = xs ++ pat :: ys ∧
    (∀ p ∈ xs, ∀ j, find p s = some j → i < j) ∧ ∀ p ∈ ys, ∀ j, find p s = some j → i ≤ j

theorem firstOf_some (h : firstOf pats s = some (i, pat)) : IsFirst pats s i pat := by
  induction pats using List.reverseRecOn generalizing i pat with
  | nil => cases h
  | append_singleton pats p ih =>
    rw [firstOf_append, better] at h
    cases hf : find p s with
    | none =>
      rw [hf] at h
      obtain ⟨hfind, xs, ys, rfl, hxs, hys⟩ := ih h
      refine ⟨hfind, xs, ys ++ [p], by simp, hxs, ?_⟩
      intro q hq j hj
      rcases List.mem_append.1 hq with hq | hq
      · exact hys q hq j hj
      · rw [List.mem_singleton.1 hq, hf] at hj
        cases hj
    | some k =>
      rw [hf] at h
      cases hbest : firstOf pats s with
      | none =>
        rw [hbest] at h
        obtain ⟨rfl, rfl⟩ := Prod.mk.inj (Option.some.inj h)
        refine ⟨hf, pats, [], rfl, ?_, by simp⟩
        intro q hq j hj
        exact absurd (infix_iff_drop.2 ⟨j, (find_some hj).1⟩) (firstOf_none.1 hbest q hq)
      | some b =>
        rw [hbest] at h
        obtain ⟨hfind, xs, ys, hlist, hxs, hys⟩ := @ih b.2 b.1 hbest
        simp only at h
        split_ifs at h with hlt
        · obtain ⟨rfl, rfl⟩ := Prod.mk.inj (Option.some.inj h)
          refine ⟨hf, pats, [], rfl, ?_, by simp⟩
          intro q hq j hj
          rw [hlist] at hq
          rcases List.mem_append.1 hq with hq | hq
          · exact hlt.trans (hxs q hq j hj)
          · rcases List.mem_cons.1 hq with rfl | hq
            · rw [hfind] at hj
              exact hlt.trans_le (Option.some.inj hj).le
            · exact hlt.trans_le (hys q hq j hj)
        · obtain rfl := Option.some.inj h
          refine ⟨hfind, xs, ys ++ [p], by simp [hlist], hxs, ?_⟩
          intro q hq j hj
          rcases List.mem_append.1 hq with hq | hq
          · exact hys q hq j hj
          · rw [List.mem_singleton.1 hq, hf] at hj
            have hkj := Option.some.inj hj
            omega

theorem IsFirst.least (h : IsFirst pats s i pat) : ∀ p ∈ pats, ∀ j < i, ¬ p <+: s.drop j := by
  obtain ⟨hfind, xs, ys, rfl, hxs, hys⟩ := h
  intro p hp j hj hpre
  cases hf : find p s with
  | none => exact find_eq_none.1 hf (infix_iff_drop.2 ⟨j, hpre⟩)
  | some q =>
    have hqj : q ≤ j := by
      by_contra hlt
      exact find_first hf (by omega) hpre
    rcases List.mem_append.1 hp with hp | hp
    · have hlt := hxs p hp q hf
      omega
    · rcases List.mem_cons.1 hp with rfl | hp
      · rw [hfind] at hf
        have heq := Option.some.inj hf
        omega
      · have hle := hys p hp q hf
        omega

/-- Up to the earliest occurrence there is none. -/
theorem IsFirst.clean (h : IsFirst pats s i pat) : ∀ p ∈ pats, p ≠ [] → ¬ p <:+: s.take i := by
  intro p hp hne hin
  obtain ⟨j, hj⟩ := infix_iff_drop.1 hin
  have hlen := hj.length_le
  have hpos := List.length_pos_iff.2 hne
  rw [List.length_drop, List.length_take] at hlen
  refine h.least p hp j (by omega) (hj.trans ?_)
  rw [List.drop_take]
  exact List.take_prefix _ _

theorem firstOf_drop (hk : k ≤ s.length) (h : ∀ p ∈ pats, ∀ j < k, ¬ p <+: s.drop j) :
    firstOf pats s = (firstOf pats (s.drop k)).map fun r => (r.1 + k, r.2) := by
  induction pats using List.reverseRecOn with
  | nil => rfl
  | append_singleton pats pat ih =>
    rw [firstOf_append, firstOf_append, ih fun p hp => h p (List.mem_append_left _ hp), better,
      better, find_drop hk (h pat (by simp))]
    cases find pat (s.drop k) with
    | none => rfl
    | some p =>
      cases firstOf pats (s.drop k) with
      | none => rfl
      | some b =>
        simp only [Option.map_some, Nat.add_lt_add_iff_right]
        split_ifs <;> rfl

omit [DecidableEq α] in
/-- A pattern of at most `n + 1` symbols that is not in a text starts behind all but its last `n`
symbols in any longer one. -/
theorem not_prefix_before (ht : ¬ pat <:+: t) (hlen : pat.length ≤ n + 1) (hk : k + n ≤ t.length)
    (hj : j < k) : ¬ pat <+: (t ++ u).drop j := by
  intro hpre
  rw [List.drop_append_of_le_length (by omega)] at hpre
  apply ht
  rw [infix_iff_drop]
  refine ⟨j, List.prefix_of_prefix_length_le hpre (List.prefix_append _ _) ?_⟩
  rw [List.length_drop]
  omega

/-- The window: behind a text without any of the patterns it is enough to look at the last `n`
symbols and what came after them. -/
theorem firstOf_window (ht : ∀ p ∈ pats, ¬ p <:+: t) (hlen : ∀ p ∈ pats, p.length ≤ n + 1)
    (hk : k = 0 ∨ k + n ≤ t.length) :
    firstOf pats (t ++ u) = (firstOf pats ((t ++ u).drop k)).map fun r => (r.1 + k, r.2) := by
  apply firstOf_drop
  · rw [List.length_append]
    omega
  · intro p hp j hj
    exact not_prefix_before (ht p hp) (hlen p hp) (by omega) hj

end Ds4.Search
