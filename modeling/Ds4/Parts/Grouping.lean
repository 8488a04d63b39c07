import Mathlib.Algebra.BigOperators.Group.Finset.Basic

/-! Stable grouping of a list by a key. -/
namespace Ds4.Parts

variable {α : Type} {key : α → ℕ} {xs : List α} {n : ℕ}

/-- The items with the keys below `n`, key after key, the items of one key in their order. -/
def grouped (key : α → ℕ) (xs : List α) (n : ℕ) : List α :=
  (List.range n).flatMap fun e => xs.filter fun x => key x = e

/-- How many items have the key. -/
def keyCount (key : α → ℕ) (xs : List α) (e : ℕ) : ℕ := xs.countP fun x => key x = e

theorem grouped_succ : grouped key xs (n + 1) =
    grouped key xs n ++ xs.filter fun x => key x = n := by
  simp [grouped, List.range_succ]

theorem mem_grouped {x : α} : x ∈ grouped key xs n ↔ x ∈ xs ∧ key x < n := by
  simp only [grouped, List.mem_flatMap, List.mem_range, List.mem_filter, decide_eq_true_eq]
  constructor
  · rintro ⟨e, he, hx, rfl⟩
    exact ⟨hx, he⟩
  · rintro ⟨hx, hlt⟩
    exact ⟨key x, hlt, hx, rfl⟩

/-- The groups start where the sums of the counts before them say. -/
theorem grouped_length : (grouped key xs n).length = ∑ e ∈ Finset.range n, keyCount key xs e := by
  induction n with
  | zero => rfl
  | succ n ih =>
    rw [grouped_succ, List.length_append, ih, Finset.sum_range_succ, keyCount,
      List.countP_eq_length_filter]

theorem grouped_prefix {m : ℕ} (h : m ≤ n) :
    ∃ rest, grouped key xs n = grouped key xs m ++ rest := by
  induction n, h using Nat.le_induction with
  | base => exact ⟨[], (List.append_nil _).symm⟩
  | succ n _ ih =>
    obtain ⟨rest, hrest⟩ := ih
    exact ⟨rest ++ xs.filter fun x => key x = n, by rw [grouped_succ, hrest, List.append_assoc]⟩

theorem grouped_ordered (r : α → α → Prop) (hr : xs.Pairwise r) :
    (grouped key xs n).Pairwise fun x y => key x < key y ∨ key x = key y ∧ r x y := by
  induction n with
  | zero => exact List.Pairwise.nil
  | succ n ih =>
    rw [grouped_succ, List.pairwise_append]
    refine ⟨ih, ?_, ?_⟩
    · have hsame : ∀ x ∈ xs.filter (fun x => key x = n), key x = n := by
        intro x hx
        simpa using (List.mem_filter.1 hx).2
      apply (hr.filter _).imp_of_mem
      intro x y hx hy hxy
      exact Or.inr ⟨(hsame x hx).trans (hsame y hy).symm, hxy⟩
    · intro x hx y hy
      have hy' : key y = n := by simpa using (List.mem_filter.1 hy).2
      exact Or.inl (hy' ▸ (mem_grouped.1 hx).2)

theorem grouped_nodup (h : xs.Nodup) : (grouped key xs n).Nodup := by
  apply (grouped_ordered (· ≠ ·) h).imp
  rintro x y (hlt | ⟨-, hne⟩) rfl
  · exact lt_irrefl _ hlt
  · exact hne rfl

/-- The groups rearrange the items with a key below `n`. -/
theorem grouped_perm_filter (h : xs.Nodup) :
    (grouped key xs n).Perm (xs.filter fun x => key x < n) := by
  apply (List.perm_ext_iff_of_nodup (grouped_nodup h) (h.filter _)).2
  intro x
  rw [mem_grouped, List.mem_filter, decide_eq_true_eq]

/-- Nothing is lost when every key is below `n`. -/
theorem grouped_perm (h : xs.Nodup) (hkey : ∀ x ∈ xs, key x < n) : (grouped key xs n).Perm xs := by
  have hall : (xs.filter fun x => key x < n) = xs := by
    apply List.filter_eq_self.2
    intro x hx
    exact decide_eq_true (hkey x hx)
  have hperm : (grouped key xs n).Perm (xs.filter fun x => key x < n) := grouped_perm_filter h
  rw [hall] at hperm
  exact hperm

/-- The groups before a key hold the items with smaller keys. -/
theorem grouped_length_countP (h : xs.Nodup) :
    (grouped key xs n).length = xs.countP fun x => key x < n := by
  rw [List.countP_eq_length_filter]
  exact (grouped_perm_filter h).length_eq

/-- An item stands behind the earlier items that pass. -/
theorem filter_place {p : α → Bool} {ys zs : List α} {x : α} (hx : p x) :
    ((ys ++ x :: zs).filter p)[ys.countP p]? = some x := by
  rw [List.filter_append, List.filter_cons_of_pos hx, List.countP_eq_length_filter,
    List.getElem?_append_right le_rfl]
  simp

/-- An item stands behind all smaller keys and behind the earlier items of its own key. -/
theorem grouped_place {ys zs : List α} {x : α} (hx : key x < n) :
    (grouped key (ys ++ x :: zs) n)[(grouped key (ys ++ x :: zs) (key x)).length +
      keyCount key ys (key x)]? = some x := by
  have hgroup : ((ys ++ x :: zs).filter fun y => key y = key x)[keyCount key ys (key x)]? =
      some x := filter_place (decide_eq_true rfl)
  have hlt : keyCount key ys (key x) <
      ((ys ++ x :: zs).filter fun y => key y = key x).length :=
    (List.getElem?_eq_some_iff.1 hgroup).1
  have hpre : ∃ rest, grouped key (ys ++ x :: zs) n =
      grouped key (ys ++ x :: zs) (key x + 1) ++ rest := grouped_prefix hx
  obtain ⟨rest, hrest⟩ := hpre
  rw [hrest, grouped_succ, List.append_assoc, List.getElem?_append_right (Nat.le_add_right _ _),
    Nat.add_sub_cancel_left, List.getElem?_append_left hlt]
  exact hgroup

end Ds4.Parts
