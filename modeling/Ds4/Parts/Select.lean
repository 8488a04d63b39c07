import Mathlib.Data.List.Sort

/-! Picking the least of a list, again and again: the items come in the order of a stable sort. -/
namespace Ds4.Parts

variable {α K : Type}

/-- A scan for the least item: the best so far with its place, and the place of the next. -/
def scanLeast (before : α → α → Bool) (best : ℕ × α) (i : ℕ) : List α → ℕ × α
  | [] => best
  | x :: xs => scanLeast before (if before x best.2 then (i, x) else best) (i + 1) xs

/-- A list sorted by keys; items of one key keep their order. -/
def sortBy [LinearOrder K] (key : α → K) (l : List α) : List α :=
  l.insertionSort fun a b => key a ≤ key b

variable [LinearOrder K] {key : α → K} {before : α → α → Bool} {a x : α} {l : List α} {i : ℕ}

theorem sortBy_perm (key : α → K) (l : List α) : (sortBy key l).Perm l :=
  List.perm_insertionSort _ l

theorem sortBy_pairwise (key : α → K) (l : List α) :
    (sortBy key l).Pairwise fun a b => key a ≤ key b := by
  have : Std.Total fun a b : α => key a ≤ key b := ⟨fun a b => le_total (key a) (key b)⟩
  have : IsTrans α fun a b => key a ≤ key b := ⟨fun _ _ _ => le_trans⟩
  exact List.pairwise_insertionSort _ l

/-- The scan stays with the item it has where nothing comes before it. -/
theorem scanLeast_keep (hkey : ∀ a b, before a b = true ↔ key a < key b)
    (h : ∀ x ∈ l, key a ≤ key x) (p : ℕ) : scanLeast before (p, a) i l = (p, a) := by
  induction l generalizing i with
  | nil => rfl
  | cons x l ih =>
    have hx : ¬ before x a = true := by
      rw [hkey]
      exact not_lt.2 (h x List.mem_cons_self)
    rw [scanLeast, if_neg hx]
    exact ih fun y hy => h y (List.mem_cons_of_mem x hy)

/-- A scan that finds something better finds what a scan of the rest alone finds. -/
theorem scanLeast_better (hkey : ∀ a b, before a b = true ↔ key a < key b)
    (h : ∃ y ∈ x :: l, key y < key a) (p : ℕ) :
    scanLeast before (p, a) i (x :: l) = scanLeast before (i, x) (i + 1) l := by
  induction l generalizing a x p i with
  | nil =>
    obtain ⟨y, hy, hlt⟩ := h
    obtain rfl := List.mem_singleton.1 hy
    exact congrArg (fun b => scanLeast before b (i + 1) []) (if_pos ((hkey y a).2 hlt))
  | cons z l ih =>
    rw [scanLeast]
    by_cases hx : key x < key a
    · rw [if_pos ((hkey x a).2 hx)]
    · rw [if_neg fun hb => hx ((hkey x a).1 hb)]
      have hrest : ∃ y ∈ z :: l, key y < key a := by
        obtain ⟨y, hy, hlt⟩ := h
        rcases List.mem_cons.1 hy with rfl | hy
        · exact absurd hlt hx
        · exact ⟨y, hy, hlt⟩
      obtain ⟨y, hy, hlt⟩ := hrest
      have hlt' : key y < key x := hlt.trans_le (not_lt.1 hx)
      rw [ih ⟨y, hy, hlt⟩ p, ih ⟨y, hy, hlt'⟩ i]

/-- A scan that starts one place later finds the same item there. -/
theorem scanLeast_shift (before : α → α → Bool) (p : ℕ) (a : α) (i : ℕ) (l : List α) :
    scanLeast before (p + 1, a) (i + 1) l =
      ((scanLeast before (p, a) i l).1 + 1, (scanLeast before (p, a) i l).2) := by
  induction l generalizing p a i with
  | nil => rfl
  | cons x l ih =>
    rw [scanLeast, scanLeast]
    split_ifs
    · exact ih i x (i + 1)
    · exact ih p a (i + 1)

/-- The item that the scan finds, and behind it the others sorted, are the sorted list. -/
theorem sortBy_scan (hkey : ∀ a b, before a b = true ↔ key a < key b) (a : α) (l : List α) :
    sortBy key (a :: l) = (scanLeast before (0, a) 1 l).2 ::
      sortBy key ((a :: l).eraseIdx (scanLeast before (0, a) 1 l).1) := by
  induction l generalizing a with
  | nil => rfl
  | cons x l ih =>
    have hsort : sortBy key (a :: x :: l) =
        (sortBy key (x :: l)).orderedInsert (fun a b => key a ≤ key b) a := rfl
    by_cases hleast : ∀ y ∈ x :: l, key a ≤ key y
    · rw [scanLeast_keep hkey hleast]
      exact List.insertionSort_cons_of_forall_rel _ hleast
    · push Not at hleast
      rw [scanLeast_better hkey hleast, scanLeast_shift, List.eraseIdx_cons_succ, hsort, ih x]
      have hlt : key (scanLeast before (0, x) 1 l).2 < key a := by
        obtain ⟨y, hy, hlt⟩ := hleast
        have hmem : y ∈ sortBy key (x :: l) := (sortBy_perm key _).mem_iff.2 hy
        have hall := sortBy_pairwise key (x :: l)
        rw [ih x] at hmem hall
        rcases List.mem_cons.1 hmem with rfl | hmem
        · exact hlt
        · exact (List.rel_of_pairwise_cons hall hmem).trans_lt hlt
      exact List.orderedInsert_of_not_le _ _ (not_le.2 hlt)

/-- What the scan finds stands at its place. -/
theorem scanLeast_getElem? (before : α → α → Bool) (a : α) (l : List α) :
    (a :: l)[(scanLeast before (0, a) 1 l).1]? = some (scanLeast before (0, a) 1 l).2 := by
  have key : ∀ (done l : List α) (best : ℕ × α), (done ++ l)[best.1]? = some best.2 →
      (done ++ l)[(scanLeast before best done.length l).1]? =
        some (scanLeast before best done.length l).2 := by
    intro done l
    induction l generalizing done with
    | nil => exact fun best h => h
    | cons x l ih =>
      intro best h
      rw [scanLeast]
      have hnext := ih (done ++ [x])
      rw [List.append_assoc, List.singleton_append, List.length_append] at hnext
      apply hnext
      split_ifs
      · exact List.getElem?_append_right (le_refl _) ▸ by simp
      · exact h
  exact key [a] l (0, a) rfl

theorem length_eraseIdx_scan (before : α → α → Bool) (a : α) (l : List α) :
    ((a :: l).eraseIdx (scanLeast before (0, a) 1 l).1).length < (a :: l).length := by
  rw [List.length_eraseIdx_of_lt (List.getElem?_eq_some_iff.1 (scanLeast_getElem? before a l)).1]
  exact Nat.sub_lt (Nat.succ_pos _) Nat.one_pos

end Ds4.Parts
