import Mathlib.Algebra.Order.Ring.Nat

/-! First and last occurrences of a pattern in a list. Patterns whose head symbol does
not recur inside them are the ones a scanner can resume after any cut. -/
namespace Ds4.Search

variable {α : Type*} [DecidableEq α]

/-- Offset of the first occurrence. -/
def find (pat : List α) : List α → Option ℕ
  | [] => if pat = [] then some 0 else none
  | c :: s => if pat <+: c :: s then some 0 else (find pat s).map (· + 1)

/-- Offset of the last occurrence. -/
def findLast (pat : List α) : List α → Option ℕ
  | [] => if pat = [] then some 0 else none
  | c :: s =>
      match findLast pat s with
      | some i => some (i + 1)
      | none => if pat <+: c :: s then some 0 else none

theorem find_nil (pat : List α) : find pat [] = if pat = [] then some 0 else none := rfl

theorem find_cons (pat : List α) (c : α) (s : List α) :
    find pat (c :: s) = if pat <+: c :: s then some 0 else (find pat s).map (· + 1) := rfl

theorem find_some {pat s : List α} {i : ℕ} (h : find pat s = some i) :
    pat <+: s.drop i ∧ i ≤ s.length := by
  induction s generalizing i with
  | nil =>
    rw [find_nil] at h
    split_ifs at h with hp
    obtain rfl := Option.some.inj h
    simp [hp]
  | cons c s ih =>
    rw [find_cons] at h
    split_ifs at h with hp
    · obtain rfl := Option.some.inj h
      exact ⟨by simpa using hp, by simp⟩
    · obtain ⟨k, hk, rfl⟩ := Option.map_eq_some_iff.mp h
      have := ih hk
      exact ⟨by simpa using this.1, by simpa using this.2⟩

theorem find_first {pat s : List α} {i j : ℕ} (h : find pat s = some i) (hj : j < i) :
    ¬ pat <+: s.drop j := by
  induction s generalizing i j with
  | nil =>
    rw [find_nil] at h
    split_ifs at h with hp
    obtain rfl := Option.some.inj h
    omega
  | cons c s ih =>
    rw [find_cons] at h
    split_ifs at h with hp
    · obtain rfl := Option.some.inj h
      omega
    · obtain ⟨k, hk, rfl⟩ := Option.map_eq_some_iff.mp h
      cases j with
      | zero => simpa using hp
      | succ j => simpa using ih hk (by omega : j < k)

theorem find_eq_none_iff {pat s : List α} :
    find pat s = none ↔ ∀ j ≤ s.length, ¬ pat <+: s.drop j := by
  induction s with
  | nil => by_cases hp : pat = [] <;> simp [find_nil, hp]
  | cons c s ih =>
    by_cases hp : pat <+: c :: s
    · simp only [find_cons, hp, ↓reduceIte, reduceCtorEq, false_iff]
      exact fun h => h 0 (by simp) (by simpa using hp)
    · simp only [find_cons, hp, ↓reduceIte, Option.map_eq_none_iff, ih]
      constructor
      · intro h j hj
        cases j with
        | zero => simpa using hp
        | succ j => simpa using h j (by simpa using hj)
      · intro h j hj
        simpa using h (j + 1) (by simpa using hj)

theorem find_eq_some_iff {pat s : List α} {i : ℕ} :
    find pat s = some i ↔
      (pat <+: s.drop i ∧ i ≤ s.length) ∧ ∀ j < i, ¬ pat <+: s.drop j := by
  refine ⟨fun h => ⟨find_some h, fun j hj => find_first h hj⟩, fun h => ?_⟩
  cases hf : find pat s with
  | none => exact absurd h.1.1 (find_eq_none_iff.mp hf i h.1.2)
  | some k =>
    rcases lt_trichotomy k i with hk | rfl | hk
    · exact absurd (find_some hf).1 (h.2 k hk)
    · rfl
    · exact absurd h.1.1 (find_first hf hk)

theorem find_prefix {pat s : List α} (h : pat <+: s) : find pat s = some 0 :=
  find_eq_some_iff.mpr ⟨⟨by simpa using h, Nat.zero_le _⟩,
    fun _ hj => absurd hj (Nat.not_lt_zero _)⟩

theorem find_none_of_absent {pat s : List α} (h : ¬ pat <:+: s) : find pat s = none := by
  refine find_eq_none_iff.mpr fun j _ hp => h ?_
  exact hp.isInfix.trans (List.drop_suffix j s).isInfix

theorem absent_of_find_none {pat s : List α} (h : find pat s = none) : ¬ pat <:+: s := by
  rintro ⟨x, y, rfl⟩
  refine find_eq_none_iff.mp h x.length (by simp) ?_
  simp

/-- A pattern with a distinguished head: its first symbol occurs nowhere else in it. -/
def HeadUnique : List α → Prop
  | [] => False
  | c :: t => c ∉ t

instance : (pat : List α) → Decidable (HeadUnique pat)
  | [] => inferInstanceAs (Decidable False)
  | c :: t => inferInstanceAs (Decidable (c ∉ t))

omit [DecidableEq α] in
/-- A pattern without the symbol `c` that is matched across a `c` ends before it. -/
theorem prefix_before {c : α} {t x y : List α} (h : c ∉ t) (hp : t <+: x ++ c :: y) :
    t <+: x := by
  induction x generalizing t with
  | nil =>
    cases t with
    | nil => exact List.nil_prefix
    | cons a t =>
      obtain ⟨rfl, _⟩ := List.cons_prefix_cons.mp hp
      simp at h
  | cons b x ih =>
    cases t with
    | nil => exact List.nil_prefix
    | cons a t =>
      obtain ⟨rfl, ht⟩ := List.cons_prefix_cons.mp hp
      exact List.cons_prefix_cons.mpr ⟨rfl, ih (List.not_mem_of_not_mem_cons h) ht⟩

/-- The first occurrence is the written one when the text before it holds none. -/
theorem find_append {pat x y : List α} (hu : HeadUnique pat) (hx : ¬ pat <:+: x) :
    find pat (x ++ (pat ++ y)) = some x.length := by
  refine find_eq_some_iff.mpr ⟨by simp, fun j hj hp => hx ?_⟩
  cases pat with
  | nil => exact hu.elim
  | cons c t =>
    rw [List.drop_append_of_le_length hj.le] at hp
    cases hd : x.drop j with
    | nil => exact absurd (List.drop_eq_nil_iff.mp hd) (by omega)
    | cons a d =>
      simp only [hd, List.cons_append] at hp
      obtain ⟨rfl, ht⟩ := List.cons_prefix_cons.mp hp
      have hin : c :: t <+: x.drop j := by
        rw [hd]
        exact List.cons_prefix_cons.mpr ⟨rfl, prefix_before hu ht⟩
      exact hin.isInfix.trans (List.drop_suffix j x).isInfix

/-- A single symbol is found where it first occurs. -/
theorem find_singleton {c : α} {x y : List α} (h : c ∉ x) :
    find [c] (x ++ c :: y) = some x.length := by
  have hu : HeadUnique [c] := by simp [HeadUnique]
  exact find_append hu fun hi => h (hi.subset (by simp))

end Ds4.Search
