import Mathlib.Algebra.Order.Ring.Nat

/-! Cutting a list into parts: one part behind another, or the matches of a search and the
gaps between them. -/
namespace Ds4.Parts

variable {α : Type}

/-- A list cut into parts of the given lengths, for at most `n` parts. -/
def cutLoop (len : List α → ℕ) : ℕ → List α → List (List α)
  | 0, _ => []
  | _ + 1, [] => []
  | n + 1, c :: s => (c :: s).take (len (c :: s)) :: cutLoop len n ((c :: s).drop (len (c :: s)))

def cut (len : List α → ℕ) (s : List α) : List (List α) := cutLoop len s.length s

section Cut
variable {len : List α → ℕ} (hpos : ∀ c s, 0 < len (c :: s))
include hpos

/-- More rounds than symbols change nothing. -/
theorem cutLoop_fuel (n : ℕ) : ∀ (m : ℕ) (s : List α), s.length ≤ n → s.length ≤ m →
    cutLoop len n s = cutLoop len m s := by
  induction n with
  | zero =>
    intro m s hn _
    rw [List.length_eq_zero_iff.1 (Nat.le_zero.1 hn)]
    cases m <;> rfl
  | succ n ih =>
    intro m s hn hm
    cases s with
    | nil => cases m <;> rfl
    | cons c s =>
      cases m with
      | zero => simp at hm
      | succ m =>
        have hp := hpos c s
        rw [cutLoop, cutLoop, ih m]
        · rw [List.length_drop]
          omega
        · rw [List.length_drop]
          omega

theorem cut_cons (c : α) (s : List α) :
    cut len (c :: s) = (c :: s).take (len (c :: s)) :: cut len ((c :: s).drop (len (c :: s))) := by
  have hp := hpos c s
  have hl := List.length_drop (i := len (c :: s)) (l := c :: s)
  have hc : (c :: s).length = s.length + 1 := List.length_cons
  rw [cut, hc, cutLoop, cutLoop_fuel hpos, cut]
  · omega
  · exact le_rfl

/-- A first part of the length that is cut off. -/
theorem cut_append {s rest : List α} (hs : s ≠ []) (hlen : len (s ++ rest) = s.length) :
    cut len (s ++ rest) = s :: cut len rest := by
  obtain ⟨c, t, rfl⟩ := List.exists_cons_of_ne_nil hs
  rw [List.cons_append] at hlen ⊢
  rw [cut_cons hpos, hlen, ← List.cons_append, List.take_left, List.drop_left]

/-- The parts make up the list, in order and without gaps. -/
theorem cut_flatten (n : ℕ) : ∀ s : List α, s.length ≤ n → (cut len s).flatten = s := by
  induction n with
  | zero =>
    intro s hn
    rw [List.length_eq_zero_iff.1 (Nat.le_zero.1 hn)]
    rfl
  | succ n ih =>
    intro s hn
    cases s with
    | nil => rfl
    | cons c s =>
      have hp := hpos c s
      rw [cut_cons hpos, List.flatten_cons, ih, List.take_append_drop]
      rw [List.length_drop, List.length_cons]
      rw [List.length_cons] at hn
      omega

end Cut

/-- The gap before a match, unless it is empty. -/
def gapPart (gap : List α) : List (List α) := if gap = [] then [] else [gap]

/-- The matches of a search through a list and the gaps between them, for at most `n` steps;
a length of 0 is no match at this place. -/
def splitLoop (len : List α → ℕ) : ℕ → List α → List α → List (List α)
  | 0, gap, _ => gapPart gap
  | _ + 1, gap, [] => gapPart gap
  | n + 1, gap, c :: s =>
      if len (c :: s) = 0 then splitLoop len n (gap ++ [c]) s
      else gapPart gap ++
        (c :: s).take (len (c :: s)) :: splitLoop len n [] ((c :: s).drop (len (c :: s)))

def split (len : List α → ℕ) (s : List α) : List (List α) := splitLoop len s.length [] s

section Split
variable {len : List α → ℕ}

theorem splitLoop_fuel (n : ℕ) : ∀ (m : ℕ) (gap s : List α), s.length ≤ n → s.length ≤ m →
    splitLoop len n gap s = splitLoop len m gap s := by
  induction n with
  | zero =>
    intro m gap s hn _
    rw [List.length_eq_zero_iff.1 (Nat.le_zero.1 hn)]
    cases m <;> rfl
  | succ n ih =>
    intro m gap s hn hm
    cases s with
    | nil => cases m <;> rfl
    | cons c s =>
      cases m with
      | zero => simp at hm
      | succ m =>
        rw [List.length_cons] at hn hm
        simp only [splitLoop]
        by_cases hl : len (c :: s) = 0
        · rw [if_pos hl, if_pos hl]
          exact ih m _ s (by omega) (by omega)
        · rw [if_neg hl, if_neg hl]
          have hlen : ((c :: s).drop (len (c :: s))).length ≤ s.length := by
            rw [List.length_drop, List.length_cons]
            omega
          rw [ih m [] _ (by omega) (by omega)]

@[simp] theorem split_nil : split len [] = [] := rfl

/-- A match at the head of the list. -/
theorem split_match {c : α} {s : List α} (hl : len (c :: s) ≠ 0) :
    split len (c :: s) =
      (c :: s).take (len (c :: s)) :: split len ((c :: s).drop (len (c :: s))) := by
  have hlen : ((c :: s).drop (len (c :: s))).length ≤ s.length := by
    rw [List.length_drop, List.length_cons]
    omega
  rw [split, List.length_cons, splitLoop, if_neg hl, split,
    splitLoop_fuel s.length _ [] _ hlen le_rfl]
  rfl

/-- The loop behind a gap that no match ends: the gap grows up to the rest. -/
theorem splitLoop_gap {rest : List α} (hrest : ∀ c s, rest = c :: s → len rest ≠ 0)
    (g : List α) : ∀ gap : List α, gap ++ g ≠ [] →
    (∀ c s, (c :: s) <:+ g → len (c :: s ++ rest) = 0) →
    splitLoop len (g ++ rest).length gap (g ++ rest) = (gap ++ g) :: split len rest := by
  induction g with
  | nil =>
    intro gap hne _
    rw [List.append_nil] at hne ⊢
    rw [List.nil_append]
    cases rest with
    | nil => simp [splitLoop, gapPart, hne]
    | cons c s =>
      have hl := hrest c s rfl
      rw [split, List.length_cons, splitLoop, splitLoop, if_neg hl, if_neg hl, gapPart, if_neg hne]
      rfl
  | cons c g ih =>
    intro gap hne hg
    have hl : len (c :: g ++ rest) = 0 := hg c g List.suffix_rfl
    rw [List.cons_append] at hl ⊢
    rw [List.length_cons, splitLoop, if_pos hl, ih (gap ++ [c]) (by simp)]
    · rw [List.append_assoc]
      rfl
    · intro d t ht
      exact hg d t (ht.trans (List.suffix_cons c g))

/-- A gap at the head of the list. -/
theorem split_gap {g rest : List α} (hne : g ≠ [])
    (hg : ∀ c s, (c :: s) <:+ g → len (c :: s ++ rest) = 0)
    (hrest : ∀ c s, rest = c :: s → len rest ≠ 0) :
    split len (g ++ rest) = g :: split len rest :=
  splitLoop_gap hrest g [] hne hg

/-- A list without any match is one gap. -/
theorem split_none {g : List α} (hne : g ≠ [])
    (hg : ∀ c s, (c :: s) <:+ g → len (c :: s) = 0) : split len g = [g] := by
  have h : split len (g ++ []) = g :: split len [] :=
    split_gap hne (by simpa using hg) (by simp)
  rwa [List.append_nil] at h

end Split

end Ds4.Parts
