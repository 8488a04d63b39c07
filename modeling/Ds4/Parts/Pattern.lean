import Ds4.Parts.Cut
import Mathlib.Data.List.TakeWhile

/-! Search patterns with the results of a backtracking matcher: alternatives are tried in
order, repetitions take as much as they can. -/
namespace Ds4.Parts

variable {α : Type}

/-- Patterns over symbols; what is repeated is a class of symbols. -/
inductive Pattern (α : Type) where
  | one (p : α → Bool)
  | many (p : α → Bool)
  | upTo (n : ℕ) (p : α → Bool)
  | opt (p : α → Bool)
  | seq (r t : Pattern α)
  | alt (r t : Pattern α)
  | notAhead (p : α → Bool)

def manyRests (p : α → Bool) : List α → List (List α)
  | [] => [[]]
  | c :: s => if p c then manyRests p s ++ [c :: s] else [c :: s]

def upToRests (p : α → Bool) : ℕ → List α → List (List α)
  | _, [] => [[]]
  | 0, c :: s => [c :: s]
  | n + 1, c :: s => if p c then upToRests p n s ++ [c :: s] else [c :: s]

def oneRests (p : α → Bool) : List α → List (List α)
  | [] => []
  | c :: s => if p c then [s] else []

def aheadRests (p : α → Bool) : List α → List (List α)
  | [] => [[]]
  | c :: s => if p c then [] else [c :: s]

namespace Pattern

/-- What is left behind each way to match, in the order in which they are tried. -/
def rests : Pattern α → List α → List (List α)
  | one p, s => oneRests p s
  | many p, s => manyRests p s
  | upTo n p, s => upToRests p n s
  | opt p, s => oneRests p s ++ [s]
  | seq r t, s => (rests r s).flatMap (rests t)
  | alt r t, s => rests r s ++ rests t s
  | notAhead p, s => aheadRests p s

def plus (p : α → Bool) : Pattern α := seq (one p) (many p)

/-- What is left behind the match. -/
def first (r : Pattern α) (s : List α) : Option (List α) := (r.rests s).head?

/-- The length of the match at the head of the list, 0 without one. -/
def matchLength (r : Pattern α) (s : List α) : ℕ :=
  match r.first s with
  | some rest => s.length - rest.length
  | none => 0

end Pattern

section Length
open Pattern

theorem matchLength_none {r : Pattern α} {s : List α} (h : r.first s = none) :
    r.matchLength s = 0 := by
  rw [matchLength, h]

theorem matchLength_some {r : Pattern α} {s rest : List α} (h : r.first s = some rest) :
    r.matchLength s = s.length - rest.length := by
  rw [matchLength, h]

/-- The length of what a class takes from the head of a list. -/
def runLen (p : α → Bool) (s : List α) : ℕ := (s.takeWhile p).length

theorem length_dropWhile (p : α → Bool) (s : List α) :
    (s.dropWhile p).length = s.length - runLen p s := by
  have h := congrArg List.length (List.takeWhile_append_dropWhile (p := p) (l := s))
  rw [List.length_append] at h
  rw [runLen]
  omega

theorem runLen_le (p : α → Bool) (s : List α) : runLen p s ≤ s.length :=
  (List.takeWhile_prefix p).length_le

theorem dropWhile_eq_drop (p : α → Bool) (s : List α) : s.dropWhile p = s.drop (runLen p s) := by
  have h := congrArg (List.drop (runLen p s)) (List.takeWhile_append_dropWhile (p := p) (l := s))
  rwa [runLen, List.drop_left] at h

theorem takeWhile_eq_take (p : α → Bool) (s : List α) : s.takeWhile p = s.take (runLen p s) := by
  have h := congrArg (List.take (runLen p s)) (List.takeWhile_append_dropWhile (p := p) (l := s))
  rwa [runLen, List.take_left] at h

end Length

section First
variable {p q : α → Bool} {r t : Pattern α}
open Pattern

/-- The list starts with a symbol of the class. -/
def headIs (p : α → Bool) : List α → Bool
  | [] => false
  | c :: _ => p c

@[simp] theorem headIs_cons (p : α → Bool) (c : α) (s : List α) : headIs p (c :: s) = p c := rfl

theorem head?_manyRests (p : α → Bool) (s : List α) :
    (manyRests p s).head? = some (s.dropWhile p) := by
  induction s with
  | nil => rfl
  | cons c s ih =>
    simp only [manyRests, List.dropWhile_cons]
    by_cases hc : p c = true
    · rw [if_pos hc, if_pos hc, List.head?_append, ih]
      rfl
    · rw [if_neg hc, if_neg hc]
      rfl

@[simp] theorem first_alt (r t : Pattern α) (s : List α) :
    (alt r t).first s = ((r.first s).or (t.first s)) := by
  simp only [first, rests, List.head?_append]

@[simp] theorem first_many (p : α → Bool) (s : List α) :
    (many p).first s = some (s.dropWhile p) := head?_manyRests p s

/-- A class first, then the rest of the pattern. -/
@[simp] theorem first_seq_one (p : α → Bool) (t : Pattern α) (c : α) (s : List α) :
    (seq (one p) t).first (c :: s) = if p c then t.first s else none := by
  simp only [first, rests, oneRests]
  split <;> simp

/-- With the class if the pattern then matches, otherwise without it. -/
@[simp] theorem first_seq_opt (p : α → Bool) (t : Pattern α) (c : α) (s : List α) :
    (seq (opt p) t).first (c :: s) =
      ((if p c then t.first s else none).or (t.first (c :: s))) := by
  simp only [first, rests, oneRests]
  split <;> simp

@[simp] theorem first_plus (p : α → Bool) (s : List α) :
    (plus p).first s = if headIs p s then some (s.dropWhile p) else none := by
  cases s with
  | nil => rfl
  | cons c s =>
    rw [plus, first_seq_one, first_many, headIs, List.dropWhile_cons]
    by_cases hc : p c = true
    · simp only [if_pos hc]
    · simp only [if_neg hc]

/-- A run with more behind it that always matches takes the whole run. -/
@[simp] theorem first_seq_plus_many (p q : α → Bool) (s : List α) :
    (seq (plus p) (many q)).first s =
      if headIs p s then some ((s.dropWhile p).dropWhile q) else none := by
  cases s with
  | nil => rfl
  | cons c s =>
    simp only [first, rests, plus, oneRests, headIs, List.dropWhile_cons]
    by_cases hc : p c = true
    · simp only [if_pos hc, List.flatMap_cons, List.flatMap_nil, List.append_nil]
      have h := head?_manyRests p s
      cases hm : manyRests p s with
      | nil =>
        rw [hm] at h
        cases h
      | cons u us =>
        rw [hm, List.head?_cons] at h
        rw [List.flatMap_cons, List.head?_append, head?_manyRests, Option.some.inj h]
        rfl
    · simp [hc]

/-- The end of the last symbol of `q` in the run of `p` at the head, 0 without one. -/
def lastEnd (p q : α → Bool) : List α → ℕ
  | [] => 0
  | c :: s =>
      if p c then
        if lastEnd p q s ≠ 0 then lastEnd p q s + 1 else if q c then 1 else 0
      else 0

/-- Without an end in its run, a list does not start with the symbol. -/
theorem headIs_of_lastEnd (hqp : ∀ c, q c → p c) {s : List α} (h : lastEnd p q s = 0) :
    headIs q s = false := by
  cases s with
  | nil => rfl
  | cons c s =>
    by_contra hq
    have hc : q c = true := by simpa [headIs] using hq
    rw [lastEnd, if_pos (hqp c hc), if_pos hc] at h
    split at h <;> omega

/-- A run of `p` gives back just what the `q` behind it needs: it ends in the last `q`. -/
theorem first_many_plus (hqp : ∀ c, q c → p c) (s : List α) :
    (seq (many p) (plus q)).first s =
      if lastEnd p q s ≠ 0 then some (s.drop (lastEnd p q s)) else none := by
  induction s with
  | nil => rfl
  | cons c s ih =>
    simp only [first, rests] at ih ⊢
    have hone : (seq (one q) (many q)).rests (c :: s) = if q c then manyRests q s else [] := by
      simp only [rests, oneRests]
      split <;> simp
    by_cases hp : p c = true
    · rw [manyRests, if_pos hp, List.flatMap_append, List.head?_append, ih, lastEnd, if_pos hp]
      by_cases hl : lastEnd p q s ≠ 0
      · simp only [if_pos hl]
        rw [if_pos (Nat.succ_ne_zero _), List.drop_succ_cons]
        rfl
      · have hhead := headIs_of_lastEnd hqp (not_not.1 hl)
        rw [if_neg hl, if_neg hl, List.flatMap_cons, List.flatMap_nil, List.append_nil, plus, hone]
        by_cases hq : q c = true
        · rw [if_pos hq, if_pos hq, head?_manyRests]
          cases s with
          | nil => rfl
          | cons d s =>
            have hd : ¬q d = true := by simpa [headIs] using hhead
            rw [List.dropWhile_cons, if_neg hd]
            rfl
        · rw [if_neg hq, if_neg hq]
          rfl
    · have hq : ¬q c = true := fun h => hp (hqp c h)
      rw [manyRests, if_neg hp, List.flatMap_cons, List.flatMap_nil, List.append_nil, plus, hone,
        if_neg hq, lastEnd, if_neg hp]
      rfl

theorem runLen_cons (p : α → Bool) (c : α) (s : List α) :
    runLen p (c :: s) = if p c then runLen p s + 1 else 0 := by
  rw [runLen, List.takeWhile_cons]
  split <;> rfl

theorem lastEnd_le (p q : α → Bool) (s : List α) : lastEnd p q s ≤ runLen p s := by
  induction s with
  | nil => rfl
  | cons c s ih =>
    rw [lastEnd, runLen_cons]
    by_cases hp : p c = true
    · rw [if_pos hp, if_pos hp]
      split_ifs <;> omega
    · rw [if_neg hp, if_neg hp]

/-- A run of `p` that may be empty and must not end before a symbol outside `p`: it gives back
one symbol, or none at the end of the list. -/
theorem first_many_notAhead (p : α → Bool) (s : List α) :
    (seq (many p) (notAhead fun c => !p c)).first s =
      if runLen p s = s.length then some []
      else if 0 < runLen p s then some (s.drop (runLen p s - 1)) else none := by
  induction s with
  | nil => rfl
  | cons c s ih =>
    simp only [first, rests] at ih ⊢
    by_cases hp : p c = true
    · have hlast : aheadRests (fun c => !p c) (c :: s) = [c :: s] := by
        simp [aheadRests, hp]
      rw [manyRests, if_pos hp, List.flatMap_append, List.head?_append, ih, List.flatMap_cons,
        List.flatMap_nil, List.append_nil, hlast, runLen_cons, if_pos hp, List.length_cons]
      by_cases hall : runLen p s = s.length
      · rw [if_pos hall, if_pos (congrArg Nat.succ hall)]
        rfl
      · have hall' : ¬runLen p s + 1 = s.length + 1 := fun h => hall (Nat.succ.inj h)
        rw [if_neg hall, if_neg hall', if_pos (Nat.succ_pos _), Nat.add_sub_cancel]
        by_cases hrun : 0 < runLen p s
        · obtain ⟨k, hk⟩ : ∃ k, runLen p s = k + 1 := ⟨runLen p s - 1, by omega⟩
          rw [if_pos hrun, hk]
          rfl
        · rw [if_neg hrun, Nat.eq_zero_of_not_pos hrun]
          rfl
    · have hlast : aheadRests (fun c => !p c) (c :: s) = [] := by
        simp [aheadRests, hp]
      rw [manyRests, if_neg hp, List.flatMap_cons, List.flatMap_nil, List.append_nil, hlast,
        runLen_cons, if_neg hp, List.length_cons, if_neg (by omega)]
      rfl

theorem first_plus_notAhead (p : α → Bool) (s : List α) :
    (seq (plus p) (notAhead fun c => !p c)).first s =
      if headIs p s then
        if runLen p s = s.length then some []
        else if 1 < runLen p s then some (s.drop (runLen p s - 1)) else none
      else none := by
  cases s with
  | nil => rfl
  | cons c s =>
    by_cases hp : p c = true
    · have hfirst : (seq (plus p) (notAhead fun c => !p c)).first (c :: s) =
          (seq (many p) (notAhead fun c => !p c)).first s := by
        simp [first, rests, plus, oneRests, hp]
      rw [hfirst, first_many_notAhead, headIs, if_pos hp, runLen_cons, if_pos hp, List.length_cons]
      by_cases hall : runLen p s = s.length
      · rw [if_pos hall, if_pos (congrArg Nat.succ hall)]
      · have hall' : ¬runLen p s + 1 = s.length + 1 := fun h => hall (Nat.succ.inj h)
        rw [if_neg hall, if_neg hall', Nat.add_sub_cancel]
        by_cases hrun : 0 < runLen p s
        · obtain ⟨k, hk⟩ : ∃ k, runLen p s = k + 1 := ⟨runLen p s - 1, by omega⟩
          rw [if_pos hrun, if_pos (by omega), hk]
          rfl
        · rw [if_neg hrun, if_neg (by omega)]
    · simp [first, rests, plus, oneRests, headIs, hp]

/-- A bounded repetition takes the run up to its bound. -/
theorem head?_upToRests (p : α → Bool) (n : ℕ) : ∀ s : List α,
    (upToRests p n s).head? = some (s.drop (runLen p (s.take n))) := by
  induction n with
  | zero =>
    intro s
    cases s <;> rfl
  | succ n ih =>
    intro s
    cases s with
    | nil => rfl
    | cons c s =>
      rw [upToRests, List.take_succ_cons, runLen_cons]
      by_cases hc : p c = true
      · rw [if_pos hc, if_pos hc, List.head?_append, ih]
        rfl
      · rw [if_neg hc, if_neg hc]
        rfl

theorem runLen_pos {c : α} {s : List α} (h : p c = true) : 0 < runLen p (c :: s) := by
  rw [runLen_cons, if_pos h]
  exact Nat.succ_pos _

theorem runLen_eq_zero {s : List α} (h : headIs p s = false) : runLen p s = 0 := by
  cases s with
  | nil => rfl
  | cons c s =>
    rw [headIs_cons] at h
    rw [runLen_cons, h]
    rfl

theorem headIs_dropWhile (p : α → Bool) (s : List α) : headIs p (s.dropWhile p) = false := by
  have h := List.head?_dropWhile_not p s
  cases hd : s.dropWhile p with
  | nil => rfl
  | cons d t =>
    rw [hd] at h
    simpa using h

theorem matchLength_plus (p : α → Bool) (s : List α) :
    (plus p).matchLength s = runLen p s := by
  cases hs : headIs p s with
  | false => rw [matchLength_none (by rw [first_plus, hs]; rfl), runLen_eq_zero hs]
  | true =>
    have hfirst : (plus p).first s = some (s.dropWhile p) := by rw [first_plus, hs, if_pos rfl]
    have hle := runLen_le p s
    rw [matchLength_some hfirst, length_dropWhile]
    omega

theorem runLen_all {s : List α} (h : ∀ c ∈ s, p c = true) : runLen p s = s.length := by
  rw [runLen, List.takeWhile_eq_self_iff.2 h]

end First

/-- The list ends with a symbol of the class. -/
def lastIs (p : α → Bool) (s : List α) : Bool := s.getLast?.any p

section Last
variable {p q : α → Bool} {s : List α}

theorem lastIs_all {b : Bool} (hne : s ≠ []) (h : ∀ c ∈ s, p c = b) : lastIs p s = b := by
  rw [lastIs, List.getLast?_eq_some_getLast hne]
  exact h _ (List.getLast_mem hne)

theorem lastIs_cons (hne : s ≠ []) (c : α) : lastIs p (c :: s) = lastIs p s := by
  rw [lastIs, List.getLast?_cons_of_ne_nil hne, lastIs]

theorem runLen_append_all {s t : List α} (h : ∀ c ∈ s, p c = true) :
    runLen p (s ++ t) = s.length + runLen p t := by
  induction s with
  | nil => simp
  | cons c s ih =>
    rw [List.cons_append, runLen_cons, if_pos (h c List.mem_cons_self),
      ih fun d hd => h d (List.mem_cons_of_mem _ hd), List.length_cons]
    omega

/-- The part up to the last end has that symbol as its last one. -/
theorem lastIs_lastEnd (h : lastEnd p q s ≠ 0) : lastIs q (s.take (lastEnd p q s)) = true := by
  induction s with
  | nil => exact absurd rfl h
  | cons c s ih =>
    rw [lastEnd] at h ⊢
    by_cases hp : p c = true
    · rw [if_pos hp] at h ⊢
      by_cases hl : lastEnd p q s ≠ 0
      · have hne : s.take (lastEnd p q s) ≠ [] := by
          intro hnil
          have hlen := congrArg List.length hnil
          have hle := (lastEnd_le p q s).trans (runLen_le p s)
          rw [List.length_take, List.length_nil] at hlen
          omega
        rw [if_pos hl, List.take_succ_cons, lastIs_cons hne]
        exact ih hl
      · rw [if_neg hl] at h ⊢
        by_cases hq : q c = true
        · rw [if_pos hq]
          exact hq
        · rw [if_neg hq] at h
          exact absurd rfl h
    · rw [if_neg hp] at h
      exact absurd rfl h

/-- Without a last end there is no such symbol in the run. -/
theorem lastEnd_eq_zero (h : lastEnd p q s = 0) : ∀ c ∈ s.take (runLen p s), q c = false := by
  induction s with
  | nil => simp
  | cons c s ih =>
    rw [lastEnd] at h
    rw [runLen_cons]
    by_cases hp : p c = true
    · rw [if_pos hp] at h ⊢
      by_cases hl : lastEnd p q s ≠ 0
      · rw [if_pos hl] at h
        omega
      · rw [if_neg hl] at h
        intro d hd
        rw [List.take_succ_cons] at hd
        rcases List.mem_cons.1 hd with rfl | hd
        · by_contra hq
          rw [Bool.not_eq_false] at hq
          rw [if_pos hq] at h
          cases h
        · exact ih (not_not.1 hl) d hd
    · rw [if_neg hp]
      simp

end Last

/-! A run and what a list starts with do not depend on what follows a symbol outside the
class. -/
section Append
variable {p q : α → Bool} {rest : List α}

theorem headIs_mono (h : ∀ c, p c = true → q c = true) (hq : headIs q rest = false) :
    headIs p rest = false := by
  cases rest with
  | nil => rfl
  | cons c s =>
    rw [headIs_cons] at hq ⊢
    cases hp : p c with
    | false => rfl
    | true =>
      rw [h c hp] at hq
      cases hq

theorem headIs_append (hrest : headIs p rest = false) (s : List α) :
    headIs p (s ++ rest) = headIs p s := by
  cases s with
  | nil => exact hrest
  | cons c s => rfl

theorem runLen_append (hrest : headIs p rest = false) (s : List α) :
    runLen p (s ++ rest) = runLen p s := by
  induction s with
  | nil =>
    cases rest with
    | nil => rfl
    | cons d t =>
      rw [headIs_cons] at hrest
      rw [List.nil_append, runLen_cons, hrest]
      rfl
  | cons c s ih => rw [List.cons_append, runLen_cons, runLen_cons, ih]

theorem lastEnd_append (hrest : headIs p rest = false) (s : List α) :
    lastEnd p q (s ++ rest) = lastEnd p q s := by
  induction s with
  | nil =>
    cases rest with
    | nil => rfl
    | cons d t =>
      rw [headIs_cons] at hrest
      rw [List.nil_append]
      simp only [lastEnd, hrest, Bool.false_eq_true, if_false]
  | cons c s ih => rw [List.cons_append, lastEnd, lastEnd, ih]

theorem headIs_congr {s : List α} (h : ∀ c ∈ s, p c = q c) : headIs p s = headIs q s := by
  cases s with
  | nil => rfl
  | cons c s => exact h c List.mem_cons_self

theorem runLen_congr {s : List α} (h : ∀ c ∈ s, p c = q c) : runLen p s = runLen q s := by
  induction s with
  | nil => rfl
  | cons c s ih =>
    rw [runLen_cons, runLen_cons, h c List.mem_cons_self,
      ih fun d hd => h d (List.mem_cons_of_mem _ hd)]

end Append

end Ds4.Parts
