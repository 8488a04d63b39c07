import Mathlib.Algebra.BigOperators.Group.Finset.Basic
import Mathlib.Tactic.NormNum

/-! What the threads of a block make of one value each: the tree of strides 2ⁿ⁻¹, …, 2, 1, and the
scan of a thread over its own items. -/
namespace Ds4.Parts

section Tree
variable {α : Type}

/-- One stage of the tree. The threads below the stride write their own cells alone, and read those
that no thread writes beside their own. -/
def halve (op : α → α → α) (stride : ℕ) (a : ℕ → α) (t : ℕ) : α :=
  if t < stride then op (a t) (a (t + stride)) else a t

/-- The stages of a block of `2 ^ n` threads. -/
def treeReduce (op : α → α → α) : ℕ → (ℕ → α) → ℕ → α
  | 0, a => a
  | n + 1, a => treeReduce op n (halve op (2 ^ n) a)

/-- A tree of additions adds up what the threads have. -/
theorem treeReduce_sum [AddCommMonoid α] (n : ℕ) (a : ℕ → α) :
    treeReduce (· + ·) n a 0 = ∑ t ∈ Finset.range (2 ^ n), a t := by
  induction n generalizing a with
  | zero => exact (Finset.sum_range_one a).symm
  | succ n ih =>
    have hstage : ∀ t ∈ Finset.range (2 ^ n), halve (· + ·) (2 ^ n) a t = a t + a (t + 2 ^ n) :=
      fun t ht => if_pos (Finset.mem_range.1 ht)
    have hshift : ∀ t, a (t + 2 ^ n) = a (2 ^ n + t) := fun t => congrArg a (Nat.add_comm t _)
    rw [treeReduce, ih, Finset.sum_congr rfl hstage, Finset.sum_add_distrib, pow_succ, Nat.mul_two,
      Finset.sum_range_add]
    simp only [hshift]

/-- Only what the threads hold matters of an operation. -/
theorem treeReduce_congr {op op' : α → α → α} {P : α → Prop}
    (hop : ∀ x y, P x → P y → op x y = op' x y ∧ P (op x y)) (n : ℕ) {a : ℕ → α}
    (ha : ∀ t, P (a t)) : treeReduce op n a = treeReduce op' n a := by
  induction n generalizing a with
  | zero => rfl
  | succ n ih =>
    have hstage : halve op (2 ^ n) a = halve op' (2 ^ n) a := by
      funext t
      unfold halve
      rw [(hop _ _ (ha t) (ha (t + 2 ^ n))).1]
    have hkeeps : ∀ t, P (halve op (2 ^ n) a t) := by
      intro t
      unfold halve
      split_ifs
      · exact (hop _ _ (ha t) (ha (t + 2 ^ n))).2
      · exact ha t
    rw [treeReduce, treeReduce, ← hstage]
    exact ih hkeeps

end Tree

section Choice
variable {α κ : Type} [LinearOrder κ] (key : α → κ)

/-- The second only if it is greater. -/
def pick (x y : α) : α := if key x < key y then y else x

/-- The numbers differ, and where they do so first, from the lowest bit on, `t` has the zero. -/
def LowBitFirst (t u : ℕ) : Prop := ∃ b, t % 2 ^ (b + 1) + 2 ^ b = u % 2 ^ (b + 1)

theorem LowBitFirst.irrefl (t : ℕ) : ¬ LowBitFirst t t := by
  rintro ⟨b, hb⟩
  have := Nat.two_pow_pos b
  omega

theorem LowBitFirst.asymm {t u : ℕ} (h : LowBitFirst t u) : ¬ LowBitFirst u t := by
  rintro ⟨c, hc⟩
  obtain ⟨b, hb⟩ := h
  have hlow : ∀ {x y d e : ℕ}, x % 2 ^ (e + 1) + 2 ^ e = y % 2 ^ (e + 1) → d < e →
      x % 2 ^ (d + 1) = y % 2 ^ (d + 1) := by
    intro x y d e hxy hde
    have hdvd : 2 ^ (d + 1) ∣ 2 ^ e := Nat.pow_dvd_pow 2 hde
    have hdvd' : 2 ^ (d + 1) ∣ 2 ^ (e + 1) := Nat.pow_dvd_pow 2 (by omega)
    rw [← Nat.mod_mod_of_dvd x hdvd', ← Nat.mod_mod_of_dvd y hdvd', ← hxy]
    obtain ⟨m, hm⟩ := hdvd
    rw [hm, Nat.add_mul_mod_self_left]
  have hpos := Nat.two_pow_pos b
  have hpos' := Nat.two_pow_pos c
  rcases Nat.lt_trichotomy b c with hlt | rfl | hlt
  · have := hlow hc hlt
    omega
  · omega
  · have := hlow hb hlt
    omega

/-- A block picks the greatest of its values, and among equals the thread whose lowest bits are
zero. -/
theorem treeReduce_pick (n : ℕ) (a : ℕ → α) : ∃ w < 2 ^ n, treeReduce (pick key) n a 0 = a w ∧
    ∀ t < 2 ^ n, key (a t) ≤ key (a w) ∧ (key (a t) = key (a w) → t = w ∨ LowBitFirst w t) := by
  induction n generalizing a with
  | zero =>
    refine ⟨0, by norm_num, rfl, fun t ht => ?_⟩
    obtain rfl : t = 0 := by omega
    exact ⟨le_rfl, fun _ => Or.inl rfl⟩
  | succ n ih =>
    obtain ⟨v, hv, hresult, hbest⟩ := ih (halve (pick key) (2 ^ n) a)
    have htwo : 2 ^ (n + 1) = 2 ^ n + 2 ^ n := by rw [pow_succ, Nat.mul_two]
    -- what a thread holds behind the first stage
    have hstage : ∀ t < 2 ^ n, halve (pick key) (2 ^ n) a t = pick key (a t) (a (t + 2 ^ n)) :=
      fun t ht => if_pos ht
    have hge : ∀ t < 2 ^ n, key (a t) ≤ key (pick key (a t) (a (t + 2 ^ n))) ∧
        key (a (t + 2 ^ n)) ≤ key (pick key (a t) (a (t + 2 ^ n))) := by
      intro t _
      unfold pick
      split_ifs with hlt
      · exact ⟨hlt.le, le_rfl⟩
      · exact ⟨le_rfl, not_lt.1 hlt⟩
    obtain ⟨w, hw, hwv, hwa, hfirst⟩ : ∃ w < 2 ^ (n + 1), w % 2 ^ n = v ∧
        halve (pick key) (2 ^ n) a v = a w ∧ (w = v ∨ key (a v) < key (a w) ∧ w = v + 2 ^ n) := by
      rw [hstage v hv]
      unfold pick
      split_ifs with hlt
      · exact ⟨v + 2 ^ n, by omega, by rw [Nat.add_mod_right, Nat.mod_eq_of_lt hv], rfl,
          Or.inr ⟨hlt, rfl⟩⟩
      · exact ⟨v, by omega, Nat.mod_eq_of_lt hv, rfl, Or.inl rfl⟩
    refine ⟨w, hw, hresult.trans hwa, fun t ht => ?_⟩
    have hlow : t % 2 ^ n < 2 ^ n := Nat.mod_lt t (Nat.two_pow_pos n)
    obtain ⟨hle, htie⟩ := hbest (t % 2 ^ n) hlow
    rw [hwa] at hle htie
    have hsplit : t = t % 2 ^ n ∨ t = t % 2 ^ n + 2 ^ n := by
      by_cases hsmall : t < 2 ^ n
      · exact Or.inl (Nat.mod_eq_of_lt hsmall).symm
      · right
        rw [Nat.mod_eq_sub_mod (not_lt.1 hsmall), Nat.mod_eq_of_lt (by omega)]
        omega
    have hheld : key (a t) ≤ key (halve (pick key) (2 ^ n) a (t % 2 ^ n)) := by
      rw [hstage _ hlow]
      rcases hsplit with hs | hs
      · exact (congrArg (fun i => key (a i)) hs).le.trans (hge _ hlow).1
      · exact (congrArg (fun i => key (a i)) hs).le.trans (hge _ hlow).2
    refine ⟨hheld.trans hle, fun hequal => ?_⟩
    rcases htie (le_antisymm hle (hequal ▸ hheld)) with hsame | ⟨b, hb⟩
    · -- the two share their low bits: only the stride tells them apart
      by_cases htw : t = w
      · exact Or.inl htw
      · right
        rcases hfirst with rfl | ⟨hlt, rfl⟩
        · refine ⟨n, ?_⟩
          rw [Nat.mod_eq_of_lt hw, Nat.mod_eq_of_lt ht]
          omega
        · exfalso
          have htv : t = v := by omega
          rw [htv] at hequal
          exact absurd hequal hlt.ne
    · -- a lower bit tells them apart already
      right
      have hbn : b < n := by
        by_contra hlarge
        have hpow : 2 ^ n ≤ 2 ^ b := Nat.pow_le_pow_right (by norm_num) (not_lt.1 hlarge)
        have hmod := Nat.mod_le (t % 2 ^ n) (2 ^ (b + 1))
        omega
      have hdvd : 2 ^ (b + 1) ∣ 2 ^ n := Nat.pow_dvd_pow 2 hbn
      refine ⟨b, ?_⟩
      rw [← hwv, Nat.mod_mod_of_dvd w hdvd, Nat.mod_mod_of_dvd t hdvd] at hb
      exact hb

/-- A scan that keeps what it has until something is greater. -/
def scanBest (best : α) (xs : List α) : α := xs.foldl (pick key) best

/-- It ends with the first of the greatest. -/
theorem scanBest_spec (best : α) (xs : List α) : ∃ pre post,
    best :: xs = pre ++ scanBest key best xs :: post ∧
      (∀ x ∈ pre, key x < key (scanBest key best xs)) ∧
      ∀ x ∈ post, key x ≤ key (scanBest key best xs) := by
  induction xs using List.reverseRecOn with
  | nil => exact ⟨[], [], rfl, fun x hx => absurd hx List.not_mem_nil,
      fun x hx => absurd hx List.not_mem_nil⟩
  | append_singleton xs x ih =>
    obtain ⟨pre, post, hsplit, hpre, hpost⟩ := ih
    have hlast : scanBest key best (xs ++ [x]) = pick key (scanBest key best xs) x := by
      unfold scanBest
      rw [List.foldl_append]
      rfl
    rw [hlast, ← List.cons_append, hsplit]
    unfold pick
    split_ifs with hlt
    · refine ⟨pre ++ scanBest key best xs :: post, [], rfl, ?_,
        fun y hy => absurd hy List.not_mem_nil⟩
      intro y hy
      rcases List.mem_append.1 hy with hy | hy
      · exact (hpre y hy).trans hlt
      · rcases List.mem_cons.1 hy with rfl | hy
        · exact hlt
        · exact (hpost y hy).trans_lt hlt
    · refine ⟨pre, post ++ [x], by rw [List.append_assoc, List.cons_append], hpre, ?_⟩
      intro y hy
      rcases List.mem_append.1 hy with hy | hy
      · exact hpost y hy
      · rw [List.mem_singleton.1 hy]
        exact not_lt.1 hlt

end Choice

end Ds4.Parts
