import Ds4.Engine.Compressor
import Mathlib.Algebra.Order.Ring.Nat

/-! The compressed rows of a lane after any prefill and any single-token steps. -/
namespace Ds4.Engine

variable {F : Type}

namespace LaneParams
variable (p : LaneParams F)

/-- Row `i` of the window before window `r`. -/
def previousRow (x : ℕ → StateRow F) : ℕ → ℕ → StateRow F
  | 0, _ => p.emptyRow
  | r + 1, i => x (r * p.ratio + i)

theorem previousWindow_eq (x : ℕ → StateRow F) (r : ℕ) :
    p.previousWindow x r = (List.range p.ratio).map (p.previousRow x r) := by
  cases r with
  | zero =>
    simp only [previousWindow]
    symm
    apply List.eq_replicate_iff.2
    constructor
    · simp
    · intro b hb
      obtain ⟨i, _, rfl⟩ := List.mem_map.1 hb
      rfl
  | succ r => rfl

/-- The first row of the current window in the rolling state. -/
def currentStart : ℕ := if p.ratio = 4 then p.ratio else 0

theorem rowIndex_eq (pos : ℕ) : p.rowIndex pos = p.currentStart + pos % p.ratio := by
  simp only [rowIndex, currentStart]
  split <;> simp

/-- What a lane holds after the first `t` rows of `x`: a compressed row for each full window,
the rows of the open window, and with ratio 4 the rows of the window before it. -/
structure LaneAt (x : ℕ → StateRow F) (t : ℕ) (lane : Lane F) : Prop where
  comp : lane.comp = (List.range (t / p.ratio)).map (p.windowRow x)
  current : ∀ i < t % p.ratio,
    lane.state (p.currentStart + i) = x (t / p.ratio * p.ratio + i)
  previous : p.ratio = 4 → ∀ i < p.ratio, lane.state i = p.previousRow x (t / p.ratio) i

theorem initLane_laneAt (x : ℕ → StateRow F) : p.LaneAt x 0 p.initLane := by
  constructor
  · simp [initLane]
  · intro i hi
    simp at hi
  · intro _ i _
    simp [initLane, previousRow]

section Step
variable (x : ℕ → StateRow F) (t : ℕ) (lane : Lane F)

theorem writeRow_current (h : p.LaneAt x t lane) :
    ∀ i < t % p.ratio + 1,
      p.writeRow lane.state t (x t) (p.currentStart + i) = x (t / p.ratio * p.ratio + i) := by
  intro i hi
  simp only [writeRow, rowIndex_eq]
  by_cases he : i = t % p.ratio
  · subst he
    rw [Function.update_self, Nat.div_add_mod']
  · rw [Function.update_of_ne (by omega)]
    exact h.current i (by omega)

theorem writeRow_previous (h : p.LaneAt x t lane) (h4 : p.ratio = 4) :
    ∀ i < p.ratio, p.writeRow lane.state t (x t) i = p.previousRow x (t / p.ratio) i := by
  intro i hi
  have hne : i ≠ p.rowIndex t := by
    rw [rowIndex, if_pos h4]
    omega
  rw [writeRow, Function.update_of_ne hne]
  exact h.previous h4 i hi

/-- At the last position of a window the pooled state is the pooling of its rows. -/
theorem poolDecodeState_window (h : p.LaneAt x t lane)
    (hb : t % p.ratio + 1 = p.ratio) :
    p.poolDecodeState (p.writeRow lane.state t (x t)) =
      p.poolWindows (p.previousWindow x (t / p.ratio)) (p.window x (t / p.ratio)) := by
  have hc := p.writeRow_current x t lane h
  have hcur : p.stateRows (p.writeRow lane.state t (x t)) p.currentStart =
      p.window x (t / p.ratio) := by
    apply List.map_congr_left
    intro i hi
    exact hc i (by rw [hb]; exact List.mem_range.1 hi)
  by_cases h4 : p.ratio = 4
  · have hprev : p.stateRows (p.writeRow lane.state t (x t)) 0 =
        p.previousWindow x (t / p.ratio) := by
      rw [previousWindow_eq]
      apply List.map_congr_left
      intro i hi
      rw [Nat.zero_add]
      exact p.writeRow_previous x t lane h h4 i (List.mem_range.1 hi)
    rw [currentStart, if_pos h4] at hcur
    rw [poolDecodeState, if_pos h4, hprev, hcur]
  · rw [currentStart, if_neg h4] at hcur
    rw [poolDecodeState, if_neg h4, hcur]
    simp only [poolWindows, if_neg h4]

/-- Behind the last position of a window the next one opens. -/
theorem window_closes (hr : 0 < p.ratio) (hb : t % p.ratio + 1 = p.ratio) :
    (t + 1) % p.ratio = 0 ∧ (t + 1) / p.ratio = t / p.ratio + 1 := by
  have ht : t + 1 = (t / p.ratio + 1) * p.ratio := by
    have hd := Nat.div_add_mod' t p.ratio
    rw [Nat.add_mul]
    omega
  constructor
  · rw [ht, Nat.mul_mod_left]
  · conv_lhs => rw [ht]
    exact Nat.mul_div_cancel _ hr

theorem window_stays (hb : t % p.ratio + 1 < p.ratio) :
    (t + 1) % p.ratio = t % p.ratio + 1 ∧ (t + 1) / p.ratio = t / p.ratio := by
  have ht : t + 1 = t % p.ratio + 1 + p.ratio * (t / p.ratio) := by
    have hd := Nat.mod_add_div t p.ratio
    omega
  constructor
  · conv_lhs => rw [ht]
    rw [Nat.add_mul_mod_self_left, Nat.mod_eq_of_lt hb]
  · conv_lhs => rw [ht]
    rw [Nat.add_mul_div_left _ _ (by omega), Nat.div_eq_of_lt hb, Nat.zero_add]

/-- The rotation of the two windows: the closed one becomes the previous one. -/
theorem copies_previous (state : ℕ → StateRow F) (i : ℕ) (hi : i < p.ratio) :
    p.copyToCurrent (p.copyToPrevious state) i = state (p.ratio + i) := by
  rw [copyToCurrent, if_neg (by omega), copyToPrevious, if_pos hi]

/-- A token inside a window only fills its row. -/
theorem decodeToken_inside (cap : ℕ) (h : p.LaneAt x t lane) (hb : t % p.ratio + 1 < p.ratio) :
    ∃ lane', p.decodeToken cap lane t (x t) = some lane' ∧ p.LaneAt x (t + 1) lane' := by
  obtain ⟨hmod, hdiv⟩ := p.window_stays t hb
  have hne : (t + 1) % p.ratio ≠ 0 := by omega
  apply Exists.intro ⟨p.writeRow lane.state t (x t), lane.comp⟩
  constructor
  · simp only [decodeToken, compressorDecodeOne, if_neg hne]
  · constructor
    · rw [hdiv]
      exact h.comp
    · rw [hmod, hdiv]
      exact p.writeRow_current x t lane h
    · rw [hdiv]
      exact p.writeRow_previous x t lane h

/-- The last token of a window emits its compressed row and opens the next window. -/
theorem decodeToken_boundary (cap : ℕ) (hr : 0 < p.ratio) (h : p.LaneAt x t lane)
    (hb : t % p.ratio + 1 = p.ratio) (hcap : t / p.ratio < cap) :
    ∃ lane', p.decodeToken cap lane t (x t) = some lane' ∧ p.LaneAt x (t + 1) lane' := by
  obtain ⟨hmod, hdiv⟩ := p.window_closes t hr hb
  have hlen : lane.comp.length = t / p.ratio := by rw [h.comp]; simp
  have hstart : t + 1 - p.ratio = t / p.ratio * p.ratio := by
    have hd := Nat.div_add_mod' t p.ratio
    omega
  have hpush : p.pushComp cap lane.comp
      (p.finish (p.poolDecodeState (p.writeRow lane.state t (x t))) (t + 1 - p.ratio)) =
        some (lane.comp ++ [p.windowRow x (t / p.ratio)]) := by
    rw [pushComp, if_neg (by omega), p.poolDecodeState_window x t lane h hb, hstart]
    rfl
  have hcomp : lane.comp ++ [p.windowRow x (t / p.ratio)] =
      (List.range ((t + 1) / p.ratio)).map (p.windowRow x) := by
    rw [hdiv, List.range_succ, List.map_append, h.comp]
    rfl
  simp only [decodeToken, compressorDecodeOne, if_pos hmod, hpush, Option.map_some]
  apply Exists.intro _
  constructor
  · rfl
  · constructor
    · exact hcomp
    · intro i hi
      rw [hmod] at hi
      exact absurd hi (Nat.not_lt_zero i)
    · intro h4 i hi
      have hc := p.writeRow_current x t lane h i (by omega)
      rw [currentStart, if_pos h4] at hc
      simp only [if_pos h4]
      rw [p.copies_previous _ i hi, hc, hdiv]
      rfl

theorem decodeToken_laneAt (cap : ℕ) (hr : 0 < p.ratio) (h : p.LaneAt x t lane)
    (hcap : (t + 1) / p.ratio ≤ cap) :
    ∃ lane', p.decodeToken cap lane t (x t) = some lane' ∧ p.LaneAt x (t + 1) lane' := by
  have hlt := Nat.mod_lt t hr
  by_cases hb : t % p.ratio + 1 = p.ratio
  · have hroom : t / p.ratio < cap := by
      rw [(p.window_closes t hr hb).2] at hcap
      omega
    exact p.decodeToken_boundary x t lane cap hr h hb hroom
  · exact p.decodeToken_inside x t lane cap h (by omega)

/-- Finishing a prefill clears only rows that a later token writes before they are read. -/
theorem finishPrefillState_laneAt (h : p.LaneAt x t lane) :
    p.LaneAt x t { lane with state := p.finishPrefillState lane.state t } := by
  constructor
  · exact h.comp
  · intro i hi
    have hkeep : p.finishPrefillState lane.state t (p.currentStart + i) =
        lane.state (p.currentStart + i) := by
      simp only [finishPrefillState, currentStart]
      by_cases h4 : p.ratio = 4
      · simp only [if_pos h4]
        rw [if_neg (by omega)]
      · simp only [if_neg h4]
        rw [if_neg (by omega)]
    exact hkeep.trans (h.current i hi)
  · intro h4 i hi
    have hkeep : p.finishPrefillState lane.state t i = lane.state i := by
      simp only [finishPrefillState, if_pos h4]
      rw [if_neg (by omega)]
    exact hkeep.trans (h.previous h4 i hi)

end Step

/-- Any number of tokens from any point of the sequence on. -/
theorem decodeTokens_laneAt (cap : ℕ) (x : ℕ → StateRow F) (hr : 0 < p.ratio) (n : ℕ) :
    ∀ (t : ℕ) (lane : Lane F), p.LaneAt x t lane → (t + n) / p.ratio ≤ cap →
      ∃ lane', p.decodeTokens cap x t n lane = some lane' ∧ p.LaneAt x (t + n) lane' := by
  induction n with
  | zero =>
    intro t lane h _
    exact ⟨lane, rfl, h⟩
  | succ n ih =>
    intro t lane h hcap
    have hfirst : (t + 1) / p.ratio ≤ cap :=
      (Nat.div_le_div_right (by omega)).trans hcap
    obtain ⟨next, hnext, hat⟩ := p.decodeToken_laneAt x t lane cap hr h hfirst
    have hsum : t + (n + 1) = t + 1 + n := by omega
    rw [hsum] at hcap ⊢
    obtain ⟨last, hlast, hend⟩ := ih (t + 1) next hat hcap
    apply Exists.intro last
    constructor
    · simp only [decodeTokens, hnext, Option.bind_some, hlast]
    · exact hend

theorem div_le_compCap (ctxSize t : ℕ) (ht : t ≤ ctxSize) :
    t / p.ratio ≤ p.compCap ctxSize :=
  (Nat.div_le_div_right ht).trans (Nat.le_add_right _ 2)

theorem prefillTokens_laneAt (ctxSize : ℕ) (x : ℕ → StateRow F) (n : ℕ) (hr : 0 < p.ratio)
    (hn : n ≤ ctxSize) :
    ∃ lane, p.prefillTokens ctxSize x n = some lane ∧ p.LaneAt x n lane := by
  have h := p.decodeTokens_laneAt (p.compCap ctxSize) x hr n 0 p.initLane
    (p.initLane_laneAt x)
  rw [Nat.zero_add] at h
  exact h (p.div_le_compCap ctxSize n hn)

theorem streamTokens_laneAt (ctxSize : ℕ) (x : ℕ → StateRow F) (n m : ℕ) (hr : 0 < p.ratio)
    (hctx : n + m ≤ ctxSize) :
    ∃ lane, p.streamTokens ctxSize x n m = some lane ∧ p.LaneAt x (n + m) lane := by
  obtain ⟨lane, hlane, hat⟩ := p.prefillTokens_laneAt ctxSize x n hr (by omega)
  simp only [streamTokens, hlane, Option.bind_some]
  exact p.decodeTokens_laneAt _ x hr m n _ (p.finishPrefillState_laneAt x n lane hat)
    (p.div_le_compCap ctxSize (n + m) hctx)

/-- Compressed row `r` is there from the last position of its window on. -/
theorem LaneAt.comp_getElem? {p : LaneParams F} {x : ℕ → StateRow F} {t : ℕ} {lane : Lane F}
    (h : p.LaneAt x t lane) (hr : 0 < p.ratio) (r : ℕ) :
    lane.comp[r]? = if (r + 1) * p.ratio ≤ t then some (p.windowRow x r) else none := by
  have hiff : (r + 1) * p.ratio ≤ t ↔ r < t / p.ratio := by
    rw [← Nat.le_div_iff_mul_le hr, Nat.succ_le_iff]
  rw [h.comp, List.getElem?_map]
  by_cases hlt : r < t / p.ratio
  · rw [if_pos (hiff.2 hlt), List.getElem?_range hlt]
    rfl
  · rw [if_neg (mt hiff.1 hlt), List.getElem?_eq_none (by simpa using hlt)]
    rfl

theorem LaneAt.comp_length {p : LaneParams F} {x : ℕ → StateRow F} {t : ℕ} {lane : Lane F}
    (h : p.LaneAt x t lane) : lane.comp.length = t / p.ratio := by
  rw [h.comp]
  simp

/-- The rows that a prefill of `n` tokens and `m` single-token steps emit: after any `t` of
these tokens exactly the rows of the windows closed by then, each the pooling of its window,
and within the context never more than the cache has room for. -/
theorem streamTokens_windows (p : LaneParams F) (ctxSize : ℕ) (x : ℕ → StateRow F) (n m : ℕ)
    (hr : 0 < p.ratio) (hctx : n + m ≤ ctxSize) :
    (∀ t ≤ n, ∃ lane, p.prefillTokens ctxSize x t = some lane ∧
      lane.comp.length = t / p.ratio ∧ lane.comp.length ≤ p.compCap ctxSize ∧
      ∀ r, lane.comp[r]? =
        if (r + 1) * p.ratio ≤ t then some (p.windowRow x r) else none) ∧
    (∀ k ≤ m, ∃ lane, p.streamTokens ctxSize x n k = some lane ∧
      lane.comp.length = (n + k) / p.ratio ∧ lane.comp.length ≤ p.compCap ctxSize ∧
      ∀ r, lane.comp[r]? =
        if (r + 1) * p.ratio ≤ n + k then some (p.windowRow x r) else none) := by
  constructor
  · intro t ht
    obtain ⟨lane, hlane, hat⟩ := p.prefillTokens_laneAt ctxSize x t hr (by omega)
    apply Exists.intro lane
    refine ⟨hlane, hat.comp_length, ?_, hat.comp_getElem? hr⟩
    rw [hat.comp_length]
    exact p.div_le_compCap ctxSize t (by omega)
  · intro k hk
    obtain ⟨lane, hlane, hat⟩ := p.streamTokens_laneAt ctxSize x n k hr (by omega)
    apply Exists.intro lane
    refine ⟨hlane, hat.comp_length, ?_, hat.comp_getElem? hr⟩
    rw [hat.comp_length]
    exact p.div_le_compCap ctxSize (n + k) (by omega)

end LaneParams

/-- A lane of ratio 4 over the integers, with a sum for the softmax weights. -/
def integerLane : LaneParams ℤ where
  ops :=
    { zero := 0, negInf := -1000, halfNegInf := -500
      lt := fun a b => decide (a < b), le := fun a b => decide (a ≤ b)
      add := (· + ·), sub := (· - ·), mul := (· * ·), div := (· / ·), exp := fun a => a + 100 }
  headDim := 2
  ratio := 4
  finish := fun row pos => row.map (· + pos)
  half := id

/-- A prefill cut inside a window. -/
theorem integerLane_windows :
    (∀ t ≤ 6, ∃ lane, integerLane.prefillTokens 16
        (fun i => ⟨[i, i + 1, i + 2, i + 3], [1, 2, 3, i]⟩) t = some lane ∧
      lane.comp.length = t / integerLane.ratio ∧
      lane.comp.length ≤ integerLane.compCap 16 ∧
      ∀ r, lane.comp[r]? = if (r + 1) * integerLane.ratio ≤ t then
        some (integerLane.windowRow
          (fun i => ⟨[i, i + 1, i + 2, i + 3], [1, 2, 3, i]⟩) r) else none) ∧
    (∀ k ≤ 10, ∃ lane, integerLane.streamTokens 16
        (fun i => ⟨[i, i + 1, i + 2, i + 3], [1, 2, 3, i]⟩) 6 k = some lane ∧
      lane.comp.length = (6 + k) / integerLane.ratio ∧
      lane.comp.length ≤ integerLane.compCap 16 ∧
      ∀ r, lane.comp[r]? = if (r + 1) * integerLane.ratio ≤ 6 + k then
        some (integerLane.windowRow
          (fun i => ⟨[i, i + 1, i + 2, i + 3], [1, 2, 3, i]⟩) r) else none) :=
  LaneParams.streamTokens_windows integerLane 16 _ 6 10 (by decide) (by decide)

end Ds4.Engine
