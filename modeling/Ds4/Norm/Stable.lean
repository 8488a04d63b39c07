import Ds4.Parts.Rows
import Ds4.Parts.Warp

/-! The stable root mean square of a row: a block of 256 threads finds the row's greatest magnitude,
adds up the squares of what is left when it is divided by that, and scales. Arithmetic is exact. -/
namespace Ds4.Norm
open Ds4.Parts

/-- A float that was read. One that is not finite is `none`. -/
abbrev F32 (α : Type) := Option α

section Row
variable {α : Type} [Field α] [LinearOrder α]

/-- `if (isfinite(v)) m = fmaxf(m, fabsf(v))`. -/
def maxStep (m : α) : F32 α → α
  | none => m
  | some x => max m |x|

/-- The greatest magnitude of a thread's columns. -/
def localMax (v : ℕ → F32 α) (n t : ℕ) : α :=
  (items 256 n t).foldl (fun m h => maxStep m (v h)) 0

/-- `block_max_256_f32`, of the magnitudes of a row. -/
def maxAbs (v : ℕ → F32 α) (n : ℕ) : α := blockReduce max 0 (localMax v n)

/-- `if (isfinite(v)) sum += (v / m) * (v / m)`. -/
def squareStep (m sum : α) : F32 α → α
  | none => sum
  | some x => sum + x / m * (x / m)

/-- `block_sum_256_f32`, of the squares of a row. -/
def sumSquares (m : α) (v : ℕ → F32 α) (n : ℕ) : α :=
  blockReduce (· + ·) 0 fun t =>
    if 0 < m then (items 256 n t).foldl (fun sum h => squareStep m sum (v h)) 0 else 0

/-- What a row of `n` columns is multiplied with. -/
def normScale (rsqrtf : α → α) (eps : α) (n : ℕ) (m sum : α) : α :=
  if 0 < m then rsqrtf (sum / n + eps / (m * m)) / m else rsqrtf eps

def rowScale (rsqrtf : α → α) (eps : α) (v : ℕ → F32 α) (n : ℕ) : α :=
  normScale rsqrtf eps n (maxAbs v n) (sumSquares (maxAbs v n) v n)

/-- `if (!isfinite(v)) v = 0`. -/
def finite (v : F32 α) : α := v.getD 0

/-- `rms_norm_weight_rows_stable_kernel`. -/
def rmsNormWeightRowsStable (rsqrtf : α → α) (eps : α) (weight : ℕ → α) (cols rows : ℕ)
    (src : ℕ → F32 α) : List (Access (F32 α)) :=
  rowStores cols rows fun row c =>
    let x := fun c => src (row * cols + c)
    match x c with
    | none => some 0
    | some v => some (v * rowScale rsqrtf eps x cols * weight c)

/-- A value that is not finite adds the square of zero. -/
theorem sumSquares_finite (m : α) (v : ℕ → F32 α) (n : ℕ) :
    sumSquares m (fun h => some (finite (v h))) n = sumSquares m v n := by
  have hstep : (fun sum h => squareStep m sum (some (finite (v h)))) =
      fun sum h => squareStep m sum (v h) := by
    funext sum h
    cases v h with
    | none =>
      show sum + 0 / m * (0 / m) = sum
      rw [zero_div, mul_zero, add_zero]
    | some x => rfl
  unfold sumSquares
  rw [hstep]

theorem foldl_maxStep_le_iff {is : List ℕ} {v : ℕ → F32 α} {start b : α} :
    is.foldl (fun m h => maxStep m (v h)) start ≤ b ↔
      start ≤ b ∧ ∀ h ∈ is, ∀ x ∈ v h, |x| ≤ b := by
  induction is generalizing start with
  | nil => exact ⟨fun h => ⟨h, fun i hi => absurd hi List.not_mem_nil⟩, And.left⟩
  | cons i is ih =>
    have hstep : maxStep start (v i) ≤ b ↔ start ≤ b ∧ ∀ x ∈ v i, |x| ≤ b := by
      cases v i with
      | none => exact ⟨fun h => ⟨h, fun x hx => by cases hx⟩, And.left⟩
      | some x =>
        simp only [maxStep, max_le_iff, Option.mem_some_iff, forall_eq']
    rw [List.foldl_cons, ih, hstep, List.forall_mem_cons, and_assoc]

/-- The greatest magnitude is the least bound of those that are finite. -/
theorem maxAbs_le_iff {v : ℕ → F32 α} {n : ℕ} {b : α} :
    maxAbs v n ≤ b ↔ 0 ≤ b ∧ ∀ h < n, ∀ x ∈ v h, |x| ≤ b := by
  unfold maxAbs localMax
  rw [blockReduce_max_le_iff]
  simp only [foldl_maxStep_le_iff]
  constructor
  · rintro ⟨hb, hall⟩
    exact ⟨hb, fun h hh =>
      (hall (h % 256) (Nat.mod_lt h (by norm_num))).2 h (mem_items.2 ⟨hh, rfl⟩)⟩
  · rintro ⟨hb, hall⟩
    exact ⟨hb, fun t _ => ⟨hb, fun h hh => hall h (mem_items.1 hh).1⟩⟩

/-- The squares of a row, of which those that are not finite are none. -/
theorem sumSquares_eq {m : α} (hm : 0 < m) (v : ℕ → F32 α) (n : ℕ) :
    sumSquares m v n = ∑ h ∈ Finset.range n, finite (v h) / m * (finite (v h) / m) := by
  have hstep : (fun sum h => squareStep m sum (v h)) =
      fun sum h => sum + finite (v h) / m * (finite (v h) / m) := by
    funext sum h
    cases v h with
    | none =>
      show sum = sum + 0 / m * (0 / m)
      rw [zero_div, mul_zero, add_zero]
    | some x => rfl
  unfold sumSquares
  rw [blockReduce_sum]
  refine Eq.trans ?_ (sum_items (by norm_num : 0 < 256) _)
  refine Finset.sum_congr rfl fun t _ => ?_
  rw [if_pos hm, hstep, foldl_add_eq, zero_add]

theorem maxAbs_congr {v w : ℕ → F32 α} {n : ℕ} (h : ∀ i < n, v i = w i) :
    maxAbs v n = maxAbs w n := by
  have hlocal : localMax v n = localMax w n := by
    funext t
    exact List.foldl_ext _ _ _ fun m i hi => by rw [h i (mem_items.1 hi).1]
  unfold maxAbs
  rw [hlocal]

theorem sumSquares_congr {v w : ℕ → F32 α} {m : α} {n : ℕ} (h : ∀ i < n, v i = w i) :
    sumSquares m v n = sumSquares m w n := by
  have hlocal : ∀ t, (items 256 n t).foldl (fun sum h => squareStep m sum (v h)) 0 =
      (items 256 n t).foldl (fun sum h => squareStep m sum (w h)) 0 := fun t =>
    List.foldl_ext _ _ _ fun sum i hi => by rw [h i (mem_items.1 hi).1]
  unfold sumSquares
  simp only [hlocal]

/-- The scale is that of the values of the row alone. -/
theorem rowScale_congr (rsqrtf : α → α) (eps : α) {v w : ℕ → F32 α} {n : ℕ}
    (h : ∀ i < n, v i = w i) : rowScale rsqrtf eps v n = rowScale rsqrtf eps w n := by
  unfold rowScale
  rw [maxAbs_congr h, sumSquares_congr h]

end Row

end Ds4.Norm
