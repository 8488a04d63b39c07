import Ds4.Tp.Contract
import Mathlib.Algebra.BigOperators.Ring.List
import Mathlib.Data.Int.ConditionallyCompleteOrder
import Mathlib.Tactic.NormNum
import Mathlib.Tactic.Positivity
import Mathlib.Tactic.Zify

/-! When the shards of the contract tile their tensor: the byte ranges that the runtime reads
for a dense row, and the expert ranges of a TurboMind row. -/
namespace Ds4.Tp

/-- Parts in their order, without a common point inside the target, that cover it. -/
structure Tiles (target : Set ℤ) (parts : List (Set ℤ)) : Prop where
  ordered : parts.Pairwise fun p q => ∀ x ∈ p ∩ target, ∀ y ∈ q ∩ target, x < y
  covers : ∀ x ∈ target, ∃ p ∈ parts, x ∈ p

/-- The bytes that the runtime reads for a row. -/
def readSpan (r : ContractRow) : Set ℤ :=
  Set.Ico (physicalRowOffset r : ℤ) (physicalRowOffset r + r.bytesEstimate)

def sourceSpan (r : PackRow) : Set ℤ := Set.Ico (r.shardOffset : ℤ) (r.shardOffset + r.bytes)

def expertSpan (r : ContractRow) : Set ℤ := Set.Ico r.expertFirst (r.expertFirst + r.expertCount)

/-- The dense rows made from a pack row are eight, and read the parts of its source range in
the order of their ranks. -/
def DenseRowsTile (r : PackRow) : Prop :=
  ∀ rows, emitPackRow r = some rows → (∃ c ∈ rows, c.recordType = "dense_tp") →
    rows.length = 8 ∧ Tiles (sourceSpan r) (rows.map readSpan)

/-- The rows made from a TurboMind row are eight, share out the expert ids in order, and their
sizes add up to that of all experts. -/
def ExpertRowsTile (r : TmRow) : Prop :=
  ∀ rows, emitTmRow r = some rows →
    rows.length = 8 ∧ Tiles (Set.Ico 0 (r.expertsTotal : ℤ)) (rows.map expertSpan) ∧
      (∀ c ∈ rows, expertSpan c ⊆ Set.Ico 0 (r.expertsTotal : ℤ)) ∧
      (rows.map (·.bytesEstimate)).sum = r.expertsTotal * (r.weightPer + r.scalePer)

/-- The tool makes dense rows from a pack row. -/
def TurnsDense (r : PackRow) : Prop :=
  isExpertSourceTensor r.semantic r.source = false ∧
    isReplicatedControl r.dtype r.layout r.kernel = false ∧
    (expandedF16ShardBytes r.dims).isSome = true

section Parts
variable {target : Set ℤ} {n : ℕ} {f : ℕ → Set ℤ}

theorem tiles_range : Tiles target ((List.range n).map f) ↔
    (∀ i j, i < j → j < n → ∀ x ∈ f i ∩ target, ∀ y ∈ f j ∩ target, x < y) ∧
      ∀ x ∈ target, ∃ i < n, x ∈ f i := by
  constructor
  · rintro ⟨hordered, hcovers⟩
    refine ⟨fun i j hij hj => ?_, fun x hx => ?_⟩
    · have h := List.pairwise_iff_getElem.mp hordered i j (by simp; omega) (by simpa using hj) hij
      simpa using h
    · obtain ⟨p, hp, hxp⟩ := hcovers x hx
      obtain ⟨i, hi, rfl⟩ := List.mem_map.mp hp
      exact ⟨i, List.mem_range.mp hi, hxp⟩
  · rintro ⟨hordered, hcovers⟩
    refine ⟨?_, fun x hx => ?_⟩
    · rw [List.pairwise_iff_getElem]
      intro i j hi hj hij
      simp only [List.getElem_map, List.getElem_range]
      exact hordered i j hij (by simpa using hj)
    · obtain ⟨i, hi, hxi⟩ := hcovers x hx
      exact ⟨f i, List.mem_map_of_mem (List.mem_range.mpr hi), hxi⟩

end Parts

section Dense
variable {r : PackRow} {gpu : ℕ}

theorem denseRow_offset (r : PackRow) (gpu : ℕ) : physicalRowOffset (denseRow r gpu) =
    if ceilDiv r.bytes 8 * 8 % 2 ^ 64 ≤ r.bytes then
      (r.shardOffset + gpu * ceilDiv r.bytes 8 % 2 ^ 64) % 2 ^ 64
    else r.shardOffset := by
  unfold physicalRowOffset denseRow
  dsimp only
  simp

/-- Where the length is a multiple of eight, each rank begins behind the one before. -/
theorem denseRow_span (hdvd : 8 ∣ r.bytes) (hgpu : gpu < 8) : readSpan (denseRow r gpu) =
    Set.Ico (((r.shardOffset + gpu * (r.bytes / 8)) % 2 ^ 64 : ℕ) : ℤ)
      (((r.shardOffset + gpu * (r.bytes / 8)) % 2 ^ 64 : ℕ) + (r.bytes / 8 : ℕ)) := by
  have hlt := r.bytes_lt
  obtain ⟨e, he⟩ := hdvd
  have hceil : ceilDiv r.bytes 8 = r.bytes / 8 := by
    rw [ceilDiv_eq (by omega)]
    omega
  have hsmall : gpu * (r.bytes / 8) < 2 ^ 64 := by
    have := Nat.mul_le_mul_right (r.bytes / 8) (Nat.le_of_lt_succ hgpu)
    omega
  unfold readSpan
  rw [denseRow_offset, hceil, if_pos (by rw [Nat.div_mul_cancel ⟨e, he⟩]; exact Nat.mod_le _ _),
    Nat.mod_eq_of_lt hsmall]
  show Set.Ico _ (_ + ((ceilDiv r.bytes 8 : ℕ) : ℤ)) = _
  rw [hceil]

/-- Where the last rank begins within the address space, each rank begins at its own part. -/
theorem denseRow_span_within (hdvd : 8 ∣ r.bytes)
    (hwithin : r.shardOffset + 7 * (r.bytes / 8) < 2 ^ 64) (hgpu : gpu < 8) :
    readSpan (denseRow r gpu) =
      Set.Ico (r.shardOffset + gpu * (r.bytes / 8) : ℤ)
        (r.shardOffset + gpu * (r.bytes / 8) + (r.bytes / 8)) := by
  have hle := Nat.mul_le_mul_right (r.bytes / 8) (Nat.le_of_lt_succ hgpu)
  rw [denseRow_span hdvd hgpu, Nat.mod_eq_of_lt (by omega)]
  push_cast
  rfl

/-- Where the length is no multiple of eight, every rank begins where the source does. -/
theorem denseRow_span_undivided (hdvd : ¬ 8 ∣ r.bytes) (hround : r.bytes + 7 < 2 ^ 64) :
    readSpan (denseRow r gpu) =
      Set.Ico (r.shardOffset : ℤ) (r.shardOffset + ((r.bytes + 7) / 8 : ℕ)) := by
  have hceil : ceilDiv r.bytes 8 = (r.bytes + 7) / 8 := ceilDiv_eq (by omega)
  unfold readSpan
  rw [denseRow_offset, hceil, if_neg (by omega)]
  show Set.Ico _ (_ + ((ceilDiv r.bytes 8 : ℕ) : ℤ)) = _
  rw [hceil]

/-- Where rounding up leaves the 64 bits, no rank reads a byte. -/
theorem denseRow_span_rounded_out (hround : 2 ^ 64 ≤ r.bytes + 7) :
    readSpan (denseRow r gpu) = ∅ := by
  have hlt := r.bytes_lt
  have hceil : ceilDiv r.bytes 8 = 0 := by
    unfold ceilDiv
    omega
  unfold readSpan
  show Set.Ico _ (_ + ((ceilDiv r.bytes 8 : ℕ) : ℤ)) = _
  rw [hceil]
  simp

theorem begin_mem_sourceSpan (hbytes : r.bytes ≠ 0) : (r.shardOffset : ℤ) ∈ sourceSpan r := by
  unfold sourceSpan
  rw [Set.mem_Ico]
  omega

/-- Consecutive parts of one size tile the range they make up. -/
theorem consecutive_tiles (base size : ℕ) :
    Tiles (Set.Ico (base : ℤ) (base + 8 * size)) ((List.range 8).map fun i : ℕ =>
      Set.Ico (base + i * size : ℤ) (base + i * size + size)) := by
  rw [tiles_range]
  constructor
  · rintro i j hij - x ⟨hx, -⟩ y ⟨hy, -⟩
    have hnext : (i + 1) * size ≤ j * size := Nat.mul_le_mul_right size hij
    rw [Nat.add_mul, Nat.one_mul] at hnext
    zify at hnext
    rw [Set.mem_Ico] at hx hy
    omega
  · intro x hx
    rw [Set.mem_Ico] at hx
    obtain ⟨y, rfl⟩ := Int.le.dest hx.1
    have hy : y < 8 * size := by omega
    have hsize : 0 < size := by omega
    refine ⟨y / size, (Nat.div_lt_iff_lt_mul hsize).mpr hy, ?_⟩
    have hdiv := Nat.div_add_mod' y size
    have hmod := Nat.mod_lt y hsize
    zify at hdiv hmod
    rw [Set.mem_Ico]
    push_cast
    omega

/-- The dense rows read the parts of their source exactly if it is empty, or has a multiple of
eight bytes of which no part begins beyond the address space. -/
theorem denseRows_tile (r : PackRow) :
    Tiles (sourceSpan r) ((List.range 8).map fun gpu => readSpan (denseRow r gpu)) ↔
      r.bytes = 0 ∨ (8 ∣ r.bytes ∧ r.shardOffset + 7 * (r.bytes / 8) < 2 ^ 64) := by
  constructor
  · intro htiles
    rw [tiles_range] at htiles
    obtain ⟨hordered, hcovers⟩ := htiles
    by_cases hbytes : r.bytes = 0
    · exact .inl hbytes
    right
    have hbegin := begin_mem_sourceSpan hbytes
    by_cases hround : 2 ^ 64 ≤ r.bytes + 7
    · obtain ⟨i, -, hi⟩ := hcovers _ hbegin
      rw [denseRow_span_rounded_out hround] at hi
      exact absurd hi (Set.notMem_empty _)
    by_cases hdvd : 8 ∣ r.bytes
    · refine ⟨hdvd, ?_⟩
      by_contra hbeyond
      -- the first byte of the last part is the one that no rank reads
      have hlast : (r.shardOffset + 7 * (r.bytes / 8) : ℤ) ∈ sourceSpan r := by
        unfold sourceSpan
        rw [Set.mem_Ico]
        omega
      obtain ⟨i, hi, hmem⟩ := hcovers _ hlast
      have hlt := r.bytes_lt
      have hoffset := r.shardOffset_lt
      rw [denseRow_span hdvd hi, Set.mem_Ico] at hmem
      rcases Nat.lt_succ_iff_lt_or_eq.mp hi with hbefore | rfl
      · have hnext : (i + 1) * (r.bytes / 8) ≤ 7 * (r.bytes / 8) := Nat.mul_le_mul_right _ hbefore
        rw [Nat.add_mul, Nat.one_mul] at hnext
        have hmod := Nat.mod_le (r.shardOffset + i * (r.bytes / 8)) (2 ^ 64)
        generalize (r.shardOffset + i * (r.bytes / 8)) % 2 ^ 64 = first at hmem hmod
        omega
      · omega
    · have hin : (r.shardOffset : ℤ) ∈ readSpan (denseRow r 0) ∩ sourceSpan r := by
        refine ⟨?_, hbegin⟩
        rw [denseRow_span_undivided hdvd (by omega), Set.mem_Ico]
        omega
      have hin' : (r.shardOffset : ℤ) ∈ readSpan (denseRow r 1) ∩ sourceSpan r := by
        rwa [denseRow_span_undivided hdvd (by omega)] at hin ⊢
      exact absurd (hordered 0 1 (by omega) (by omega) _ hin _ hin') (lt_irrefl _)
  · rintro (hbytes | ⟨hdvd, hwithin⟩)
    · have hempty : sourceSpan r = ∅ := by
        unfold sourceSpan
        rw [hbytes]
        simp
      rw [hempty, tiles_range]
      constructor <;> simp
    · have hspans : (List.range 8).map (fun gpu => readSpan (denseRow r gpu)) =
          (List.range 8).map fun i : ℕ => Set.Ico (r.shardOffset + i * (r.bytes / 8 : ℕ) : ℤ)
            (r.shardOffset + i * (r.bytes / 8 : ℕ) + (r.bytes / 8 : ℕ)) := by
        apply List.map_congr_left
        intro gpu hgpu
        rw [denseRow_span_within hdvd hwithin (List.mem_range.mp hgpu)]
        push_cast
        rfl
      have hsource : sourceSpan r =
          Set.Ico (r.shardOffset : ℤ) (r.shardOffset + 8 * (r.bytes / 8 : ℕ)) := by
        unfold sourceSpan
        congr 2
        omega
      rw [hspans, hsource]
      exact consecutive_tiles r.shardOffset (r.bytes / 8)

end Dense

section Guarded
variable {α β : Type*} {p : α → Prop} [DecidablePred p]

/-- A list of which each element is made under a condition. -/
theorem mapM_guarded (l : List α) (f : α → β) :
    (l.mapM fun a => if p a then some (f a) else none) =
      if ∀ a ∈ l, p a then some (l.map f) else none := by
  induction l with
  | nil => simp
  | cons a l ih =>
    rw [List.mapM_cons, ih]
    by_cases ha : p a
    · by_cases hl : ∀ b ∈ l, p b
      · rw [if_pos ha, if_pos hl, if_pos (List.forall_mem_cons.mpr ⟨ha, hl⟩)]
        rfl
      · rw [if_pos ha, if_neg hl, if_neg fun h => hl (List.forall_mem_cons.mp h).2]
        rfl
    · rw [if_neg ha, if_neg fun h => ha (List.forall_mem_cons.mp h).1]
      rfl

end Guarded

section Experts
variable {r : TmRow} {rows : List ContractRow} {total gpu : ℕ}

theorem expertShare_count_le (total gpu : ℕ) : (expertShare total gpu).2 ≤ ceilDiv total 8 := by
  unfold expertShare
  dsimp only
  split_ifs
  · exact Nat.min_le_right _ _
  · exact Nat.zero_le _

theorem expertShare_of_rounded (hround : total + 7 < 2 ^ 64) (hgpu : gpu < 8) :
    expertShare total gpu =
      (gpu * ((total + 7) / 8), min (total - gpu * ((total + 7) / 8)) ((total + 7) / 8)) := by
  have hceil : ceilDiv total 8 = (total + 7) / 8 := ceilDiv_eq (by omega)
  have hle := Nat.mul_le_mul_right ((total + 7) / 8) (Nat.le_of_lt_succ hgpu)
  have hfirst : gpu * ((total + 7) / 8) % 2 ^ 64 = gpu * ((total + 7) / 8) :=
    Nat.mod_eq_of_lt (by omega)
  unfold expertShare
  dsimp only
  rw [hceil, hfirst]
  split_ifs with hbefore
  · rfl
  · rw [Nat.sub_eq_zero_of_le (by omega), Nat.zero_min]

theorem expertShare_rounded_out (htotal : total < 2 ^ 64) (hround : 2 ^ 64 ≤ total + 7) :
    (expertShare total gpu).2 = 0 := by
  have hceil : ceilDiv total 8 = 0 := by
    unfold ceilDiv
    omega
  have h := expertShare_count_le total gpu
  omega

/-- The first GPU has the largest share. -/
theorem expertShare_zero (htotal : total < 2 ^ 64) :
    (expertShare total 0).2 = ceilDiv total 8 := by
  by_cases hround : total + 7 < 2 ^ 64
  · rw [expertShare_of_rounded hround (by omega), ceilDiv_eq (by omega)]
    dsimp only
    omega
  · rw [expertShare_rounded_out htotal (by omega)]
    unfold ceilDiv
    omega

theorem cut_sum (total size n : ℕ) :
    ((List.range n).map fun i => min (total - i * size) size).sum = min total (n * size) := by
  induction n with
  | zero => simp
  | succ n ih =>
    rw [List.range_succ, List.map_append, List.sum_append, ih, Nat.add_mul, Nat.one_mul]
    simp only [List.map_cons, List.map_nil, List.sum_cons, List.sum_nil]
    omega

theorem expertShares_sum (hround : total + 7 < 2 ^ 64) :
    ((List.range 8).map fun gpu => (expertShare total gpu).2).sum = total := by
  have hshares : (List.range 8).map (fun gpu => (expertShare total gpu).2) =
      (List.range 8).map fun i => min (total - i * ((total + 7) / 8)) ((total + 7) / 8) := by
    apply List.map_congr_left
    intro gpu hgpu
    rw [expertShare_of_rounded hround (List.mem_range.mp hgpu)]
  rw [hshares, cut_sum]
  omega

/-- The tool ends at a row exactly if the size of the first share does not fit. -/
theorem emitTmRow_eq (r : TmRow) : emitTmRow r =
    if ceilDiv r.expertsTotal 8 * ((r.weightPer + r.scalePer) % 2 ^ 64) < 2 ^ 64 then
      some ((List.range 8).map fun gpu => expertRow r gpu
        ((expertShare r.expertsTotal gpu).2 * ((r.weightPer + r.scalePer) % 2 ^ 64)))
    else none := by
  have hguard : emitTmRow r = (List.range 8).mapM fun gpu =>
      if (expertShare r.expertsTotal gpu).2 * ((r.weightPer + r.scalePer) % 2 ^ 64) < 2 ^ 64 then
        some (expertRow r gpu
          ((expertShare r.expertsTotal gpu).2 * ((r.weightPer + r.scalePer) % 2 ^ 64)))
      else none := by
    unfold emitTmRow
    congr 1
    funext gpu
    rw [checkedMul_eq]
    split_ifs <;> rfl
  rw [hguard, mapM_guarded]
  congr 1
  apply propext
  constructor
  · intro hall
    have hzero := hall 0 (by simp)
    rwa [expertShare_zero r.expertsTotal_lt] at hzero
  · intro hfit gpu hgpu
    apply lt_of_le_of_lt _ hfit
    exact Nat.mul_le_mul_right _ (expertShare_count_le _ _)

/-- The ids of a share, where none of its numbers leaves the range of an `int`. -/
theorem expertSpan_within (hround : r.expertsTotal + 7 < 2 ^ 64)
    (hwithin : 7 * ((r.expertsTotal + 7) / 8) < 2 ^ 31) (hgpu : gpu < 8) (bytes : ℕ) :
    expertSpan (expertRow r gpu bytes) =
      Set.Ico (gpu * ((r.expertsTotal + 7) / 8 : ℕ) : ℤ)
        (gpu * ((r.expertsTotal + 7) / 8 : ℕ) +
          (min (r.expertsTotal - gpu * ((r.expertsTotal + 7) / 8))
            ((r.expertsTotal + 7) / 8) : ℕ)) := by
  have hle := Nat.mul_le_mul_right ((r.expertsTotal + 7) / 8) (Nat.le_of_lt_succ hgpu)
  unfold expertSpan expertRow
  dsimp only
  rw [expertShare_of_rounded hround hgpu]
  dsimp only
  rw [toInt_eq_iff.mpr (by omega), toInt_eq_iff.mpr (by omega)]
  push_cast
  rfl

/-- Shares of one size, the last of them cut, tile the ids. -/
theorem shares_tile (total size : ℕ) (hsize : total ≤ 8 * size) :
    Tiles (Set.Ico 0 (total : ℤ)) ((List.range 8).map fun i : ℕ =>
      Set.Ico (i * size : ℤ) (i * size + (min (total - i * size) size : ℕ))) := by
  rw [tiles_range]
  constructor
  · rintro i j hij - x ⟨hx, -⟩ y ⟨hy, -⟩
    have hnext : (i + 1) * size ≤ j * size := Nat.mul_le_mul_right size hij
    rw [Nat.add_mul, Nat.one_mul] at hnext
    zify at hnext
    rw [Set.mem_Ico] at hx hy
    omega
  · intro x hx
    rw [Set.mem_Ico] at hx
    obtain ⟨y, rfl⟩ := Int.eq_ofNat_of_zero_le hx.1
    have hy : y < total := by omega
    have hpos : 0 < size := by omega
    refine ⟨y / size, (Nat.div_lt_iff_lt_mul hpos).mpr (by omega), ?_⟩
    have hdiv := Nat.div_add_mod' y size
    have hmod := Nat.mod_lt y hpos
    have hlow : y / size * size ≤ y := by omega
    have hhigh : y < y / size * size + min (total - y / size * size) size := by omega
    constructor
    · exact_mod_cast hlow
    · exact_mod_cast hhigh

/-- An id that no range of the row reaches: the last one, where an `int` does not hold the
first id of the last share. -/
theorem last_not_in_share (hround : r.expertsTotal + 7 < 2 ^ 64)
    (hbeyond : 2 ^ 31 ≤ 7 * ((r.expertsTotal + 7) / 8)) (hgpu : gpu < 8) (bytes : ℕ) :
    (r.expertsTotal - 1 : ℤ) ∉ expertSpan (expertRow r gpu bytes) := by
  unfold expertSpan expertRow
  dsimp only
  rw [expertShare_of_rounded hround hgpu, Set.mem_Ico]
  dsimp only
  rintro ⟨-, hend⟩
  have hcount := toInt_le
    (min (r.expertsTotal - gpu * ((r.expertsTotal + 7) / 8)) ((r.expertsTotal + 7) / 8))
  have hcount' := toInt_lt
    (min (r.expertsTotal - gpu * ((r.expertsTotal + 7) / 8)) ((r.expertsTotal + 7) / 8))
  have hfirst := toInt_le (gpu * ((r.expertsTotal + 7) / 8))
  have hfirst' := toInt_lt (gpu * ((r.expertsTotal + 7) / 8))
  rcases Nat.lt_succ_iff_lt_or_eq.mp hgpu with hbefore | rfl
  · have hle : gpu * ((r.expertsTotal + 7) / 8) ≤ 6 * ((r.expertsTotal + 7) / 8) :=
      Nat.mul_le_mul_right _ (Nat.le_of_lt_succ hbefore)
    omega
  · have hlost := toInt_beyond hbeyond
    omega

/-- The rows that the tool writes for a TurboMind row where it does not end. -/
def expertRows (r : TmRow) : List ContractRow :=
  (List.range 8).map fun gpu => expertRow r gpu
    ((expertShare r.expertsTotal gpu).2 * ((r.weightPer + r.scalePer) % 2 ^ 64))

theorem expertRows_bytes (hround : r.expertsTotal + 7 < 2 ^ 64) :
    ((expertRows r).map (·.bytesEstimate)).sum =
      r.expertsTotal * ((r.weightPer + r.scalePer) % 2 ^ 64) := by
  have hbytes : (expertRows r).map (·.bytesEstimate) = (List.range 8).map fun gpu =>
      (expertShare r.expertsTotal gpu).2 * ((r.weightPer + r.scalePer) % 2 ^ 64) := by
    unfold expertRows
    rw [List.map_map]
    rfl
  rw [hbytes, List.sum_map_mul_right, expertShares_sum hround]

theorem mem_expertSpans {x : ℤ} :
    (∃ p ∈ (expertRows r).map expertSpan, x ∈ p) ↔ ∃ gpu < 8, x ∈ expertSpan (expertRow r gpu
      ((expertShare r.expertsTotal gpu).2 * ((r.weightPer + r.scalePer) % 2 ^ 64))) := by
  unfold expertRows
  simp only [List.map_map, List.mem_map, List.mem_range, Function.comp]
  constructor
  · rintro ⟨p, ⟨gpu, hgpu, rfl⟩, hx⟩
    exact ⟨gpu, hgpu, hx⟩
  · rintro ⟨gpu, hgpu, hx⟩
    exact ⟨_, ⟨gpu, hgpu, rfl⟩, hx⟩

theorem expertSpans_rounded_out (hround : 2 ^ 64 ≤ r.expertsTotal + 7) (bytes : ℕ) :
    expertSpan (expertRow r gpu bytes) = ∅ := by
  have hnone : toInt (expertShare r.expertsTotal gpu).2 = 0 := by
    rw [expertShare_rounded_out r.expertsTotal_lt hround]
    exact toInt_eq_iff.mpr (by omega)
  unfold expertSpan expertRow
  dsimp only
  rw [hnone, add_zero, Set.Ico_self]

/-- What coverage of the ids says about their number. -/
theorem covered_within
    (hcovers : ∀ x ∈ Set.Ico 0 (r.expertsTotal : ℤ), ∃ p ∈ (expertRows r).map expertSpan, x ∈ p)
    (hsome : r.expertsTotal ≠ 0) :
    r.expertsTotal + 7 < 2 ^ 64 ∧ 7 * ((r.expertsTotal + 7) / 8) < 2 ^ 31 := by
  have hround : r.expertsTotal + 7 < 2 ^ 64 := by
    by_contra hround
    have hpos : 0 < r.expertsTotal := Nat.pos_of_ne_zero hsome
    obtain ⟨gpu, -, hmem⟩ := mem_expertSpans.mp (hcovers 0 (by rw [Set.mem_Ico]; omega))
    rw [expertSpans_rounded_out (by omega)] at hmem
    exact Set.notMem_empty _ hmem
  refine ⟨hround, ?_⟩
  by_contra hbeyond
  obtain ⟨gpu, hgpu, hmem⟩ := mem_expertSpans.mp
    (hcovers (r.expertsTotal - 1) (by rw [Set.mem_Ico]; omega))
  exact last_not_in_share hround (by omega) hgpu _ hmem

theorem expertSpans_within (hround : r.expertsTotal + 7 < 2 ^ 64)
    (hwithin : 7 * ((r.expertsTotal + 7) / 8) < 2 ^ 31) :
    (expertRows r).map expertSpan = (List.range 8).map fun i : ℕ =>
      Set.Ico (i * ((r.expertsTotal + 7) / 8 : ℕ) : ℤ)
        (i * ((r.expertsTotal + 7) / 8 : ℕ) +
          (min (r.expertsTotal - i * ((r.expertsTotal + 7) / 8))
            ((r.expertsTotal + 7) / 8) : ℕ)) := by
  unfold expertRows
  rw [List.map_map]
  apply List.map_congr_left
  intro gpu hgpu
  exact expertSpan_within hround hwithin (List.mem_range.mp hgpu) _

theorem shares_inside (total size : ℕ) (p : Set ℤ)
    (hp : p ∈ (List.range 8).map fun i : ℕ =>
      Set.Ico (i * size : ℤ) (i * size + (min (total - i * size) size : ℕ))) :
    p ⊆ Set.Ico 0 (total : ℤ) := by
  obtain ⟨i, -, rfl⟩ := List.mem_map.mp hp
  intro x hx
  rw [Set.mem_Ico] at hx ⊢
  have hpos : (0 : ℤ) ≤ i * size := by positivity
  have hcast : (i * size : ℤ) = (i * size : ℕ) := by push_cast; rfl
  rw [hcast] at hx hpos
  omega

/-- The rows of a TurboMind row share out its experts exactly if the tool ends before it has
written them, or the ids are few enough for an `int` and the size of an expert fits. -/
theorem expertRows_tile (r : TmRow) : ExpertRowsTile r ↔
    2 ^ 64 ≤ ceilDiv r.expertsTotal 8 * ((r.weightPer + r.scalePer) % 2 ^ 64) ∨
      (7 * ((r.expertsTotal + 7) / 8) < 2 ^ 31 ∧
        (r.expertsTotal = 0 ∨ r.weightPer + r.scalePer < 2 ^ 64)) := by
  unfold ExpertRowsTile
  rw [emitTmRow_eq]
  by_cases hends : 2 ^ 64 ≤ ceilDiv r.expertsTotal 8 * ((r.weightPer + r.scalePer) % 2 ^ 64)
  · rw [if_neg (by omega)]
    constructor
    · intro _
      exact .inl hends
    · intro _ rows hrows
      exact absurd hrows (by simp)
  rw [if_pos (by omega)]
  have hlt := r.expertsTotal_lt
  constructor
  · intro htiles
    obtain ⟨-, ⟨-, hcovers⟩, -, hsum⟩ := htiles _ rfl
    right
    by_cases hsome : r.expertsTotal = 0
    · exact ⟨by omega, .inl hsome⟩
    obtain ⟨hround, hwithin⟩ := covered_within hcovers hsome
    refine ⟨hwithin, .inr ?_⟩
    have hsize := Nat.eq_of_mul_eq_mul_left (by omega) ((expertRows_bytes hround).symm.trans hsum)
    omega
  · rintro (hends' | ⟨hwithin, hsize⟩) rows hrows
    · exact absurd hends' hends
    obtain rfl : expertRows r = rows := Option.some.inj hrows
    have hround : r.expertsTotal + 7 < 2 ^ 64 := by omega
    rw [expertSpans_within hround hwithin]
    refine ⟨by simp [expertRows], shares_tile _ _ (by omega), fun c hc => ?_, ?_⟩
    · apply shares_inside r.expertsTotal ((r.expertsTotal + 7) / 8)
      rw [← expertSpans_within hround hwithin]
      exact List.mem_map_of_mem hc
    · rw [expertRows_bytes hround]
      rcases hsize with hzero | hfits
      · rw [hzero, Nat.zero_mul, Nat.zero_mul]
      · rw [Nat.mod_eq_of_lt hfits]

end Experts

section Contract

theorem emitPackRow_dense {r : PackRow} (hturns : TurnsDense r) :
    emitPackRow r = some ((List.range 8).map (denseRow r)) := by
  obtain ⟨hexpert, hcontrol, hfits⟩ := hturns
  obtain ⟨n, hn⟩ := Option.isSome_iff_exists.mp hfits
  unfold emitPackRow
  rw [hexpert, hcontrol, hn]
  rfl

/-- Only the rows of a tensor that is split are dense rows. -/
theorem turnsDense_of_mem {r : PackRow} {rows : List ContractRow} {c : ContractRow}
    (hrows : emitPackRow r = some rows) (hc : c ∈ rows) (hdense : c.recordType = "dense_tp") :
    TurnsDense r := by
  unfold emitPackRow at hrows
  split_ifs at hrows with hexpert hcontrol
  · obtain rfl := Option.some.inj hrows
    exact absurd hc List.not_mem_nil
  · obtain rfl := Option.some.inj hrows
    obtain ⟨gpu, -, rfl⟩ := List.mem_map.mp hc
    exact absurd hdense (by simp [controlRow])
  · obtain ⟨n, hn, -⟩ := Option.map_eq_some_iff.mp hrows
    exact ⟨by simpa using hexpert, by simpa using hcontrol, by simp [hn]⟩

theorem denseRowsTile_iff (r : PackRow) : DenseRowsTile r ↔ (TurnsDense r →
    r.bytes = 0 ∨ (8 ∣ r.bytes ∧ r.shardOffset + 7 * (r.bytes / 8) < 2 ^ 64)) := by
  rw [← denseRows_tile]
  constructor
  · intro htile hturns
    have hmem : denseRow r 0 ∈ (List.range 8).map (denseRow r) :=
      List.mem_map_of_mem (List.mem_range.mpr (by omega))
    obtain ⟨-, htiles⟩ := htile _ (emitPackRow_dense hturns) ⟨_, hmem, rfl⟩
    rwa [List.map_map] at htiles
  · rintro htiles rows hrows ⟨c, hc, hdense⟩
    have hturns := turnsDense_of_mem hrows hc hdense
    rw [emitPackRow_dense hturns] at hrows
    obtain rfl := Option.some.inj hrows
    refine ⟨by simp, ?_⟩
    rw [List.map_map]
    exact htiles hturns

/-- The rows of the contract tile what they were made from exactly if the length of a dense
tensor is a multiple of the ranks, and the experts of a routed one can be numbered and sized. -/
theorem contract_tiles_iff (p : PackRow) (t : TmRow) :
    (DenseRowsTile p ↔ (TurnsDense p →
      p.bytes = 0 ∨ (8 ∣ p.bytes ∧ p.shardOffset + 7 * (p.bytes / 8) < 2 ^ 64))) ∧
    (ExpertRowsTile t ↔
      2 ^ 64 ≤ ceilDiv t.expertsTotal 8 * ((t.weightPer + t.scalePer) % 2 ^ 64) ∨
        (7 * ((t.expertsTotal + 7) / 8) < 2 ^ 31 ∧
          (t.expertsTotal = 0 ∨ t.weightPer + t.scalePer < 2 ^ 64))) :=
  ⟨denseRowsTile_iff p, expertRows_tile t⟩

/-- A tensor of one block row: 128 values and their scale. -/
def oneBlockRow : PackRow where
  semantic := "blk.0.attn_kv.weight"
  source := "blk.0.attn_kv.weight"
  dtype := "f8_e4m3_b128"
  shape := "[128x1]"
  dims := some (128, 1)
  layout := "source_f8_e4m3_b128"
  layer := 0
  kernel := "attention"
  bytes := 129
  shardFile := "gpu0.bin"
  shardOffset := 4096
  bytes_lt := by norm_num
  shardOffset_lt := by norm_num

theorem oneBlockRow_dense : TurnsDense oneBlockRow := by
  refine ⟨?_, ?_, ?_⟩
  · decide
  · decide
  · decide

/-- Every rank reads the first seventeen of its 129 bytes. -/
theorem oneBlockRow_overlaps : ¬ DenseRowsTile oneBlockRow ∧
    ∀ gpu < 8, readSpan (denseRow oneBlockRow gpu) = Set.Ico 4096 4113 := by
  constructor
  · rw [denseRowsTile_iff]
    intro htiles
    rcases htiles oneBlockRow_dense with hzero | ⟨hdvd, -⟩
    · exact absurd hzero (by decide)
    · exact absurd hdvd (by decide)
  · intro gpu _
    rw [denseRow_span_undivided (by decide) (by decide)]
    norm_num [oneBlockRow]

end Contract

end Ds4.Tp
