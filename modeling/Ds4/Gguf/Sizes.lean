import Ds4.Gguf.Safety

/-! When the byte length of a tensor is the length of its blocks, and when a loaded directory
is safe. -/
namespace Ds4.Gguf
open State

/-- Blocks of the table hold something. -/
theorem tensorType_blocks {type : ℕ} {info : TypeInfo} (h : tensorType type = some info) :
    0 < info.blockElems ∧ 0 < info.blockBytes ∧ info.blockElems ≤ 256 := by
  unfold tensorType at h
  split at h <;> cases h <;> norm_num

/-- The true byte length of so many elements. -/
def blockLength (info : TypeInfo) (elements : ℕ) : ℕ :=
  elements ⌈/⌉ info.blockElems * info.blockBytes

/-- Neither the rounding up nor the byte length reaches 2^64. -/
def FitsU64 (info : TypeInfo) (elements : ℕ) : Prop :=
  elements + info.blockElems - 1 < 2 ^ 64 ∧ blockLength info elements < 2 ^ 64

section Lengths
variable {type elements : ℕ} {info : TypeInfo}

/-- Where the rounding up wraps, no block is left. -/
theorem wrapped_blocks (hi : tensorType type = some info) (he : elements < 2 ^ 64)
    (hw : 2 ^ 64 ≤ elements + info.blockElems - 1) :
    u64 (elements + info.blockElems - 1) / info.blockElems = 0 := by
  have hb := tensorType_blocks hi
  have hmod : u64 (elements + info.blockElems - 1) =
      elements + info.blockElems - 1 - 2 ^ 64 := by
    rw [u64, Nat.mod_eq_sub_mod hw, Nat.mod_eq_of_lt (by omega)]
  rw [hmod]
  exact Nat.div_eq_of_lt (by omega)

theorem tensorNbytes_wrapped (hi : tensorType type = some info) (he : elements < 2 ^ 64)
    (hw : 2 ^ 64 ≤ elements + info.blockElems - 1) :
    (tensorNbytes type elements).getD 0 = 0 := by
  have hb := tensorType_blocks hi
  simp only [tensorNbytes, hi, if_neg hb.1.ne', wrapped_blocks hi he hw, Nat.not_lt_zero,
    ↓reduceIte, Nat.zero_mul, Option.getD_some]
  rfl

theorem tensorNbytes_unwrapped (hi : tensorType type = some info)
    (hw : elements + info.blockElems - 1 < 2 ^ 64) :
    (tensorNbytes type elements).getD 0 =
      if blockLength info elements < 2 ^ 64 then blockLength info elements else 0 := by
  have hb := tensorType_blocks hi
  have hblocks : u64 (elements + info.blockElems - 1) / info.blockElems =
      elements ⌈/⌉ info.blockElems := by
    rw [u64, Nat.mod_eq_of_lt hw, Nat.ceilDiv_eq_add_pred_div]
  have hfit : maxU64 / info.blockBytes < elements ⌈/⌉ info.blockElems ↔
      ¬blockLength info elements < 2 ^ 64 := by
    rw [Nat.div_lt_iff_lt_mul hb.2.1, blockLength, maxU64]
    omega
  simp only [tensorNbytes, hi, if_neg hb.1.ne', hblocks, hfit]
  by_cases hl : blockLength info elements < 2 ^ 64
  · rw [if_neg (not_not.2 hl), if_pos hl]
    exact Nat.mod_eq_of_lt hl
  · rw [if_pos hl, if_neg hl]
    rfl

/-- The computed byte length is the true one exactly when nothing wraps. -/
theorem tensorNbytes_exact_iff (hi : tensorType type = some info) (he : elements < 2 ^ 64) :
    (tensorNbytes type elements).getD 0 = blockLength info elements ↔ FitsU64 info elements := by
  have hb := tensorType_blocks hi
  by_cases hw : elements + info.blockElems - 1 < 2 ^ 64
  · rw [tensorNbytes_unwrapped hi hw]
    by_cases hl : blockLength info elements < 2 ^ 64
    · rw [if_pos hl]
      exact iff_of_true rfl ⟨hw, hl⟩
    · rw [if_neg hl]
      apply iff_of_false
      · omega
      · exact fun h => hl h.2
  · rw [tensorNbytes_wrapped hi he (not_lt.1 hw)]
    apply iff_of_false
    · have hceil : 0 < elements ⌈/⌉ info.blockElems := by
        rw [Nat.ceilDiv_eq_add_pred_div]
        exact Nat.div_pos (by omega) hb.1
      exact (Nat.mul_pos hceil hb.2.1).ne
    · exact fun h => hw h.1

end Lengths

section Load
variable (calloc : ℕ → ℕ → Bool) (file : MappedFile)

/-- The cursor at the end of the loading, accepted or not. -/
def loadCursor : Cursor :=
  match modelOpen calloc file startCursor with
  | .ok _ c => c
  | .error _ c => c

/-- The model of an accepted file. -/
def loadModel : Option Model :=
  match modelOpen calloc file startCursor with
  | .ok m _ => some m
  | .error _ _ => none

/-- A tensor of a known type has the byte length of its blocks, all inside the file. -/
def TensorSafe (t : Tensor) : Prop :=
  ∀ info, tensorType t.type = some info →
    t.bytes = blockLength info t.dim.prod ∧ ∀ i < t.bytes, t.absOffset + i < file.size

/-- Loading reads inside the file only, in at most as many reads as it has bytes, and accepts
only well-formed files with safe tensors. -/
structure DirectorySafe : Prop where
  reads : ∀ r ∈ (loadCursor calloc file).reads, r.start + r.len ≤ file.size
  ends : (loadCursor calloc file).reads.length ≤ file.size
  accepted : ∀ m, loadModel calloc file = some m →
    Accepted file m ∧ ∀ t ∈ m.tensors, TensorSafe file t

/-- No entry of the directory has dimensions whose elements, rounded up to blocks, or whose
byte length reach 2^64. -/
def SizesFit : Prop :=
  ∀ m, loadModel calloc file = some m → ∀ t ∈ m.tensors,
    ∀ info, tensorType t.type = some info → FitsU64 info t.dim.prod

theorem loadCursor_inside : Inside file 0 (loadCursor calloc file) := by
  have h := modelOpen_wp calloc file
  unfold wp at h
  unfold loadCursor
  cases hr : modelOpen calloc file startCursor with
  | ok m c =>
    rw [hr] at h
    exact h.2
  | error e c =>
    rw [hr] at h
    exact h

theorem loadModel_accepted {m : Model} (h : loadModel calloc file = some m) :
    Accepted file m := by
  have hwp := modelOpen_wp calloc file
  unfold loadModel at h
  unfold wp at hwp
  cases hr : modelOpen calloc file startCursor with
  | ok m' c =>
    rw [hr] at h hwp
    rw [← Option.some.inj h]
    exact hwp.1
  | error e c =>
    rw [hr] at h
    cases h

/-- The tensors of an accepted file are safe as far as their sizes fit. -/
theorem tensorSafe_iff {m : Model} (h : Accepted file m) {t : Tensor} (ht : t ∈ m.tensors) :
    TensorSafe file t ↔
      ∀ info, tensorType t.type = some info → FitsU64 info t.dim.prod := by
  obtain ⟨kvEnd, dirEnd, -, hts, -, -⟩ := h.directory
  obtain ⟨p, q, hat⟩ := hts.mem t ht
  have hplaced := h.placed t ht
  apply forall_congr'
  intro info
  apply imp_congr_right
  intro hi
  have hlt : t.dim.prod < 2 ^ 64 := hat.elements ▸ hat.elements_lt
  have hbytes : t.bytes = (tensorNbytes t.type t.dim.prod).getD 0 := by
    rw [hat.bytes, hat.elements]
  rw [← tensorNbytes_exact_iff hi hlt, ← hbytes]
  constructor
  · exact fun hs => hs.1
  · intro hb
    refine ⟨hb, ?_⟩
    intro i hlti
    have hin := hplaced.inside (by omega)
    omega

/-- Loading a file is safe exactly when no size of its directory wraps or overflows; its
reads are inside the file in any case. -/
theorem directorySafe_iff : DirectorySafe calloc file ↔ SizesFit calloc file := by
  have hin := loadCursor_inside calloc file
  constructor
  · intro h m hm t ht
    exact (tensorSafe_iff file (h.accepted m hm).1 ht).1 ((h.accepted m hm).2 t ht)
  · intro h
    refine ⟨hin.spans, hin.room.trans hin.pos_le, ?_⟩
    intro m hm
    have hacc := loadModel_accepted calloc file hm
    exact ⟨hacc, fun t ht => (tensorSafe_iff file hacc ht).2 (h m hm t ht)⟩

end Load

/-- One q8_0 tensor of 2^64 - 1 elements. -/
def hugeTensorFile : MappedFile where
  bytes := [71, 71, 85, 70, 3, 0, 0, 0, 1, 0, 0, 0, 0, 0, 0, 0, 0, 0, 0, 0, 0, 0, 0, 0,
    1, 0, 0, 0, 0, 0, 0, 0, 116, 1, 0, 0, 0, 255, 255, 255, 255, 255, 255, 255, 255,
    8, 0, 0, 0, 0, 0, 0, 0, 0, 0, 0, 0]
  fits := by norm_num

/-- The loader takes it for a tensor without bytes. -/
theorem hugeTensorFile_unsafe : ¬DirectorySafe (fun _ _ => true) hugeTensorFile := by
  have hload : loadModel (fun _ _ => true) hugeTensorFile = some
      ⟨3, 32, 64, [], [⟨⟨32, 1⟩, 1, [2 ^ 64 - 1], 8, 0, 64, 2 ^ 64 - 1, 0⟩]⟩ := by rfl
  intro h
  have hsafe := (h.accepted _ hload).2 _ List.mem_cons_self _ rfl
  exact absurd hsafe.1 (by decide)

end Ds4.Gguf
