import Ds4.Memory.Put
import Ds4.Memory.ToolMap

/-! The two walks over the blocks of a transcript visit the same entries. -/
namespace Ds4.Memory
open ToolMemory

/-- The blocks of the texts that the memory has, each at its first place. -/
def savedBlocks (m : ToolMemory) : List ℕ → List Bytes → List ℕ
  | _, [] => []
  | visited, t :: ts =>
      match m.findBlock t with
      | none => savedBlocks m visited ts
      | some b =>
          if b ∈ visited then savedBlocks m visited ts
          else b :: savedBlocks m (b :: visited) ts

/-- The ids of a block and its text. -/
def pairsOf (m : ToolMemory) (b : ℕ) : List (Bytes × Bytes) :=
  (m.block b).entries.map fun a => ((m.entry a).id, (m.block b).dsml)

/-- What a section holds, record by record. -/
def savedPairs (m : ToolMemory) (text : Bytes) : List (Bytes × Bytes) :=
  (savedBlocks m [] (toolBlocks text)).flatMap (pairsOf m)

/-- A record whose lengths have 32 bits. -/
def Fits (r : Bytes × Bytes) : Prop := r.1.length ≤ maxU32 ∧ r.2.length ≤ maxU32

instance (r : Bytes × Bytes) : Decidable (Fits r) := by
  unfold Fits
  infer_instance

/-- One record of the measure. -/
def countPair (acc : Option (ℕ × ℕ)) (r : Bytes × Bytes) : Option (ℕ × ℕ) :=
  match acc with
  | none => none
  | some (count, bytes) =>
      if Fits r then
        if count = maxU32 then none
        else if maxU64 - bytes < 8 ∨ maxU64 - bytes - 8 < r.1.length ∨
            maxU64 - bytes - 8 - r.1.length < r.2.length then none
        else some (count + 1, bytes + (8 + r.1.length + r.2.length))
      else some (count, bytes)

/-- One record of the writing. -/
def writePair (out : Bytes) (r : Bytes × Bytes) : Bytes :=
  if Fits r then out ++ encodeRecord r else out

/-- A memory in a scan: the blocks visited are the ones with the mark of the scan. -/
structure Marked (m mm : ToolMemory) (scan : ℕ) (visited : List ℕ) : Prop where
  byBlock : mm.byBlock = m.byBlock
  entry : mm.entry = m.entry
  same : ∀ b, (mm.block b).dsml = (m.block b).dsml ∧ (mm.block b).entries = (m.block b).entries
  seen : ∀ t b, m.byBlock t = some b → ((mm.block b).seen = scan ↔ b ∈ visited)
  bound : ∀ t b, m.byBlock t = some b → (mm.block b).seen ≤ scan
  clock : mm.scanClock = scan

section Walk
variable {m mm : ToolMemory} {scan b : ℕ} {visited : List ℕ}

theorem Marked.findBlock (h : Marked m mm scan visited) : mm.findBlock = m.findBlock := by
  funext t
  unfold ToolMemory.findBlock
  rw [h.byBlock]

theorem findBlock_byBlock {t : Bytes} (h : m.findBlock t = some b) : m.byBlock t = some b := by
  unfold ToolMemory.findBlock at h
  split_ifs at h
  exact h

/-- A new scan has visited nothing yet. -/
theorem Marked.start (hbyBlock : mm.byBlock = m.byBlock) (hentry : mm.entry = m.entry)
    (hsame : ∀ b, (mm.block b).dsml = (m.block b).dsml ∧
      (mm.block b).entries = (m.block b).entries)
    (hold : ∀ t b, m.byBlock t = some b → (mm.block b).seen < mm.scanClock) :
    Marked m mm mm.scanClock [] where
  byBlock := hbyBlock
  entry := hentry
  same := hsame
  seen := by
    intro t b hb
    have hlt := hold t b hb
    simp [hlt.ne]
  bound := fun t b hb => (hold t b hb).le
  clock := rfl

theorem Marked.mark (h : Marked m mm scan visited) (b : ℕ) :
    Marked m (mm.mark b scan) scan (b :: visited) where
  byBlock := h.byBlock
  entry := h.entry
  same := by
    intro c
    rw [← (h.same c).1, ← (h.same c).2]
    by_cases hc : c = b
    · subst hc
      simp [ToolMemory.mark]
    · simp [ToolMemory.mark, Function.update_of_ne hc]
  seen := by
    intro t c hfound
    by_cases hc : c = b
    · subst hc
      simp [ToolMemory.mark]
    · simp only [ToolMemory.mark, Function.update_of_ne hc, List.mem_cons, hc, false_or]
      exact h.seen t c hfound
  bound := by
    intro t c hfound
    by_cases hc : c = b
    · subst hc
      simp [ToolMemory.mark]
    · simp only [ToolMemory.mark, Function.update_of_ne hc]
      exact h.bound t c hfound
  clock := h.clock

theorem Marked.fields (h : Marked m mm scan visited) (b a : ℕ) :
    ((mm.entry a).id, (mm.block b).dsml) = ((m.entry a).id, (m.block b).dsml) := by
  rw [h.entry, (h.same b).1]

theorem fits_iff (r : Bytes × Bytes) :
    Fits r ↔ ¬ (maxU32 < r.1.length ∨ maxU32 < r.2.length) := by
  unfold Fits
  omega

theorem Marked.measureEntries (h : Marked m mm scan visited) (b : ℕ) (acc : Option (ℕ × ℕ)) :
    (mm.block b).entries.foldl (mm.measureEntry b) acc = (pairsOf m b).foldl countPair acc := by
  rw [pairsOf, List.foldl_map, (h.same b).2]
  congr 1
  funext acc a
  unfold measureEntry countPair fieldLengths
  rw [h.entry, (h.same b).1]
  cases acc with
  | none => rfl
  | some n =>
    by_cases hr : Fits ((m.entry a).id, (m.block b).dsml)
    · simp only [if_pos hr, if_neg ((fits_iff _).1 hr)]
    · simp only [if_neg hr, if_pos (not_not.1 fun h => hr ((fits_iff _).2 h))]

theorem Marked.writeEntries (h : Marked m mm scan visited) (b : ℕ) (out : Bytes) :
    (mm.block b).entries.foldl (mm.writeEntry b) out = (pairsOf m b).foldl writePair out := by
  rw [pairsOf, List.foldl_map, (h.same b).2]
  congr 1
  funext out a
  unfold writeEntry writePair fieldLengths
  rw [h.entry, (h.same b).1]
  by_cases hr : Fits ((m.entry a).id, (m.block b).dsml)
  · simp only [if_pos hr, if_neg ((fits_iff _).1 hr)]
  · simp only [if_neg hr, if_pos (not_not.1 fun h => hr ((fits_iff _).2 h))]

theorem countPair_none (rs : List (Bytes × Bytes)) : rs.foldl countPair none = none := by
  induction rs with
  | nil => rfl
  | cons r rs ih => exact ih

/-- The measure counts the records of the blocks that are still to be visited. -/
theorem measureWalk_eq (ts : List Bytes) : ∀ (mm : ToolMemory) (visited : List ℕ) (acc : ℕ × ℕ),
    Marked m mm scan visited →
    (measureWalk scan mm ts acc).2 =
        ((savedBlocks m visited ts).flatMap (pairsOf m)).foldl countPair (some acc) ∧
      ∃ visited', Marked m (measureWalk scan mm ts acc).1 scan visited' := by
  induction ts with
  | nil =>
    intro mm visited acc h
    exact ⟨rfl, visited, h⟩
  | cons t ts ih =>
    intro mm visited acc h
    rw [measureWalk, savedBlocks, h.findBlock]
    cases hfind : m.findBlock t with
    | none => exact ih mm visited acc h
    | some b =>
      simp only
      by_cases hseen : (mm.block b).seen = scan
      · rw [if_pos hseen, if_pos ((h.seen t b (findBlock_byBlock hfind)).1 hseen)]
        exact ih mm visited acc h
      · have hnew : b ∉ visited := fun hv => hseen ((h.seen t b (findBlock_byBlock hfind)).2 hv)
        have hmark := h.mark b
        rw [if_neg hseen, if_neg hnew, List.flatMap_cons, List.foldl_append,
          hmark.measureEntries b (some acc)]
        cases hcount : (pairsOf m b).foldl countPair (some acc) with
        | none => exact ⟨(countPair_none _).symm, _, hmark⟩
        | some acc' => exact ih _ _ acc' hmark

/-- The writing writes them. -/
theorem writeWalk_eq (ts : List Bytes) : ∀ (mm : ToolMemory) (visited : List ℕ) (out : Bytes),
    Marked m mm scan visited →
    (writeWalk scan mm ts out).2 =
      ((savedBlocks m visited ts).flatMap (pairsOf m)).foldl writePair out := by
  induction ts with
  | nil =>
    intro mm visited out h
    rfl
  | cons t ts ih =>
    intro mm visited out h
    rw [writeWalk, savedBlocks, h.findBlock]
    cases hfind : m.findBlock t with
    | none => exact ih mm visited out h
    | some b =>
      simp only
      by_cases hseen : (mm.block b).seen = scan
      · rw [if_pos hseen, if_pos ((h.seen t b (findBlock_byBlock hfind)).1 hseen)]
        exact ih mm visited out h
      · have hnew : b ∉ visited := fun hv => hseen ((h.seen t b (findBlock_byBlock hfind)).2 hv)
        have hmark := h.mark b
        rw [if_neg hseen, if_neg hnew, List.flatMap_cons, List.foldl_append,
          hmark.writeEntries b out]
        exact ih _ _ _ hmark

end Walk

section Counts
variable {rs : List (Bytes × Bytes)}

def recordBytes (r : Bytes × Bytes) : ℕ := 8 + r.1.length + r.2.length

theorem length_encodeRecord (r : Bytes × Bytes) : (encodeRecord r).length = recordBytes r := by
  unfold encodeRecord recordBytes lePut32
  simp only [List.length_append, length_lePut]

theorem foldl_writePair (rs : List (Bytes × Bytes)) : ∀ out : Bytes,
    rs.foldl writePair out = out ++ (rs.filter fun r => Fits r).flatMap encodeRecord := by
  induction rs with
  | nil =>
    intro out
    simp
  | cons r rs ih =>
    intro out
    rw [List.foldl_cons, ih, writePair]
    by_cases hr : Fits r <;> simp [hr]

/-- A measure that does not fail is the number of records and their bytes. -/
theorem foldl_countPair (rs : List (Bytes × Bytes)) : ∀ acc n : ℕ × ℕ,
    rs.foldl countPair (some acc) = some n →
    n = (acc.1 + (rs.filter fun r => Fits r).length,
      acc.2 + ((rs.filter fun r => Fits r).map recordBytes).sum) ∧
      (acc.1 ≤ maxU32 → n.1 ≤ maxU32) := by
  induction rs with
  | nil =>
    intro acc n h
    obtain rfl := Option.some.inj h
    simp
  | cons r rs ih =>
    intro acc n h
    rw [List.foldl_cons, countPair] at h
    by_cases hr : Fits r
    · simp only [if_pos hr] at h
      split_ifs at h with hfull hover
      · rw [countPair_none] at h
        cases h
      · rw [countPair_none] at h
        cases h
      · obtain ⟨hn, hle⟩ := ih _ n h
        constructor
        · rw [hn]
          simp only [hr, decide_true, List.filter_cons_of_pos, List.length_cons, List.map_cons,
            List.sum_cons, recordBytes, Prod.mk.injEq]
          omega
        · intro hacc
          apply hle
          simp only
          omega
    · simp only [if_neg hr] at h
      have hfilter : (r :: rs).filter (fun r => Fits r) = rs.filter fun r => Fits r := by
        simp [hr]
      rw [hfilter]
      exact ih acc n h

/-- The measure does not fail on counts that stay in their widths. -/
theorem countPair_succeeds (rs : List (Bytes × Bytes)) : ∀ acc : ℕ × ℕ,
    acc.1 + rs.length ≤ maxU32 → acc.2 + (rs.map recordBytes).sum ≤ maxU64 →
    ∃ n, rs.foldl countPair (some acc) = some n := by
  induction rs with
  | nil => exact fun acc _ _ => ⟨acc, rfl⟩
  | cons r rs ih =>
    intro acc hcount hbytes
    rw [List.length_cons] at hcount
    rw [List.map_cons, List.sum_cons, recordBytes] at hbytes
    rw [List.foldl_cons, countPair]
    split_ifs with hr hfull hover
    · omega
    · omega
    · apply ih
      · simp only
        omega
      · simp only
        omega
    · apply ih
      · omega
      · omega

end Counts

end Ds4.Memory
