import Ds4.Memory.Contents
import Ds4.Memory.ToolMapWalk

/-! What the tool map of a transcript holds, and how far a section of records is read. -/
namespace Ds4.Memory
open ToolMemory

section Saved
variable {m : ToolMemory} {order blocks : List ℕ} {text : Bytes}

theorem mem_savedBlocks (m : ToolMemory) (ts : List Bytes) : ∀ (visited : List ℕ) (b : ℕ),
    b ∈ savedBlocks m visited ts ↔ b ∉ visited ∧ ∃ t ∈ ts, m.findBlock t = some b := by
  induction ts with
  | nil =>
    intro visited b
    simp [savedBlocks]
  | cons t ts ih =>
    intro visited b
    rw [savedBlocks]
    cases hfind : m.findBlock t with
    | none =>
      simp only
      rw [ih]
      simp [hfind]
    | some c =>
      simp only
      split_ifs with hc
      · rw [ih]
        constructor
        · rintro ⟨hb, t', ht', hf⟩
          exact ⟨hb, t', List.mem_cons_of_mem t ht', hf⟩
        · rintro ⟨hb, t', ht', hf⟩
          rcases List.mem_cons.1 ht' with rfl | ht'
          · rw [hfind] at hf
            exact absurd (Option.some.inj hf ▸ hc) hb
          · exact ⟨hb, t', ht', hf⟩
      · rw [List.mem_cons, ih]
        constructor
        · rintro (rfl | ⟨hb, t', ht', hf⟩)
          · exact ⟨hc, t, List.mem_cons_self, hfind⟩
          · exact ⟨fun h => hb (List.mem_cons_of_mem c h), t', List.mem_cons_of_mem t ht', hf⟩
        · rintro ⟨hb, t', ht', hf⟩
          by_cases hbc : b = c
          · exact Or.inl hbc
          · refine Or.inr ⟨?_, ?_⟩
            · intro h
              exact (List.mem_cons.1 h).elim hbc hb
            · rcases List.mem_cons.1 ht' with rfl | ht'
              · rw [hfind] at hf
                exact absurd (Option.some.inj hf).symm hbc
              · exact ⟨t', ht', hf⟩

theorem savedBlocks_nodup (m : ToolMemory) (ts : List Bytes) : ∀ visited : List ℕ,
    (savedBlocks m visited ts).Nodup := by
  induction ts with
  | nil => exact fun _ => List.nodup_nil
  | cons t ts ih =>
    intro visited
    rw [savedBlocks]
    cases m.findBlock t with
    | none => exact ih visited
    | some b =>
      simp only
      split_ifs
      · exact ih visited
      · rw [List.nodup_cons]
        refine ⟨?_, ih _⟩
        rw [mem_savedBlocks]
        exact fun h => h.1 List.mem_cons_self

theorem mem_chain (h : Represents m order blocks) {a b : ℕ} (hb : b ∈ blocks) :
    a ∈ (m.block b).entries ↔ a ∈ order ∧ (m.entry a).block = b := by
  rw [(h.chain b hb).mem_iff, List.mem_filter, decide_eq_true_iff]

/-- What is saved: the ids whose text is one of the blocks of the transcript. -/
theorem mem_savedPairs (h : Represents m order blocks) (text id dsml : Bytes) :
    (id, dsml) ∈ savedPairs m text ↔ m.text id = some dsml ∧ dsml ∈ toolBlocks text := by
  have hfind : ∀ t b, m.findBlock t = some b ↔ b ∈ blocks ∧ (m.block b).dsml = t := by
    intro t b
    rw [← h.byBlock, ToolMemory.findBlock]
    split_ifs with ht
    · apply iff_of_false (by simp)
      intro hb
      obtain ⟨hmem, hd⟩ := (h.byBlock t b).1 hb
      exact (h.text_ok b hmem).1 (hd.trans ht)
    · rfl
  unfold savedPairs pairsOf
  simp only [List.mem_flatMap, mem_savedBlocks, List.mem_map, hfind]
  rw [text_some h]
  constructor
  · rintro ⟨b, ⟨-, t, ht, hb, rfl⟩, a, ha, hpair⟩
    obtain ⟨rfl, rfl⟩ := Prod.mk.inj hpair
    obtain ⟨horder, rfl⟩ := (mem_chain h hb).1 ha
    exact ⟨⟨a, horder, rfl, rfl⟩, ht⟩
  · rintro ⟨⟨a, ha, rfl, rfl⟩, hmem⟩
    have hb := h.owner a ha
    exact ⟨_, ⟨List.not_mem_nil, _, hmem, hb, rfl⟩, a, (mem_chain h hb).2 ⟨ha, rfl⟩, rfl⟩

/-- No id is saved twice. -/
theorem savedPairs_ids (h : Represents m order blocks) (text : Bytes) :
    ((savedPairs m text).map Prod.fst).Nodup := by
  have hmem : ∀ b ∈ savedBlocks m [] (toolBlocks text), b ∈ blocks := by
    intro b hb
    obtain ⟨-, t, -, hf⟩ := (mem_savedBlocks m _ [] b).1 hb
    exact ((h.byBlock t b).1 (findBlock_byBlock hf)).1
  unfold savedPairs
  rw [List.map_flatMap, List.nodup_flatMap]
  constructor
  · intro b hb
    have hchain := h.chain b (hmem b hb)
    have hnd : (m.block b).entries.Nodup := hchain.nodup_iff.2 (h.lru.nodup.filter _)
    unfold pairsOf
    rw [List.map_map]
    apply List.Nodup.map_on _ hnd
    intro x hx y hy hxy
    exact entry_inj h ((mem_chain h (hmem b hb)).1 hx).1 ((mem_chain h (hmem b hb)).1 hy).1 hxy
  · apply (savedBlocks_nodup m (toolBlocks text) []).imp_of_mem
    intro b c hb hc hbc
    unfold pairsOf
    simp only [Function.onFun, List.disjoint_left, List.mem_map, List.map_map, Function.comp]
    rintro id ⟨x, hx, rfl⟩ ⟨y, hy, hxy⟩
    obtain ⟨hxo, hxb⟩ := (mem_chain h (hmem b hb)).1 hx
    obtain ⟨hyo, hyc⟩ := (mem_chain h (hmem c hc)).1 hy
    have heq := entry_inj h hyo hxo hxy
    rw [heq, hxb] at hyc
    exact hbc hyc

end Saved

section Records
variable {r : Bytes × Bytes} {rs : List (Bytes × Bytes)} {s tail : Bytes}

/-- A record the loader takes. -/
def InRange (r : Bytes × Bytes) : Prop :=
  (r.1 ≠ [] ∧ r.1.length ≤ 256) ∧ r.2 ≠ [] ∧ r.2.length ≤ toolMemoryMaxBytesDefault

/-- What cannot be read as a record: too short for it, or with lengths out of range. -/
def Broken (s : Bytes) : Prop :=
  s.length < 8 ∨
    (leGet (s.take 4) = 0 ∨ 256 < leGet (s.take 4) ∨ leGet ((s.drop 4).take 4) = 0 ∨
      toolMemoryMaxBytesDefault < leGet ((s.drop 4).take 4)) ∨
    s.length < 8 + leGet (s.take 4) + leGet ((s.drop 4).take 4)

theorem readRecord_none (h : Broken s) : readRecord s = none := by
  unfold readRecord
  simp only [List.length_drop]
  rcases h with h | h | h
  · rw [if_pos h]
  · split_ifs
    · rfl
    · rfl
  · split_ifs
    · rfl
    · rfl
    · rfl
    · omega

theorem encodeRecord_split (r : Bytes × Bytes) (s : Bytes) :
    (encodeRecord r ++ s).take 4 = lePut32 r.1.length ∧
      ((encodeRecord r ++ s).drop 4).take 4 = lePut32 r.2.length ∧
      (encodeRecord r ++ s).drop 8 = r.1 ++ r.2 ++ s := by
  have h₁ : (lePut32 r.1.length).length = 4 := length_lePut 4 _
  have h₂ : (lePut32 r.2.length).length = 4 := length_lePut 4 _
  unfold encodeRecord
  refine ⟨?_, ?_, ?_⟩
  · simp only [List.append_assoc]
    exact List.take_left' h₁
  · simp only [List.append_assoc]
    rw [List.drop_left' h₁]
    exact List.take_left' h₂
  · simp only [List.append_assoc]
    rw [← List.append_assoc, List.drop_left' (by rw [List.length_append, h₁, h₂])]

theorem InRange.widths (h : InRange r) : r.1.length < 2 ^ 32 ∧ r.2.length < 2 ^ 32 := by
  obtain ⟨⟨-, hid⟩, -, hd⟩ := h
  rw [toolMemoryMaxBytesDefault] at hd
  omega

/-- A record is read back, up to where it ends. -/
theorem readRecord_encode (h : InRange r) (s : Bytes) :
    readRecord (encodeRecord r ++ s) = some (r, s) := by
  obtain ⟨hw₁, hw₂⟩ := h.widths
  obtain ⟨hid, hdsml, hbody⟩ := encodeRecord_split r s
  obtain ⟨⟨hne₁, hid256⟩, hne₂, hmax⟩ := h
  have hpos₁ := List.length_pos_iff.2 hne₁
  have hpos₂ := List.length_pos_iff.2 hne₂
  have hlen := length_encodeRecord r
  unfold recordBytes at hlen
  unfold readRecord
  rw [hid, hdsml, hbody, leGet_lePut32 hw₁, leGet_lePut32 hw₂]
  simp only [List.length_append, hlen]
  rw [if_neg (by omega), if_neg (by omega), if_neg (by omega)]
  simp [List.append_assoc]

/-- Texts put one after the other. -/
def putAll (source : Source) (m : ToolMemory) (rs : List (Bytes × Bytes)) : ToolMemory :=
  rs.foldl (fun m r => m.put r.1 r.2 source) m

/-- Whole records are put; the loader stops behind their number or at what it cannot read. -/
theorem loadRecords_encode (rs : List (Bytes × Bytes)) : ∀ (m : ToolMemory) (count n : ℕ),
    (∀ r ∈ rs, InRange r) → (count = rs.length ∨ rs.length ≤ count ∧ Broken tail) →
    (loadRecords none count m n (rs.flatMap encodeRecord ++ tail)).1 = putAll .disk m rs := by
  induction rs with
  | nil =>
    intro m count n _ hcount
    cases count with
    | zero => rfl
    | succ count =>
      obtain ⟨-, hbroken⟩ := hcount.resolve_left (Nat.succ_ne_zero count)
      rw [List.flatMap_nil, List.nil_append, loadRecords, readRecord_none hbroken]
      rfl
  | cons r rs ih =>
    intro m count n hr hcount
    rw [List.length_cons] at hcount
    obtain ⟨count, rfl⟩ : ∃ c, count = c + 1 := ⟨count - 1, by omega⟩
    rw [List.flatMap_cons, List.append_assoc, loadRecords,
      readRecord_encode (hr r List.mem_cons_self)]
    apply ih (m.put r.1 r.2 .disk) count (n + 1) fun x hx => hr x (List.mem_cons_of_mem r hx)
    exact hcount.imp Nat.succ.inj (And.imp_left Nat.le_of_succ_le_succ)

end Records

end Ds4.Memory
