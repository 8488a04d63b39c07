import Ds4.Memory.Recency
import Ds4.Memory.ToolBlocks
import Ds4.Memory.ToolMapRecords
import Mathlib.Algebra.Group.Action.Defs

/-! The tool map round trip: what is written is as long as it was measured, and what is read back
is what was saved. -/
namespace Ds4.Memory
open ToolMemory

section Restore
variable {m m' : ToolMemory} {order blocks order' blocks' : List ℕ} {rs : List (Bytes × Bytes)}

/-- A memory that holds these texts and nothing else, within the limits of another one. -/
structure Restored (m m' : ToolMemory) (rs : List (Bytes × Bytes)) : Prop where
  sound : ∃ order blocks, Sound m' order blocks
  text : ∀ id dsml, m'.text id = some dsml ↔ (id, dsml) ∈ rs
  limits : m'.entryLimit = m.entryLimit ∧ m'.byteLimit = m.byteLimit

theorem empty_restored (m : ToolMemory) :
    Restored m (ToolMemory.empty m.maxEntries m.maxBytes) [] where
  sound := ⟨[], [], empty_sound _ _⟩
  text := by
    intro id dsml
    rw [text_some (empty_sound _ _).toRepresents]
    simp
  limits := ⟨rfl, rfl⟩

/-- One more text of the memory is put without evicting anything. -/
theorem Restored.put (h : Sound m order blocks) (hlim : ¬ m.overLimit) (hr : Restored m m' rs)
    (hrs : ∀ r ∈ rs, m.text r.1 = some r.2) {id dsml : Bytes} (ht : m.text id = some dsml)
    (hnew : id ∉ rs.map Prod.fst) : Restored m (m'.put id dsml .disk) (rs ++ [(id, dsml)]) := by
  obtain ⟨⟨order', blocks', hs⟩, htext, hlimits⟩ := hr
  obtain ⟨a, ha, rfl, rfl⟩ := (text_some h.toRepresents).1 ht
  obtain ⟨hid, hid0⟩ := h.id_ok a ha
  obtain ⟨hd, hd0⟩ := h.text_ok _ (h.owner a ha)
  generalize (m.entry a).id = id at *
  generalize (m.block (m.entry a).block).dsml = dsml at *
  obtain ⟨order₁, blocks₁, hs₁, -⟩ := place_sound hs ⟨hid, hid0⟩ ⟨hd, hd0⟩ .disk
  have htext₁ := text_place hs ⟨hid, hid0⟩ ⟨hd, hd0⟩ .disk
  have hlimits₁ := place_limits m' id dsml .disk
  have hpairs : ∀ x t, (m'.place id dsml .disk).text x = some t ↔ (x, t) ∈ rs ++ [(id, dsml)] := by
    intro x t
    rw [htext₁, List.mem_append, List.mem_singleton, Prod.mk.injEq]
    split_ifs with hx
    · subst hx
      constructor
      · intro heq
        exact Or.inr ⟨rfl, (Option.some.inj heq).symm⟩
      · rintro (hmem | ⟨-, rfl⟩)
        · exact absurd (List.mem_map_of_mem hmem) hnew
        · rfl
    · rw [htext]
      simp [hx]
  have hsub : ∀ x t, (m'.place id dsml .disk).text x = some t → m.text x = some t := by
    intro x t hxt
    rcases List.mem_append.1 ((hpairs x t).1 hxt) with hmem | hmem
    · exact hrs _ hmem
    · obtain ⟨rfl, rfl⟩ := Prod.mk.inj (List.mem_singleton.1 hmem)
      exact ht
  obtain ⟨hent, hbytes⟩ := sizes_le hs₁ h.toRepresents hsub
  have hunder : ¬ (m'.place id dsml .disk).overLimit := by
    unfold overLimit at hlim ⊢
    rw [hlimits₁.1, hlimits₁.2, hlimits.1, hlimits.2]
    omega
  have hput : m'.put id dsml .disk = m'.place id dsml .disk := by
    unfold ToolMemory.put
    rw [cstr_eq_self hid0, cstr_eq_self hd0, if_neg (by simp [hid, hd]), prune_of_under hunder]
  rw [hput]
  exact ⟨⟨order₁, blocks₁, hs₁⟩, hpairs, hlimits₁.1.trans hlimits.1, hlimits₁.2.trans hlimits.2⟩

/-- Putting some of the texts of a memory into an empty one restores exactly these. -/
theorem putAll_restored (h : Sound m order blocks) (hlim : ¬ m.overLimit)
    (rs : List (Bytes × Bytes)) (hrs : ∀ r ∈ rs, m.text r.1 = some r.2)
    (hnd : (rs.map Prod.fst).Nodup) :
    Restored m (putAll .disk (ToolMemory.empty m.maxEntries m.maxBytes) rs) rs := by
  induction rs using List.reverseRecOn with
  | nil => exact empty_restored m
  | append_singleton rs r ih =>
    have hsub : ∀ x ∈ rs, m.text x.1 = some x.2 := fun x hx => hrs x (List.mem_append_left _ hx)
    rw [List.map_append, List.map_singleton] at hnd
    have hnew : r.1 ∉ rs.map Prod.fst := by
      intro hmem
      exact List.disjoint_of_nodup_append hnd hmem (List.mem_singleton.2 rfl)
    have hrest := ih hsub (List.nodup_append.1 hnd).1
    unfold putAll
    rw [List.foldl_append]
    exact hrest.put h hlim hsub (hrs r (by simp)) hnew

end Restore

section Sections
variable {m : ToolMemory} {order blocks : List ℕ} {rs : List (Bytes × Bytes)} {text : Bytes}

/-- What a section starts with. -/
def sectionHead (count : ℕ) : Bytes := toolMapMagic ++ lePut32 count

theorem sectionHead_split (count : ℕ) (s : Bytes) : (sectionHead count).length = 8 ∧
    (sectionHead count ++ s).take 4 = toolMapMagic ∧
    ((sectionHead count ++ s).drop 4).take 4 = lePut32 count ∧
    (sectionHead count ++ s).drop 8 = s := by
  have hmagic : toolMapMagic.length = 4 := rfl
  have hcount : (lePut32 count).length = 4 := length_lePut 4 _
  unfold sectionHead
  refine ⟨?_, ?_, ?_, ?_⟩
  · rw [List.length_append, hmagic, hcount]
  · rw [List.append_assoc]
    exact List.take_left' hmagic
  · rw [List.append_assoc, List.drop_left' hmagic]
    exact List.take_left' hcount
  · exact List.drop_left' (by rw [List.length_append, hmagic, hcount])

/-- A section, whole or cut behind whole records. -/
theorem load_section (m : ToolMemory) (tail : Bytes) {count : ℕ} (hfew : count ≤ m.entryLimit * 4)
    (hwidth : count < 2 ^ 32) (hr : ∀ r ∈ rs, InRange r)
    (hcount : count = rs.length ∨ rs.length ≤ count ∧ Broken tail) :
    (m.kvToolMapLoad none (sectionHead count ++ (rs.flatMap encodeRecord ++ tail))).1 =
      putAll .disk m rs := by
  obtain ⟨hlen, hmagic, hnum, hrest⟩ :=
    sectionHead_split count (rs.flatMap encodeRecord ++ tail)
  unfold kvToolMapLoad
  simp only [hmagic, hnum, hrest, leGet_lePut32 hwidth]
  rw [if_neg (by rw [List.length_append, hlen]; omega), if_neg (not_not.2 rfl),
    if_neg (by omega)]
  exact loadRecords_encode rs m count 0 hr hcount

/-- The number of records that are complete in so many bytes. -/
def completeRecords : List (Bytes × Bytes) → ℕ → ℕ
  | [], _ => 0
  | r :: rs, n => if recordBytes r ≤ n then completeRecords rs (n - recordBytes r) + 1 else 0

/-- A record that is cut is broken. -/
theorem broken_take {r : Bytes × Bytes} (h : InRange r) {n : ℕ} (hn : n < recordBytes r) :
    Broken ((encodeRecord r).take n) := by
  obtain ⟨hw₁, hw₂⟩ := h.widths
  have hlen := length_encodeRecord r
  have htake : ((encodeRecord r).take n).length = n := by
    rw [List.length_take, hlen]
    omega
  by_cases h8 : n < 8
  · exact Or.inl (by rw [htake]; exact h8)
  · obtain ⟨hid, hdsml, -⟩ := encodeRecord_split r []
    rw [List.append_nil] at hid hdsml
    refine Or.inr (Or.inr ?_)
    rw [List.drop_take, List.take_take, List.take_take, min_eq_left (by omega),
      min_eq_left (by omega), hid, hdsml, leGet_lePut32 hw₁, leGet_lePut32 hw₂, htake]
    exact hn

theorem take_records (rs : List (Bytes × Bytes)) : ∀ n < (rs.flatMap encodeRecord).length,
    (∀ r ∈ rs, InRange r) → ∃ cut, (rs.flatMap encodeRecord).take n =
      (rs.take (completeRecords rs n)).flatMap encodeRecord ++ cut ∧ Broken cut := by
  induction rs with
  | nil =>
    intro n hn
    exact absurd hn (Nat.not_lt_zero n)
  | cons r rs ih =>
    intro n hn hr
    have hlen := length_encodeRecord r
    rw [List.flatMap_cons, List.length_append, hlen] at hn
    rw [completeRecords]
    split_ifs with hle
    · obtain ⟨cut, htake, hcut⟩ := ih (n - recordBytes r) (by omega)
        fun x hx => hr x (List.mem_cons_of_mem r hx)
      refine ⟨cut, ?_, hcut⟩
      rw [List.flatMap_cons, List.take_append, hlen, List.take_of_length_le (by omega), htake,
        List.take_succ_cons, List.flatMap_cons, List.append_assoc]
    · refine ⟨(encodeRecord r).take n, ?_, broken_take (hr r List.mem_cons_self) (by omega)⟩
      rw [List.flatMap_cons, List.take_append_of_le_length (by omega)]
      rfl

theorem completeRecords_le (rs : List (Bytes × Bytes)) : ∀ n,
    completeRecords rs n ≤ rs.length := by
  induction rs with
  | nil => exact fun n => le_refl 0
  | cons r rs ih =>
    intro n
    rw [completeRecords]
    split_ifs
    · exact Nat.succ_le_succ (ih _)
    · exact Nat.zero_le _

theorem completeRecords_zero (rs : List (Bytes × Bytes)) : completeRecords rs 0 = 0 := by
  cases rs with
  | nil => rfl
  | cons r rs =>
    rw [completeRecords, if_neg]
    unfold recordBytes
    omega

end Sections

section Measure
variable {m : ToolMemory} {order blocks : List ℕ} {text : Bytes}

/-- A scan of a memory starts with no block marked. -/
theorem scan_start (h : Represents m order blocks) :
    Marked m { m with scanClock := m.scanClock + 1 } (m.scanClock + 1) [] := by
  apply Marked.start (m := m)
  · rfl
  · rfl
  · exact fun b => ⟨rfl, rfl⟩
  · intro t b hb
    exact Nat.lt_succ_of_le (h.seen b ((h.byBlock t b).1 hb).1)

/-- The measure, over the records that are saved. -/
theorem measure_eq (h : Represents m order blocks) (text : Bytes) :
    (m.kvToolMapMeasure text).2 =
      (((savedPairs m text).foldl countPair (some (0, toolMapHeader))).map
        fun n => if n.1 = 0 then (0, 0) else n) ∧
      ∃ visited, Marked m (m.kvToolMapMeasure text).1 (m.scanClock + 1) visited := by
  obtain ⟨hsnd, visited, hmark⟩ :=
    measureWalk_eq (toolBlocks text) _ [] (0, toolMapHeader) (scan_start h)
  refine ⟨?_, visited, hmark⟩
  unfold kvToolMapMeasure savedPairs
  rw [← hsnd]

/-- The writing, over the same records. -/
theorem write_eq (h : Represents m order blocks) (htext : text ≠ []) {count bytes : ℕ}
    (hm : (m.kvToolMapMeasure text).2 = some (count, bytes)) :
    (m.kvToolMapWrite text).2 = if count = 0 then some ([], 0)
      else some ((savedPairs m text).foldl writePair (sectionHead count), bytes) := by
  obtain ⟨-, visited, hmark⟩ := measure_eq h text
  unfold kvToolMapWrite
  rw [if_neg htext]
  generalize hr : m.kvToolMapMeasure text = r at hm hmark
  obtain ⟨mm, n⟩ := r
  simp only at hm
  subst hm
  simp only
  split_ifs with hcount
  · rfl
  · have hscan : Marked m { mm with scanClock := mm.scanClock + 1 } (mm.scanClock + 1) [] := by
      apply Marked.start (m := m)
      · exact hmark.byBlock
      · exact hmark.entry
      · exact hmark.same
      · intro t b hb
        have hbound := hmark.bound t b hb
        have hclock : mm.scanClock = m.scanClock + 1 := hmark.clock
        exact Nat.lt_succ_of_le (hbound.trans hclock.ge)
    rw [writeWalk_eq (toolBlocks text) _ [] _ hscan]
    rfl

end Measure

section RoundTrip
variable {m : ToolMemory} {order blocks : List ℕ} {text : Bytes}

/-- The sizes of a memory within its limits. -/
structure Small (m : ToolMemory) (rs : List (Bytes × Bytes)) : Prop where
  inRange : ∀ r ∈ rs, InRange r
  few : rs.length ≤ m.entryLimit ∧ rs.length ≤ toolMemoryMaxBytesDefault
  text : ∀ r ∈ rs, m.text r.1 = some r.2

theorem savedPairs_small (h : Sound m order blocks) (hlim : ¬ m.overLimit)
    (hmax : m.byteLimit ≤ toolMemoryMaxBytesDefault)
    (hids : ∀ id dsml, m.text id = some dsml → id.length ≤ 256) (text : Bytes) :
    Small m (savedPairs m text) := by
  have hbytes : m.bytes ≤ toolMemoryMaxBytesDefault := by
    unfold overLimit at hlim
    omega
  have htext : ∀ r ∈ savedPairs m text, m.text r.1 = some r.2 :=
    fun r hr => ((mem_savedPairs h.toRepresents text r.1 r.2).1 hr).1
  have hsum := bytes_eq h.toRepresents
  have hcount : (savedPairs m text).length ≤ order.length := by
    have hsub : (savedPairs m text).map Prod.fst ⊆ entryIds m order := by
      intro id hid
      obtain ⟨r, hr, rfl⟩ := List.mem_map.1 hid
      obtain ⟨a, ha, hida, -⟩ := (text_some h.toRepresents).1 (htext r hr)
      exact List.mem_map.2 ⟨a, ha, hida⟩
    have hlen := (List.subperm_of_subset (savedPairs_ids h.toRepresents text) hsub).length_le
    rwa [List.length_map, length_entryIds] at hlen
  have horder : order.length ≤ m.bytes := by
    have hone : ∀ w ∈ (entryIds m order).map entryWeight, 1 ≤ w := by
      intro w hw
      obtain ⟨id, -, rfl⟩ := List.mem_map.1 hw
      unfold entryWeight
      omega
    have hlen := List.length_le_sum_of_one_le _ hone
    rw [List.length_map, length_entryIds] at hlen
    omega
  refine ⟨?_, ?_, htext⟩
  · intro r hr
    obtain ⟨a, ha, hida, hblk⟩ := (text_some h.toRepresents).1 (htext r hr)
    have hown := h.owner a ha
    have hid := h.id_ok a ha
    have hd := h.text_ok _ hown
    rw [hida] at hid
    rw [hblk] at hd
    have hweight : blockWeight r.2 ∈ (blocks.map fun b => (m.block b).dsml).map blockWeight :=
      List.mem_map_of_mem (List.mem_map.2 ⟨_, hown, hblk⟩)
    have hle := List.le_sum_of_mem hweight
    have heq : blockWeight r.2 = r.2.length + 1 + sizeofBlock := rfl
    exact ⟨⟨hid.1, hids _ _ (htext r hr)⟩, hd.1, by omega⟩
  · have hcap := h.count
    unfold overLimit at hlim
    omega

theorem sum_recordBytes_le {rs : List (Bytes × Bytes)} (hr : ∀ r ∈ rs, InRange r) :
    (rs.map recordBytes).sum ≤ rs.length * (264 + toolMemoryMaxBytesDefault) := by
  have hbound : ∀ w ∈ rs.map recordBytes, w ≤ 264 + toolMemoryMaxBytesDefault := by
    intro w hw
    obtain ⟨r, hmem, rfl⟩ := List.mem_map.1 hw
    obtain ⟨⟨-, hid⟩, -, hd⟩ := hr r hmem
    unfold recordBytes
    omega
  have hsum := List.sum_le_card_nsmul _ _ hbound
  rwa [List.length_map, smul_eq_mul] at hsum

/-- A load of the bytes into an empty memory with the limits of `m` ends with exactly these
texts. -/
def Loads (m : ToolMemory) (s : Bytes) (rs : List (Bytes × Bytes)) : Prop :=
  ∀ id dsml, ((ToolMemory.empty m.maxEntries m.maxBytes).kvToolMapLoad none s).1.text id =
    some dsml ↔ (id, dsml) ∈ rs

/-- The first records of a section, whatever broken bytes follow. -/
theorem loads_first {rs : List (Bytes × Bytes)} (h : Sound m order blocks) (hlim : ¬ m.overLimit)
    (hs : Small m rs) (hnd : (rs.map Prod.fst).Nodup) {k : ℕ} (hk : k ≤ rs.length) (tail : Bytes)
    (htail : k = rs.length ∨ Broken tail) :
    Loads m (sectionHead rs.length ++ ((rs.take k).flatMap encodeRecord ++ tail)) (rs.take k) := by
  have hsub : ∀ r ∈ rs.take k, r ∈ rs := fun r => List.mem_of_mem_take
  have hlen : (rs.take k).length = k := by
    rw [List.length_take]
    omega
  have hfew := hs.few
  rw [toolMemoryMaxBytesDefault] at hfew
  have hload := load_section (ToolMemory.empty m.maxEntries m.maxBytes) tail
    (show rs.length ≤ m.entryLimit * 4 by omega) (by omega) (fun r hr => hs.inRange r (hsub r hr))
    (htail.imp (fun heq => by omega) fun hb => ⟨by omega, hb⟩)
  intro id dsml
  rw [hload]
  have hnd' : ((rs.take k).map Prod.fst).Nodup := hnd.sublist ((List.take_sublist k rs).map _)
  exact (putAll_restored h hlim _ (fun r hr => hs.text r (hsub r hr)) hnd').text id dsml

theorem loads_nothing {s : Bytes} (h : s.length < 8) : Loads m s [] := by
  intro id dsml
  unfold kvToolMapLoad
  rw [if_pos h]
  exact (empty_restored m).text id dsml

/-- A section that is written, and what it is written from: ids whose blocks occur in the text,
and every id whose block stands in it. -/
structure Section (m : ToolMemory) (text sec : Bytes) (rs : List (Bytes × Bytes)) : Prop where
  written : (m.kvToolMapWrite text).2 = some (sec, sec.length)
  measured : (m.kvToolMapSerializedSize text).2 = some sec.length
  occurs : ∀ id dsml, (id, dsml) ∈ rs → m.text id = some dsml ∧ dsml <:+: text
  stands : ∀ id dsml, m.text id = some dsml → StandsIn dsml text → (id, dsml) ∈ rs
  layout : sec = if rs = [] then [] else sectionHead rs.length ++ rs.flatMap encodeRecord

theorem filter_fits {rs : List (Bytes × Bytes)} (hr : ∀ r ∈ rs, InRange r) :
    rs.filter (fun r => Fits r) = rs := by
  rw [List.filter_eq_self]
  intro r hmem
  obtain ⟨hw₁, hw₂⟩ := (hr r hmem).widths
  rw [decide_eq_true_iff, Fits, maxU32]
  omega

/-- The walks count all of the records and their bytes. -/
theorem Small.counted {rs : List (Bytes × Bytes)} (hs : Small m rs) :
    rs.foldl countPair (some (0, toolMapHeader)) =
      some (rs.length, toolMapHeader + (rs.map recordBytes).sum) := by
  have hfew := hs.few.2
  have hsum := sum_recordBytes_le hs.inRange
  have htotal := Nat.mul_le_mul_right (264 + toolMemoryMaxBytesDefault) hfew
  have hmaxval : toolMemoryMaxBytesDefault = 536870912 := rfl
  rw [hmaxval] at htotal hfew hsum
  obtain ⟨n, hn⟩ := countPair_succeeds rs (0, toolMapHeader)
    (by rw [maxU32]; omega) (by rw [maxU64, toolMapHeader]; omega)
  obtain ⟨hcount, -⟩ := foldl_countPair _ _ n hn
  rw [filter_fits hs.inRange, Nat.zero_add] at hcount
  rw [hn, hcount]

theorem length_section (rs : List (Bytes × Bytes)) :
    (sectionHead rs.length ++ rs.flatMap encodeRecord).length =
      toolMapHeader + (rs.map recordBytes).sum := by
  rw [List.length_append, (sectionHead_split _ []).1, List.length_flatMap, toolMapHeader]
  simp only [length_encodeRecord]

/-- What the writing leaves in the file, and what both walks say of its size. -/
theorem section_written (h : Sound m order blocks) (hlim : ¬ m.overLimit)
    (hmax : m.byteLimit ≤ toolMemoryMaxBytesDefault)
    (hids : ∀ id dsml, m.text id = some dsml → id.length ≤ 256) (text : Bytes) :
    ∃ sec, Section m text sec (savedPairs m text) := by
  have hsmall := savedPairs_small h hlim hmax hids text
  have hrecords := mem_savedPairs h.toRepresents text
  have hoccurs : ∀ id dsml, (id, dsml) ∈ savedPairs m text →
      m.text id = some dsml ∧ dsml <:+: text := by
    intro id dsml hmem
    obtain ⟨hid, hblock⟩ := (hrecords id dsml).1 hmem
    exact ⟨hid, blocksFrom_occur _ text dsml hblock⟩
  have hstands : ∀ id dsml, m.text id = some dsml → StandsIn dsml text →
      (id, dsml) ∈ savedPairs m text :=
    fun id dsml hid hstand => (hrecords id dsml).2 ⟨hid, standsIn_found hstand⟩
  by_cases htext : text = []
  · subst htext
    refine ⟨[], ?_, ?_, hoccurs, hstands, rfl⟩
    · unfold kvToolMapWrite
      rfl
    · unfold kvToolMapSerializedSize
      rfl
  obtain ⟨hmeasure, -⟩ := measure_eq h.toRepresents text
  rw [hsmall.counted, Option.map_some] at hmeasure
  by_cases hnil : savedPairs m text = []
  · have hzero : (savedPairs m text).length = 0 := List.length_eq_zero_iff.2 hnil
    rw [if_pos hzero] at hmeasure
    refine ⟨[], ?_, ?_, hoccurs, hstands, (if_pos hnil).symm⟩
    · exact write_eq h.toRepresents htext hmeasure
    · unfold kvToolMapSerializedSize
      rw [if_neg htext]
      simp only
      rw [hmeasure]
      rfl
  · have hpos : (savedPairs m text).length ≠ 0 := mt List.length_eq_zero_iff.1 hnil
    rw [if_neg hpos] at hmeasure
    refine ⟨_, ?_, ?_, hoccurs, hstands, rfl⟩
    · rw [write_eq h.toRepresents htext hmeasure, if_neg hpos, if_neg hnil, length_section,
        foldl_writePair, filter_fits hsmall.inRange]
    · unfold kvToolMapSerializedSize
      rw [if_neg htext]
      simp only
      rw [hmeasure, if_neg hnil, length_section]
      rfl

/-- The size measured beforehand is what is written; the section restores into an empty memory the
texts of ids whose blocks occur in the transcript, with every block that stands in it among them,
whatever follows it; cut or with broken lengths behind some of its records it restores exactly
these. -/
theorem toolMap_roundTrip (h : Valid m) (hmax : m.byteLimit ≤ toolMemoryMaxBytesDefault)
    (hids : ∀ id dsml, m.text id = some dsml → id.length ≤ 256) (text : Bytes) :
    ∃ sec rs, Section m text sec rs ∧
      (∀ rest, sec ≠ [] ∨ rest = [] → Loads m (sec ++ rest) rs) ∧
      (∀ n < sec.length, Loads m (sec.take n) (rs.take (completeRecords rs (n - 8)))) ∧
      ∀ k ≤ rs.length, ∀ tail, Broken tail →
        Loads m (sectionHead rs.length ++ ((rs.take k).flatMap encodeRecord ++ tail))
          (rs.take k) := by
  obtain ⟨⟨order, blocks, h⟩, hlim⟩ := h
  obtain ⟨sec, hsec⟩ := section_written h hlim hmax hids text
  have hsmall := savedPairs_small h hlim hmax hids text
  have hnd := savedPairs_ids h.toRepresents text
  have hlayout := hsec.layout
  refine ⟨sec, savedPairs m text, hsec, ?_, ?_, ?_⟩
  · intro rest hrest
    split_ifs at hlayout with hnil
    · rw [hlayout] at hrest ⊢
      rw [hrest.resolve_left (not_not.2 rfl), hnil]
      exact loads_nothing (by decide)
    · have hfull := loads_first h hlim hsmall hnd le_rfl rest (Or.inl rfl)
      rwa [List.take_length, ← List.append_assoc, ← hlayout] at hfull
  · intro n hn
    split_ifs at hlayout with hnil
    · rw [hlayout] at hn
      exact absurd hn (Nat.not_lt_zero n)
    · by_cases h8 : n < 8
      · have hzero : n - 8 = 0 := by omega
        rw [hzero, completeRecords_zero, List.take_zero]
        apply loads_nothing
        rw [List.length_take]
        omega
      · have hhead : (sectionHead (savedPairs m text).length).length = 8 :=
          (sectionHead_split _ []).1
        rw [hlayout, List.length_append, hhead] at hn
        obtain ⟨cut, htake, hcut⟩ :=
          take_records (savedPairs m text) (n - 8) (by omega) hsmall.inRange
        rw [hlayout, List.take_append, hhead, List.take_of_length_le (by omega), htake]
        exact loads_first h hlim hsmall hnd (completeRecords_le _ _) cut (Or.inr hcut)
  · intro k hk tail htail
    exact loads_first h hlim hsmall hnd hk tail (Or.inr htail)

/-- Two calls of one block. -/
def sampleBlock : Bytes := lit "<tool_calls></tool_calls>"

def sampleMemory : ToolMemory :=
  ((ToolMemory.empty 0 0).put (lit "a") sampleBlock .ram).put (lit "b") sampleBlock .ram

theorem sampleMemory_valid : Valid sampleMemory :=
  put_valid (put_valid (empty_valid 0 0) _ _ _) _ _ _

theorem sampleMemory_ids (id dsml : Bytes) (h : sampleMemory.text id = some dsml) :
    id.length ≤ 256 := by
  obtain ⟨rfl, -⟩ | h := text_put (put_valid (empty_valid 0 0) _ _ _) h
  · decide
  · obtain ⟨rfl, -⟩ | h := text_put (empty_valid 0 0) h
    · decide
    · obtain ⟨a, ha, -⟩ := (text_some (empty_sound 0 0).toRepresents).1 h
      cases ha

theorem sampleMemory_roundTrip :
    ∃ sec rs, Section sampleMemory sampleBlock sec rs ∧
      (∀ rest, sec ≠ [] ∨ rest = [] → Loads sampleMemory (sec ++ rest) rs) ∧
      (∀ n < sec.length,
        Loads sampleMemory (sec.take n) (rs.take (completeRecords rs (n - 8)))) ∧
      ∀ k ≤ rs.length, ∀ tail, Broken tail →
        Loads sampleMemory (sectionHead rs.length ++ ((rs.take k).flatMap encodeRecord ++ tail))
          (rs.take k) :=
  toolMap_roundTrip sampleMemory_valid (le_refl _) sampleMemory_ids sampleBlock

/-- A section of two records that lacks its last byte is not rejected: the first record is loaded.
Where two newlines stand before the block in the text, the block that is looked up has them too,
and nothing is saved. -/
theorem cutSection_loaded :
    (∃ sec, (sampleMemory.kvToolMapWrite sampleBlock).2 = some (sec, sec.length) ∧
      ((ToolMemory.empty 0 0).kvToolMapLoad none (sec.take (sec.length - 1))).1.text (lit "b") =
        some sampleBlock) ∧
      sampleMemory.text (lit "b") = some sampleBlock ∧
      sampleBlock <:+: 10 :: 10 :: sampleBlock ∧
      (sampleMemory.kvToolMapWrite (10 :: 10 :: sampleBlock)).2 = some ([], 0) := by
  refine ⟨⟨sectionHead 2 ++ (encodeRecord (lit "b", sampleBlock) ++
    encodeRecord (lit "a", sampleBlock)), ?_, ?_⟩, ?_, ?_, ?_⟩
  · decide
  · decide
  · decide
  · exact (List.suffix_append [10, 10] sampleBlock).isInfix
  · decide

end RoundTrip

end Ds4.Memory
