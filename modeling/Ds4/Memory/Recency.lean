import Ds4.Memory.Contents
import Ds4.Parts.Recent

/-! The tool memory as a store by recency: what is put or touched comes to the front, and pruning
keeps the most recent texts that fit the limits. -/
namespace Ds4.Memory
open ToolMemory Parts

/-- The ids of a memory with their texts, from the most recent one on. -/
def held (m : ToolMemory) (order : List ℕ) : List (Bytes × Bytes) :=
  order.map fun a => ((m.entry a).id, (m.block (m.entry a).block).dsml)

/-- What texts under ids take: each id for itself, each text once. -/
def heldBytes (held : List (Bytes × Bytes)) : ℕ :=
  ((Recent.keys held).map entryWeight).sum + ((held.map Prod.snd).dedup.map blockWeight).sum

def WithinLimits (entryLimit byteLimit : ℕ) (held : List (Bytes × Bytes)) : Prop :=
  held.length ≤ entryLimit ∧ heldBytes held ≤ byteLimit

instance (entryLimit byteLimit : ℕ) : DecidablePred (WithinLimits entryLimit byteLimit) := by
  intro held
  unfold WithinLimits
  infer_instance

section Held
variable {m : ToolMemory} {order blocks : List ℕ} {id dsml : Bytes} {source : Source} {a : ℕ}

theorem keys_held (m : ToolMemory) (order : List ℕ) :
    Recent.keys (held m order) = entryIds m order := by
  rw [Recent.keys, held, List.map_map]
  rfl

theorem held_text (h : Represents m order blocks) :
    ∀ e ∈ held m order, m.text e.1 = some e.2 := by
  intro e he
  obtain ⟨a, ha, rfl⟩ := List.mem_map.1 he
  exact (text_some h).2 ⟨a, ha, rfl, rfl⟩

theorem held_nodup (h : Represents m order blocks) : (Recent.keys (held m order)).Nodup := by
  rw [keys_held]
  exact entryIds_nodup h

/-- The texts in the blocks are the texts under the ids. -/
theorem held_texts (h : Sound m order blocks) :
    (blocks.map fun b => (m.block b).dsml).Perm ((held m order).map Prod.snd).dedup := by
  rw [List.perm_ext_iff_of_nodup (texts_nodup h.toRepresents) (List.nodup_dedup _)]
  intro t
  rw [List.mem_dedup, held, List.map_map, List.mem_map, List.mem_map]
  constructor
  · rintro ⟨b, hb, rfl⟩
    obtain ⟨a, ha, rfl⟩ := (used_iff h.toRepresents).1 h.used b hb
    exact ⟨a, ha, rfl⟩
  · rintro ⟨a, ha, rfl⟩
    exact ⟨_, h.owner a ha, rfl⟩

/-- The counters of the memory measure what it holds. -/
theorem held_fits (h : Sound m order blocks) :
    WithinLimits m.entryLimit m.byteLimit (held m order) ↔ ¬ m.overLimit := by
  have hbytes : heldBytes (held m order) = m.bytes := by
    rw [heldBytes, keys_held, ← ((held_texts h).map blockWeight).sum_eq]
    exact (bytes_eq h.toRepresents).symm
  have hlen : (held m order).length = m.entries := by
    rw [held, List.length_map, h.count]
  rw [WithinLimits, hbytes, hlen, overLimit, not_or, not_lt, not_lt]

theorem touch_held (h : Represents m order blocks) (ha : a ∈ order) :
    held (m.touch a) (a :: order.erase a) = Recent.use (m.entry a).id (held m order) := by
  have hids : entryIds (m.touch a) (a :: order.erase a) =
      (m.entry a).id :: (entryIds m order).filter (· ≠ (m.entry a).id) := by
    rw [← entryIds_erase h ha, entryIds, List.map_cons, (touch_same m a a).1]
    congr 1
    apply List.map_congr_left
    exact fun x _ => (touch_same m a x).1
  have hkey : (m.entry a).id ∈ Recent.keys (held m order) := by
    rw [keys_held]
    exact List.mem_map_of_mem ha
  apply Recent.ext_keys (m.touch a).text
  · rw [keys_held, hids, Recent.keys_use (held_nodup h) hkey, keys_held]
  · exact held_text (touch_represents h ha)
  · intro e he
    rw [text_touch]
    exact held_text h e (Recent.mem_use.1 he)

theorem place_held (h : Sound m order blocks) (hid : id ≠ [] ∧ 0 ∉ id)
    (hd : dsml ≠ [] ∧ 0 ∉ dsml) (source : Source) :
    ∃ order' blocks', Sound (m.place id dsml source) order' blocks' ∧
      held (m.place id dsml source) order' = Recent.place id dsml (held m order) := by
  obtain ⟨order', blocks', hs, hids⟩ := place_sound h hid hd source
  refine ⟨order', blocks', hs, Recent.ext_keys (m.place id dsml source).text ?_ ?_ ?_⟩
  · rw [keys_held, hids, Recent.keys_place, keys_held]
  · exact held_text hs.toRepresents
  · intro e he
    rw [text_place h hid hd]
    rcases Recent.mem_place.1 he with rfl | ⟨he, hne⟩
    · exact if_pos rfl
    · rw [if_neg hne]
      exact held_text h.toRepresents e he

/-- The loop removes the entry that was touched longest ago as long as a limit is passed: what it
leaves are the most recent entries, as many as fit. -/
theorem pruneLoop_held (rounds : ℕ) : ∀ (m : ToolMemory) (order blocks : List ℕ),
    Sound m order blocks → order.length < rounds →
    ¬ (pruneLoop rounds m).overLimit ∧
      ∃ order' blocks', Sound (pruneLoop rounds m) order' blocks' ∧
        held (pruneLoop rounds m) order' =
          Recent.trim (WithinLimits m.entryLimit m.byteLimit) (held m order) := by
  induction rounds with
  | zero =>
    intro m order blocks _ hlt
    omega
  | succ rounds ih =>
    intro m order blocks h hlt
    rw [pruneLoop]
    by_cases hover : m.overLimit
    · have hfits : ¬ WithinLimits m.entryLimit m.byteLimit (held m order) :=
        fun hfits => (held_fits h).1 hfits hover
      rw [if_pos hover]
      rw [h.lru.tail]
      cases hlast : order.getLast? with
      | none =>
        rw [List.getLast?_eq_none_iff] at hlast
        subst hlast
        exact absurd hover (empty_not_over h)
      | some a =>
        obtain ⟨init, rfl⟩ := List.getLast?_eq_some_iff.1 hlast
        have hnot : a ∉ init := fun hmem =>
          List.disjoint_of_nodup_append h.lru.nodup hmem (List.mem_singleton.2 rfl)
        have hrem := removeEntry_sound h (List.mem_append_right _ (List.mem_singleton.2 rfl))
        rw [List.erase_append_right _ hnot, List.erase_cons_head, List.append_nil] at hrem
        rw [List.length_append, List.length_singleton] at hlt
        obtain ⟨hunder, order', blocks', hs, hheld⟩ := ih _ _ _ hrem (by omega)
        refine ⟨hunder, order', blocks', hs, hheld.trans ?_⟩
        have hrest : held (m.removeEntry a) init = held m init := by
          apply List.map_congr_left
          intro x _
          rw [(removed_block m a _).1, removeEntry_eq]
        obtain ⟨hids, hbytes⟩ := removeEntry_limits m a
        have hsplit : held m (init ++ [a]) = held m init ++ held m [a] := List.map_append
        rw [hsplit] at hfits ⊢
        rw [hrest, hids, hbytes]
        exact (Recent.trim_concat hfits).symm
    · rw [if_neg hover]
      exact ⟨hover, order, blocks, h, (Recent.trim_of_fits ((held_fits h).2 hover)).symm⟩

end Held

/-- A memory between its operations, within its limits, and what it holds. -/
structure Holds (m : ToolMemory) (kept : List (Bytes × Bytes)) : Prop where
  sound : ∃ order blocks, Sound m order blocks ∧ held m order = kept
  under : ¬ m.overLimit

theorem Holds.valid {m : ToolMemory} {kept : List (Bytes × Bytes)} (h : Holds m kept) :
    Valid m := by
  obtain ⟨order, blocks, hs, -⟩ := h.sound
  exact ⟨⟨order, blocks, hs⟩, h.under⟩

/-- What a store by recency holds behind a put. -/
def recentPut (entryLimit byteLimit : ℕ) (kept : List (Bytes × Bytes)) (r : Bytes × Bytes) :
    List (Bytes × Bytes) :=
  if cstr r.1 = [] ∨ cstr r.2 = [] then kept
  else Recent.trim (WithinLimits entryLimit byteLimit) (Recent.place (cstr r.1) (cstr r.2) kept)

section Operations
variable {m : ToolMemory} {order blocks : List ℕ} {kept : List (Bytes × Bytes)}

theorem prune_held (h : Sound m order blocks) :
    Holds m.prune (Recent.trim (WithinLimits m.entryLimit m.byteLimit) (held m order)) := by
  have hlt : order.length < m.entries + 1 := by
    rw [h.count]
    exact Nat.lt_succ_self _
  obtain ⟨hunder, hs⟩ := pruneLoop_held (m.entries + 1) m order blocks h hlt
  exact ⟨hs, hunder⟩

theorem put_held (h : Holds m kept) (id dsml : Bytes) (source : Source) :
    Holds (m.put id dsml source) (recentPut m.entryLimit m.byteLimit kept (id, dsml)) := by
  unfold ToolMemory.put recentPut
  split_ifs with hempty
  · exact h
  · obtain ⟨order, blocks, hs, rfl⟩ := h.sound
    rw [not_or] at hempty
    obtain ⟨order', blocks', hplaced, hheld⟩ := place_held hs
      ⟨hempty.1, zero_not_mem_cstr id⟩ ⟨hempty.2, zero_not_mem_cstr dsml⟩ source
    have hpruned := prune_held hplaced
    obtain ⟨hids, hbytes⟩ := place_limits m (cstr id) (cstr dsml) source
    rwa [hheld, hids, hbytes] at hpruned

theorem put_valid (h : Valid m) (id dsml : Bytes) (source : Source) :
    Valid (m.put id dsml source) := by
  obtain ⟨order, blocks, hs⟩ := h.sound
  exact (put_held ⟨⟨order, blocks, hs, rfl⟩, h.under⟩ id dsml source).valid

/-- A touch of the entry an id has, if it has one. -/
theorem touchId_held (h : Holds m kept) (id : Bytes) :
    Holds ((m.findEntry id).elim m m.touch) (Recent.use id kept) ∧
      ((m.findEntry id).isSome ↔ id ∈ Recent.keys kept) := by
  obtain ⟨⟨order, blocks, hs, rfl⟩, hunder⟩ := h
  cases hfind : m.findEntry id with
  | none =>
    have habsent : id ∉ Recent.keys (held m order) := by
      rw [keys_held]
      intro hmem
      obtain ⟨a, ha, hida⟩ := List.mem_map.1 hmem
      rw [(findEntry_some hs.toRepresents).2 ⟨ha, hida⟩] at hfind
      cases hfind
    rw [Recent.use_absent habsent]
    exact ⟨⟨⟨order, blocks, hs, rfl⟩, hunder⟩, iff_of_false (by simp) habsent⟩
  | some a =>
    obtain ⟨ha, rfl⟩ := (findEntry_some hs.toRepresents).1 hfind
    refine ⟨⟨⟨_, blocks, touch_sound hs ha, touch_held hs.toRepresents ha⟩, hunder⟩, ?_⟩
    rw [keys_held]
    exact iff_of_true rfl (List.mem_map_of_mem ha)

end Operations

end Ds4.Memory
