import Ds4.Memory.Put
import Mathlib.Algebra.Order.BigOperators.Group.List

/-! What the ids of a tool memory stand for, and what an operation changes of that. -/
namespace Ds4.Memory
open ToolMemory

section Steps
variable {m : ToolMemory} {order blocks : List ℕ} {id dsml : Bytes} {source : Source} {a : ℕ}

theorem text_some (h : Represents m order blocks) : m.text id = some dsml ↔
    ∃ a ∈ order, (m.entry a).id = id ∧ (m.block (m.entry a).block).dsml = dsml := by
  rw [text, Option.map_eq_some_iff]
  constructor
  · rintro ⟨a, hfind, hd⟩
    obtain ⟨ha, hid⟩ := (findEntry_some h).1 hfind
    exact ⟨a, ha, hid, hd⟩
  · rintro ⟨a, ha, hid, hd⟩
    exact ⟨a, (findEntry_some h).2 ⟨ha, hid⟩, hd⟩

theorem text_touch (m : ToolMemory) (a : ℕ) : (m.touch a).text = m.text := by
  funext x
  have hfind : (m.touch a).findEntry x = m.findEntry x := rfl
  unfold text
  rw [hfind]
  congr 1
  funext y
  rw [(touch_same m a y).2.1]
  rfl

theorem text_renew (m : ToolMemory) (a : ℕ) (source : Source) :
    (m.renew a source).text = m.text := by
  unfold renew
  simp only
  rw [text_touch]
  split_ifs
  · funext x
    have hfind : ({ m with entry := Function.update m.entry a { m.entry a with source := .ram } } :
        ToolMemory).findEntry x = m.findEntry x := rfl
    unfold text
    rw [hfind]
    congr 1
    funext y
    by_cases hy : y = a
    · simp only [hy, Function.update_self]
    · simp only [Function.update_of_ne hy]
  · rfl

theorem text_removeEntry (m : ToolMemory) (a : ℕ) (x : Bytes) :
    (m.removeEntry a).text x = if x = (m.entry a).id then none else m.text x := by
  have hent : (m.removeEntry a).entry = m.entry := by rw [removeEntry_eq]
  have hfind : (m.removeEntry a).findEntry x =
      if x = (m.entry a).id then none else m.findEntry x := by
    unfold findEntry
    rw [removeEntry_eq]
    simp only
    by_cases hx : x = (m.entry a).id
    · rw [if_pos hx, hx, Function.update_self]
      exact ite_self _
    · rw [if_neg hx, Function.update_of_ne hx]
  unfold text
  rw [hfind, hent]
  split_ifs
  · rfl
  · congr 1
    funext y
    exact (removed_block m a _).1

theorem text_addNew (h : Sound m order blocks) (hid : id ≠ [] ∧ 0 ∉ id)
    (hd : dsml ≠ [] ∧ 0 ∉ dsml) (x : Bytes) :
    ((m.getBlock dsml).1.addEntry id (m.getBlock dsml).2 source).text x =
      if x = id then some dsml else m.text x := by
  obtain ⟨blocks', hr, ⟨hb, hdsml⟩, -, hsame⟩ := getBlock_represents h.toRepresents hd
  have hent := getBlock_entry m dsml
  have hfind : ((m.getBlock dsml).1.addEntry id (m.getBlock dsml).2 source).findEntry x =
      if x = id then some (m.getBlock dsml).1.fresh else m.findEntry x := by
    unfold findEntry addEntry
    simp only
    by_cases hx : x = id
    · rw [if_pos hx, if_neg (hx ▸ hid.1), hx, Function.update_self]
    · rw [if_neg hx, Function.update_of_ne hx, getBlock_byId]
  unfold text
  rw [hfind]
  split_ifs with hx
  · rw [Option.map_some, addEntry_self, (addEntry_block _ _ _ _ _).1, hdsml]
  · cases hf : m.findEntry x with
    | none => rfl
    | some y =>
      obtain ⟨hy, -⟩ := (findEntry_some h.toRepresents).1 hf
      have hne : y ≠ (m.getBlock dsml).1.fresh := by
        rintro rfl
        exact (hr.fresh.1 _ hy).false
      have hkeep : ((m.getBlock dsml).1.addEntry id (m.getBlock dsml).2 source).entry y =
          m.entry y := by
        rw [← hent]
        exact Function.update_of_ne hne _ _
      rw [Option.map_some, Option.map_some, hkeep, (addEntry_block _ _ _ _ _).1,
        hsame _ (h.owner y hy)]

/-- A put sets the text of its id and no other. -/
theorem text_place (h : Sound m order blocks) (hid : id ≠ [] ∧ 0 ∉ id)
    (hd : dsml ≠ [] ∧ 0 ∉ dsml) (source : Source) (x : Bytes) :
    (m.place id dsml source).text x = if x = id then some dsml else m.text x := by
  unfold place
  cases hfind : m.findEntry id with
  | none => exact text_addNew h hid hd x
  | some a =>
    obtain ⟨ha, hida⟩ := (findEntry_some h.toRepresents).1 hfind
    simp only
    split_ifs with hsame hx hx
    · rw [text_renew, hx]
      exact (text_some h.toRepresents).2 ⟨a, ha, hida, hsame⟩
    · rw [text_renew]
    · rw [text_addNew (removeEntry_sound h ha) hid hd, if_pos hx]
    · rw [text_addNew (removeEntry_sound h ha) hid hd, if_neg hx, text_removeEntry, hida,
        if_neg hx]

/-- What is over the limits goes; what stays is as it was. -/
theorem text_pruneLoop (rounds : ℕ) : ∀ m : ToolMemory,
    (pruneLoop rounds m).text id = some dsml → m.text id = some dsml := by
  induction rounds with
  | zero => exact fun m h => h
  | succ rounds ih =>
    intro m h
    rw [pruneLoop] at h
    split_ifs at h
    · cases htail : m.lru.tail with
      | none =>
        rw [htail] at h
        exact h
      | some a =>
        rw [htail] at h
        have hrest := ih _ h
        rw [text_removeEntry] at hrest
        split_ifs at hrest
        exact hrest
    · exact h

/-- A put makes no other text up. -/
theorem text_put (h : Valid m) {x t : Bytes} (ht : (m.put id dsml source).text x = some t) :
    x = cstr id ∧ t = cstr dsml ∨ m.text x = some t := by
  unfold ToolMemory.put at ht
  split_ifs at ht with hempty
  · exact Or.inr ht
  · obtain ⟨order, blocks, hs⟩ := h.sound
    rw [not_or] at hempty
    have hplaced := text_pruneLoop _ _ ht
    rw [text_place hs ⟨hempty.1, zero_not_mem_cstr id⟩ ⟨hempty.2, zero_not_mem_cstr dsml⟩]
      at hplaced
    split_ifs at hplaced with hx
    · exact Or.inl ⟨hx, (Option.some.inj hplaced).symm⟩
    · exact Or.inr hplaced

end Steps

section Sizes
variable {m m' : ToolMemory} {order order' blocks blocks' : List ℕ}

def entryWeight (id : Bytes) : ℕ := id.length + 1 + sizeofEntry

def blockWeight (dsml : Bytes) : ℕ := dsml.length + 1 + sizeofBlock

theorem bytes_eq (h : Represents m order blocks) : m.bytes =
    ((entryIds m order).map entryWeight).sum +
      ((blocks.map fun b => (m.block b).dsml).map blockWeight).sum := by
  rw [h.bytes, entryIds, List.map_map, List.map_map]
  congr 2
  · apply List.map_congr_left
    exact fun a ha => h.entry_bytes a ha
  · apply List.map_congr_left
    exact fun b hb => h.block_bytes b hb

theorem texts_nodup (h : Represents m order blocks) :
    (blocks.map fun b => (m.block b).dsml).Nodup := by
  apply List.Nodup.map_on _ h.blocks_nodup
  intro x hx y hy hxy
  exact block_inj h hx hy hxy

theorem sum_le_of_subset {xs ys : List Bytes} (hnd : xs.Nodup) (hsub : xs ⊆ ys) (w : Bytes → ℕ) :
    (xs.map w).sum ≤ (ys.map w).sum := by
  obtain ⟨zs, hperm, hsubl⟩ := List.subperm_of_subset hnd hsub
  rw [← (hperm.map w).sum_eq]
  exact (hsubl.map w).sum_le_sum fun n _ => Nat.zero_le n

/-- A memory that holds no more than another is no larger. -/
theorem sizes_le (h' : Sound m' order' blocks') (h : Represents m order blocks)
    (hsub : ∀ id dsml, m'.text id = some dsml → m.text id = some dsml) :
    m'.entries ≤ m.entries ∧ m'.bytes ≤ m.bytes := by
  have hids : entryIds m' order' ⊆ entryIds m order := by
    intro id hid
    obtain ⟨a, ha, rfl⟩ := List.mem_map.1 hid
    have htext := hsub _ _ ((text_some h'.toRepresents).2 ⟨a, ha, rfl, rfl⟩)
    obtain ⟨x, hx, hxid, -⟩ := (text_some h).1 htext
    exact List.mem_map.2 ⟨x, hx, hxid⟩
  have htexts :
      (blocks'.map fun b => (m'.block b).dsml) ⊆ blocks.map fun b => (m.block b).dsml := by
    intro t ht
    obtain ⟨b, hb, rfl⟩ := List.mem_map.1 ht
    obtain ⟨a, ha, rfl⟩ := (used_iff h'.toRepresents).1 h'.used b hb
    have htext := hsub _ _ ((text_some h'.toRepresents).2 ⟨a, ha, rfl, rfl⟩)
    obtain ⟨x, hx, -, hxt⟩ := (text_some h).1 htext
    exact List.mem_map.2 ⟨_, h.owner x hx, hxt⟩
  have hnd := entryIds_nodup h'.toRepresents
  constructor
  · have hlen := (List.subperm_of_subset hnd hids).length_le
    rw [length_entryIds, length_entryIds] at hlen
    rw [h'.count, h.count]
    exact hlen
  · rw [bytes_eq h'.toRepresents, bytes_eq h]
    exact Nat.add_le_add (sum_le_of_subset hnd hids _)
      (sum_le_of_subset (texts_nodup h'.toRepresents) htexts _)

end Sizes

end Ds4.Memory
