import Ds4.Memory.ToolMemory

/-! What the structures of the tool memory have to agree on, and that each step of an operation
keeps it. -/
namespace Ds4.Memory
open ToolMemory

/-- The two indexes, the list and the chains of a memory hold the same entries, from the most
recent one on, and the same blocks. -/
structure Represents (m : ToolMemory) (order blocks : List ℕ) : Prop where
  lru : m.lru.Holds order
  blocks_nodup : blocks.Nodup
  byId : ∀ id a, m.byId id = some a ↔ a ∈ order ∧ (m.entry a).id = id
  byBlock : ∀ t b, m.byBlock t = some b ↔ b ∈ blocks ∧ (m.block b).dsml = t
  owner : ∀ a ∈ order, (m.entry a).block ∈ blocks
  chain : ∀ b ∈ blocks, (m.block b).entries.Perm (order.filter fun a => (m.entry a).block = b)
  refs : ∀ b ∈ blocks, (m.block b).refs = order.countP fun a => (m.entry a).block = b
  count : m.entries = order.length
  bytes : m.bytes = (order.map fun a => (m.entry a).bytes).sum +
    (blocks.map fun b => (m.block b).bytes).sum
  entry_bytes : ∀ a ∈ order, (m.entry a).bytes = (m.entry a).id.length + 1 + sizeofEntry
  block_bytes : ∀ b ∈ blocks, (m.block b).bytes = (m.block b).dsml.length + 1 + sizeofBlock
  stamps : order.Pairwise fun a b => (m.entry b).stamp < (m.entry a).stamp
  clock : ∀ a ∈ order, (m.entry a).stamp ≤ m.clock
  fresh : (∀ a ∈ order, a < m.fresh) ∧ ∀ b ∈ blocks, b < m.fresh
  id_ok : ∀ a ∈ order, (m.entry a).id ≠ [] ∧ 0 ∉ (m.entry a).id
  text_ok : ∀ b ∈ blocks, (m.block b).dsml ≠ [] ∧ 0 ∉ (m.block b).dsml
  seen : ∀ b ∈ blocks, (m.block b).seen ≤ m.scanClock

section Lists
variable {α : Type} [DecidableEq α] {xs : List α} {x : α}

theorem filter_erase (h : xs.Nodup) (p : α → Bool) :
    (xs.erase x).filter p = (xs.filter p).erase x := by
  rw [h.erase_eq_filter, (h.filter p).erase_eq_filter, List.filter_filter, List.filter_filter]
  congr 1
  funext y
  rw [Bool.and_comm]

theorem sum_erase (h : x ∈ xs) (f : α → ℕ) :
    (xs.map f).sum = f x + ((xs.erase x).map f).sum := by
  have hp := ((List.perm_cons_erase h).map f).sum_eq
  rwa [List.map_cons, List.sum_cons] at hp

theorem countP_erase (h : x ∈ xs) (p : α → Bool) :
    xs.countP p = (if p x then 1 else 0) + (xs.erase x).countP p := by
  rw [(List.perm_cons_erase h).countP_eq, List.countP_cons, Nat.add_comm]

end Lists

section Touch
variable {m : ToolMemory} {order blocks : List ℕ} {a x : ℕ}

theorem touch_entry (m : ToolMemory) (a x : ℕ) : (m.touch a).entry x =
    if x = a then { m.entry a with stamp := m.clock + 1 } else m.entry x := by
  by_cases h : x = a
  · rw [if_pos h, h]
    exact Function.update_self a _ _
  · rw [if_neg h]
    exact Function.update_of_ne h _ _

theorem touch_same (m : ToolMemory) (a x : ℕ) : ((m.touch a).entry x).id = (m.entry x).id ∧
    ((m.touch a).entry x).block = (m.entry x).block ∧
    ((m.touch a).entry x).bytes = (m.entry x).bytes := by
  rw [touch_entry]
  split_ifs with h
  · rw [h]
    exact ⟨rfl, rfl, rfl⟩
  · exact ⟨rfl, rfl, rfl⟩

/-- The list of a touched entry. -/
theorem touch_lru (h : m.lru.Holds order) (ha : a ∈ order) :
    (m.touch a).lru.Holds (a :: order.erase a) := by
  obtain ⟨as, bs, rfl⟩ := List.append_of_mem ha
  have hnd := h.nodup
  have has : a ∉ as := by
    intro hmem
    exact List.disjoint_of_nodup_append hnd hmem List.mem_cons_self
  have herase : (as ++ a :: bs).erase a = as ++ bs := by
    rw [List.erase_append_right _ has, List.erase_cons_head]
  have hnot : a ∉ as ++ bs := (List.nodup_cons.1 (List.nodup_middle.1 hnd)).1
  rw [herase]
  unfold touch
  simp only
  split_ifs with hhead
  · cases as with
    | nil => exact h
    | cons c as =>
      rw [h.head] at hhead
      have hca : c = a := by simpa using hhead
      exact absurd (hca ▸ List.mem_cons_self) has
  · exact Parts.Links.linkHead_holds (Parts.Links.unlink_holds h) hnot

/-- A touched entry is the most recent one. -/
theorem touch_represents (h : Represents m order blocks) (ha : a ∈ order) :
    Represents (m.touch a) (a :: order.erase a) blocks := by
  have hperm : order.Perm (a :: order.erase a) := List.perm_cons_erase ha
  have hmem : ∀ x, x ∈ a :: order.erase a ↔ x ∈ order := fun x => hperm.mem_iff.symm
  have hsame := touch_same m a
  have hnd := h.lru.nodup
  refine
    { lru := touch_lru h.lru ha
      blocks_nodup := h.blocks_nodup
      byId := ?_
      byBlock := h.byBlock
      owner := ?_
      chain := ?_
      refs := ?_
      count := h.count.trans hperm.length_eq
      bytes := ?_
      entry_bytes := ?_
      block_bytes := h.block_bytes
      stamps := ?_
      clock := ?_
      fresh := ⟨fun x hx => h.fresh.1 x ((hmem x).1 hx), h.fresh.2⟩
      id_ok := ?_
      text_ok := h.text_ok
      seen := h.seen }
  · intro id x
    rw [hmem, (hsame x).1]
    exact h.byId id x
  · intro x hx
    rw [(hsame x).2.1]
    exact h.owner x ((hmem x).1 hx)
  · intro b hb
    simp only [hsame]
    exact (h.chain b hb).trans (hperm.filter _)
  · intro b hb
    simp only [hsame]
    rw [← hperm.countP_eq]
    exact h.refs b hb
  · simp only [hsame]
    rw [← (hperm.map _).sum_eq]
    exact h.bytes
  · intro x hx
    rw [(hsame x).1, (hsame x).2.2]
    exact h.entry_bytes x ((hmem x).1 hx)
  · have hrest := h.stamps.sublist (List.erase_sublist (a := a))
    rw [List.pairwise_cons]
    constructor
    · intro x hx
      have hxa : x ≠ a := fun hxa => hnd.not_mem_erase (hxa ▸ hx)
      have hclock := h.clock x (List.mem_of_mem_erase hx)
      rw [touch_entry, touch_entry, if_neg hxa, if_pos rfl]
      exact Nat.lt_succ_of_le hclock
    · apply hrest.imp_of_mem
      intro x y hx hy hxy
      have hxa : x ≠ a := fun hxa => hnd.not_mem_erase (hxa ▸ hx)
      have hya : y ≠ a := fun hya => hnd.not_mem_erase (hya ▸ hy)
      rwa [touch_entry, touch_entry, if_neg hxa, if_neg hya]
  · intro x hx
    rw [touch_entry]
    split_ifs with hxa
    · exact le_refl _
    · exact (h.clock x ((hmem x).1 hx)).trans (Nat.le_succ _)
  · intro x hx
    rw [(hsame x).1]
    exact h.id_ok x ((hmem x).1 hx)

end Touch

section Remove
variable {m : ToolMemory} {order blocks : List ℕ} {a : ℕ}

/-- The block of an entry that goes. -/
def releasedBlock (m : ToolMemory) (a : ℕ) : Block :=
  let blk := m.block (m.entry a).block
  { blk with refs := blk.refs - 1, entries := blk.entries.erase a }

/-- The memory behind a removal: the block goes with its last entry. -/
theorem removeEntry_eq (m : ToolMemory) (a : ℕ) : m.removeEntry a =
    { m with
      byId := Function.update m.byId (m.entry a).id none
      byBlock := if 0 < (releasedBlock m a).refs then m.byBlock
        else Function.update m.byBlock (releasedBlock m a).dsml none
      block := Function.update m.block (m.entry a).block (releasedBlock m a)
      lru := m.lru.unlink a
      entries := m.entries - 1
      bytes := if 0 < (releasedBlock m a).refs then m.bytes - (m.entry a).bytes
        else m.bytes - (m.entry a).bytes - (releasedBlock m a).bytes } := by
  unfold removeEntry releaseBlock unchain releasedBlock
  simp only [Function.update_self, Function.update_idem]
  split_ifs <;> rfl

/-- The blocks that stay when an entry goes. -/
def blocksWithout (m : ToolMemory) (blocks : List ℕ) (a : ℕ) : List ℕ :=
  if 0 < (releasedBlock m a).refs then blocks else blocks.erase (m.entry a).block

theorem releasedBlock_refs (h : Represents m order blocks) (ha : a ∈ order) :
    (releasedBlock m a).refs =
      (order.erase a).countP fun x => (m.entry x).block = (m.entry a).block := by
  have hrefs := h.refs _ (h.owner a ha)
  rw [countP_erase ha] at hrefs
  simp only [decide_true, if_true] at hrefs
  show (m.block (m.entry a).block).refs - 1 = _
  omega

theorem removed_block (m : ToolMemory) (a x : ℕ) :
    ((m.removeEntry a).block x).dsml = (m.block x).dsml ∧
      ((m.removeEntry a).block x).bytes = (m.block x).bytes := by
  rw [removeEntry_eq]
  by_cases hx : x = (m.entry a).block
  · simp only [hx, Function.update_self]
    exact ⟨rfl, rfl⟩
  · simp only [Function.update_of_ne hx]
    exact ⟨trivial, trivial⟩

theorem block_inj (h : Represents m order blocks) {b c : ℕ} (hb : b ∈ blocks) (hc : c ∈ blocks)
    (hbc : (m.block b).dsml = (m.block c).dsml) : b = c := by
  have h₁ := (h.byBlock (m.block c).dsml b).2 ⟨hb, hbc⟩
  have h₂ := (h.byBlock (m.block c).dsml c).2 ⟨hc, rfl⟩
  exact Option.some.inj (h₁.symm.trans h₂)

theorem entry_inj (h : Represents m order blocks) {x y : ℕ} (hx : x ∈ order) (hy : y ∈ order)
    (hxy : (m.entry x).id = (m.entry y).id) : x = y := by
  have h₁ := (h.byId (m.entry y).id x).2 ⟨hx, hxy⟩
  have h₂ := (h.byId (m.entry y).id y).2 ⟨hy, rfl⟩
  exact Option.some.inj (h₁.symm.trans h₂)

theorem mem_blocksWithout (h : Represents m order blocks) {b : ℕ} :
    b ∈ blocksWithout m blocks a ↔
      b ∈ blocks ∧ (b = (m.entry a).block → 0 < (releasedBlock m a).refs) := by
  unfold blocksWithout
  split_ifs with hrefs
  · constructor
    · exact fun hb => ⟨hb, fun _ => hrefs⟩
    · exact fun hb => hb.1
  · rw [h.blocks_nodup.mem_erase_iff]
    constructor
    · rintro ⟨hne, hb⟩
      exact ⟨hb, fun heq => absurd heq hne⟩
    · rintro ⟨hb, himp⟩
      exact ⟨fun heq => hrefs (himp heq), hb⟩

/-- The ids of the entries, from the most recent one on. -/
def entryIds (m : ToolMemory) (order : List ℕ) : List Bytes := order.map fun a => (m.entry a).id

theorem length_entryIds (m : ToolMemory) (order : List ℕ) :
    (entryIds m order).length = order.length := List.length_map _

theorem entryIds_nodup (h : Represents m order blocks) : (entryIds m order).Nodup := by
  apply List.Nodup.map_on _ h.lru.nodup
  intro x hx y hy hxy
  exact entry_inj h hx hy hxy

theorem entryIds_erase (h : Represents m order blocks) (ha : a ∈ order) :
    entryIds m (order.erase a) = (entryIds m order).filter (· ≠ (m.entry a).id) := by
  rw [h.lru.nodup.erase_eq_filter, entryIds, entryIds, List.filter_map]
  congr 1
  apply List.filter_congr
  intro x hx
  by_cases hxa : x = a
  · simp [hxa]
  · have hid : (m.entry x).id ≠ (m.entry a).id := fun hid => hxa (entry_inj h hx ha hid)
    exact (bne_iff_ne.2 hxa).trans (decide_eq_true hid).symm

/-- A removed entry is gone everywhere. -/
theorem removeEntry_represents (h : Represents m order blocks) (ha : a ∈ order) :
    Represents (m.removeEntry a) (order.erase a) (blocksWithout m blocks a) := by
  have hnd := h.lru.nodup
  have hown := h.owner a ha
  have hsub : ∀ x ∈ order.erase a, x ∈ order := fun x => List.mem_of_mem_erase
  have hbsub : ∀ b ∈ blocksWithout m blocks a, b ∈ blocks :=
    fun b hb => ((mem_blocksWithout h).1 hb).1
  have hrefs := releasedBlock_refs h ha
  have hent : (m.removeEntry a).entry = m.entry := by rw [removeEntry_eq]
  have hblk := removed_block m a
  refine
    { lru := ?_
      blocks_nodup := ?_
      byId := ?_
      byBlock := ?_
      owner := ?_
      chain := ?_
      refs := ?_
      count := ?_
      bytes := ?_
      entry_bytes := fun x hx => hent ▸ h.entry_bytes x (hsub x hx)
      block_bytes := ?_
      stamps := hent ▸ h.stamps.sublist List.erase_sublist
      clock := ?_
      fresh := ?_
      id_ok := fun x hx => hent ▸ h.id_ok x (hsub x hx)
      text_ok := ?_
      seen := ?_ }
  · obtain ⟨as, bs, rfl⟩ := List.append_of_mem ha
    have has : a ∉ as := fun hmem =>
      List.disjoint_of_nodup_append hnd hmem List.mem_cons_self
    rw [List.erase_append_right _ has, List.erase_cons_head, removeEntry_eq]
    exact Parts.Links.unlink_holds h.lru
  · unfold blocksWithout
    split_ifs
    · exact h.blocks_nodup
    · exact h.blocks_nodup.erase _
  · intro id x
    rw [hent, hnd.mem_erase_iff, removeEntry_eq]
    simp only
    by_cases hid : id = (m.entry a).id
    · subst hid
      rw [Function.update_self]
      apply iff_of_false
      · intro hx
        cases hx
      · rintro ⟨⟨hne, hx⟩, hid⟩
        exact hne (entry_inj h hx ha hid)
    · rw [Function.update_of_ne hid, h.byId]
      constructor
      · rintro ⟨hx, hxid⟩
        refine ⟨⟨?_, hx⟩, hxid⟩
        rintro rfl
        exact hid hxid.symm
      · rintro ⟨⟨-, hx⟩, hxid⟩
        exact ⟨hx, hxid⟩
  · intro t b
    rw [(hblk b).1, mem_blocksWithout h, removeEntry_eq]
    simp only
    split_ifs with hpos
    · rw [h.byBlock]
      constructor
      · exact fun hb => ⟨⟨hb.1, fun _ => hpos⟩, hb.2⟩
      · exact fun hb => ⟨hb.1.1, hb.2⟩
    · have hdsml : (releasedBlock m a).dsml = (m.block (m.entry a).block).dsml := rfl
      by_cases ht : t = (m.block (m.entry a).block).dsml
      · rw [hdsml, ht, Function.update_self]
        apply iff_of_false
        · intro hb
          cases hb
        · rintro ⟨⟨hb, himp⟩, heq⟩
          exact hpos (himp (block_inj h hb hown heq))
      · rw [hdsml, Function.update_of_ne ht, h.byBlock]
        constructor
        · rintro ⟨hb, hbt⟩
          refine ⟨⟨hb, ?_⟩, hbt⟩
          rintro rfl
          exact absurd hbt.symm ht
        · rintro ⟨⟨hb, -⟩, hbt⟩
          exact ⟨hb, hbt⟩
  · intro x hx
    rw [hent, mem_blocksWithout h]
    refine ⟨h.owner x (hsub x hx), ?_⟩
    intro heq
    rw [hrefs, List.countP_pos_iff]
    exact ⟨x, hx, decide_eq_true heq⟩
  · intro b hb
    rw [hent, filter_erase hnd, removeEntry_eq]
    simp only
    by_cases hba : b = (m.entry a).block
    · subst hba
      rw [Function.update_self]
      exact (h.chain _ hown).erase a
    · rw [Function.update_of_ne hba, List.erase_of_not_mem]
      · exact h.chain b (hbsub b hb)
      · intro hmem
        exact hba (of_decide_eq_true (List.mem_filter.1 hmem).2).symm
  · intro b hb
    rw [hent, removeEntry_eq]
    simp only
    by_cases hba : b = (m.entry a).block
    · subst hba
      rw [Function.update_self, hrefs]
    · have hcount := h.refs b (hbsub b hb)
      rw [countP_erase ha, if_neg (by simpa using fun heq => hba heq.symm), Nat.zero_add] at hcount
      rw [Function.update_of_ne hba, hcount]
  · rw [removeEntry_eq, List.length_erase_of_mem ha]
    exact congrArg (· - 1) h.count
  · have hbytes := h.bytes
    rw [sum_erase ha] at hbytes
    have hbsum : ((blocksWithout m blocks a).map fun b => ((m.removeEntry a).block b).bytes) =
        (blocksWithout m blocks a).map fun b => (m.block b).bytes := by
      apply List.map_congr_left
      exact fun b _ => (hblk b).2
    rw [hent, hbsum, removeEntry_eq]
    unfold blocksWithout
    simp only
    split_ifs with hpos
    · omega
    · have hb : (releasedBlock m a).bytes = (m.block (m.entry a).block).bytes := rfl
      rw [sum_erase hown] at hbytes
      omega
  · intro b hb
    rw [(hblk b).1, (hblk b).2]
    exact h.block_bytes b (hbsub b hb)
  · intro x hx
    rw [hent, removeEntry_eq]
    exact h.clock x (hsub x hx)
  · rw [removeEntry_eq]
    exact ⟨fun x hx => h.fresh.1 x (hsub x hx), fun b hb => h.fresh.2 b (hbsub b hb)⟩
  · intro b hb
    rw [(hblk b).1]
    exact h.text_ok b (hbsub b hb)
  · intro b hb
    rw [removeEntry_eq]
    simp only
    by_cases hba : b = (m.entry a).block
    · subst hba
      rw [Function.update_self]
      exact h.seen _ hown
    · rw [Function.update_of_ne hba]
      exact h.seen b (hbsub b hb)

theorem removeEntry_used (h : Represents m order blocks) (hu : ∀ b ∈ blocks, 0 < (m.block b).refs) :
    ∀ b ∈ blocksWithout m blocks a, 0 < ((m.removeEntry a).block b).refs := by
  intro b hb
  obtain ⟨hmem, hpos⟩ := (mem_blocksWithout h).1 hb
  rw [removeEntry_eq]
  by_cases hba : b = (m.entry a).block
  · subst hba
    simp only [Function.update_self]
    exact hpos rfl
  · simp only [Function.update_of_ne hba]
    exact hu b hmem

end Remove

end Ds4.Memory
