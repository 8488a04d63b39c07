import Ds4.Memory.Represents

/-! A put into the tool memory: the block, the entry, the pruning. -/
namespace Ds4.Memory
open ToolMemory

section Renew
variable {m : ToolMemory} {order blocks : List ℕ} {a : ℕ} {source : Source}

/-- Where an entry is from is nothing the structures depend on. -/
theorem setSource_represents (h : Represents m order blocks) (a : ℕ) (s : Source) :
    Represents { m with entry := Function.update m.entry a { m.entry a with source := s } }
      order blocks := by
  have hsame : ∀ x, (Function.update m.entry a { m.entry a with source := s } x).id =
      (m.entry x).id ∧
      (Function.update m.entry a { m.entry a with source := s } x).block = (m.entry x).block ∧
      (Function.update m.entry a { m.entry a with source := s } x).bytes = (m.entry x).bytes ∧
      (Function.update m.entry a { m.entry a with source := s } x).stamp = (m.entry x).stamp := by
    intro x
    by_cases hx : x = a
    · rw [hx, Function.update_self]
      exact ⟨rfl, rfl, rfl, rfl⟩
    · rw [Function.update_of_ne hx]
      exact ⟨rfl, rfl, rfl, rfl⟩
  refine
    { lru := h.lru
      blocks_nodup := h.blocks_nodup
      byId := ?_
      byBlock := h.byBlock
      owner := ?_
      chain := ?_
      refs := ?_
      count := h.count
      bytes := ?_
      entry_bytes := ?_
      block_bytes := h.block_bytes
      stamps := ?_
      clock := ?_
      fresh := h.fresh
      id_ok := ?_
      text_ok := h.text_ok
      seen := h.seen }
  · simpa only [hsame] using h.byId
  · simpa only [hsame] using h.owner
  · simpa only [hsame] using h.chain
  · simpa only [hsame] using h.refs
  · simpa only [hsame] using h.bytes
  · simpa only [hsame] using h.entry_bytes
  · simpa only [hsame] using h.stamps
  · simpa only [hsame] using h.clock
  · simpa only [hsame] using h.id_ok

theorem renew_represents (h : Represents m order blocks) (ha : a ∈ order) (source : Source) :
    Represents (m.renew a source) (a :: order.erase a) blocks := by
  unfold renew
  split_ifs
  · exact touch_represents (setSource_represents h a .ram) ha
  · exact touch_represents h ha

theorem renew_block (m : ToolMemory) (a : ℕ) (source : Source) :
    (m.renew a source).block = m.block := by
  unfold renew
  split_ifs <;> rfl

theorem renew_id (m : ToolMemory) (a : ℕ) (source : Source) (x : ℕ) :
    ((m.renew a source).entry x).id = (m.entry x).id := by
  unfold renew
  simp only
  rw [(touch_same _ a x).1]
  split_ifs
  · by_cases hx : x = a
    · simp only [hx, Function.update_self]
    · simp only [Function.update_of_ne hx]
  · rfl

end Renew

section Block
variable {m : ToolMemory} {order blocks : List ℕ} {dsml : Bytes}

theorem findBlock_eq (hd : dsml ≠ []) : m.findBlock dsml = m.byBlock dsml := if_neg hd

/-- The block of a text is among the blocks, as a new one where there was none. -/
theorem getBlock_represents (h : Represents m order blocks) (hd : dsml ≠ [] ∧ 0 ∉ dsml) :
    ∃ blocks', Represents (m.getBlock dsml).1 order blocks' ∧
      ((m.getBlock dsml).2 ∈ blocks' ∧
        ((m.getBlock dsml).1.block (m.getBlock dsml).2).dsml = dsml) ∧
      (∀ b ∈ blocks', b ≠ (m.getBlock dsml).2 → b ∈ blocks) ∧
      ∀ b ∈ blocks, (m.getBlock dsml).1.block b = m.block b := by
  unfold getBlock
  rw [findBlock_eq hd.1]
  cases hfind : m.byBlock dsml with
  | some b =>
    exact ⟨blocks, h, (h.byBlock dsml b).1 hfind, fun c hc _ => hc, fun c _ => rfl⟩
  | none =>
    have hnew : m.fresh ∉ blocks := fun hmem => (h.fresh.2 _ hmem).false
    have hold : ∀ b ∈ blocks, ∀ blk, Function.update m.block m.fresh blk b = m.block b := by
      intro b hb blk
      apply Function.update_of_ne
      rintro rfl
      exact hnew hb
    have hunused : ∀ x ∈ order, (m.entry x).block ≠ m.fresh := by
      intro x hx heq
      exact hnew (heq ▸ h.owner x hx)
    refine ⟨m.fresh :: blocks, ?_, ⟨List.mem_cons_self, ?_⟩, ?_, fun b hb => hold b hb _⟩
    · refine
        { lru := h.lru
          blocks_nodup := List.nodup_cons.2 ⟨hnew, h.blocks_nodup⟩
          byId := h.byId
          byBlock := ?_
          owner := fun x hx => List.mem_cons_of_mem _ (h.owner x hx)
          chain := ?_
          refs := ?_
          count := h.count
          bytes := ?_
          entry_bytes := h.entry_bytes
          block_bytes := ?_
          stamps := h.stamps
          clock := h.clock
          fresh := ?_
          id_ok := h.id_ok
          text_ok := ?_
          seen := ?_ }
      · intro t b
        simp only
        by_cases ht : t = dsml
        · subst ht
          rw [Function.update_self]
          constructor
          · rintro hb
            obtain rfl := Option.some.inj hb
            rw [Function.update_self]
            exact ⟨List.mem_cons_self, rfl⟩
          · rintro ⟨hb, hbt⟩
            rcases List.mem_cons.1 hb with rfl | hb
            · rfl
            · rw [hold b hb] at hbt
              have hfound := (h.byBlock t b).2 ⟨hb, hbt⟩
              rw [hfind] at hfound
              cases hfound
        · rw [Function.update_of_ne ht, h.byBlock]
          constructor
          · rintro ⟨hb, hbt⟩
            rw [hold b hb]
            exact ⟨List.mem_cons_of_mem _ hb, hbt⟩
          · rintro ⟨hb, hbt⟩
            rcases List.mem_cons.1 hb with rfl | hb
            · rw [Function.update_self] at hbt
              exact absurd hbt.symm ht
            · rw [hold b hb] at hbt
              exact ⟨hb, hbt⟩
      · intro b hb
        rcases List.mem_cons.1 hb with rfl | hb
        · simp only [Function.update_self]
          have hnone : order.filter (fun a => (m.entry a).block = m.fresh) = [] := by
            rw [List.filter_eq_nil_iff]
            intro x hx
            simpa using hunused x hx
          rw [hnone]
        · simp only [hold b hb]
          exact h.chain b hb
      · intro b hb
        rcases List.mem_cons.1 hb with rfl | hb
        · simp only [Function.update_self]
          symm
          rw [List.countP_eq_zero]
          intro x hx
          simpa using hunused x hx
        · simp only [hold b hb]
          exact h.refs b hb
      · have hsum : blocks.map (fun b => (Function.update m.block m.fresh
            ⟨dsml, dsml.length + 1 + sizeofBlock, 0, 0, []⟩ b).bytes) =
            blocks.map fun b => (m.block b).bytes := by
          apply List.map_congr_left
          intro b hb
          rw [hold b hb]
        simp only [List.map_cons, List.sum_cons, Function.update_self, hsum]
        have hbytes := h.bytes
        omega
      · intro b hb
        rcases List.mem_cons.1 hb with rfl | hb
        · simp only [Function.update_self]
        · simp only [hold b hb]
          exact h.block_bytes b hb
      · constructor
        · intro x hx
          exact (h.fresh.1 x hx).trans (Nat.lt_succ_self _)
        · intro b hb
          rcases List.mem_cons.1 hb with rfl | hb
          · exact Nat.lt_succ_self _
          · exact (h.fresh.2 b hb).trans (Nat.lt_succ_self _)
      · intro b hb
        rcases List.mem_cons.1 hb with rfl | hb
        · simp only [Function.update_self]
          exact hd
        · simp only [hold b hb]
          exact h.text_ok b hb
      · intro b hb
        rcases List.mem_cons.1 hb with rfl | hb
        · simp only [Function.update_self]
          exact Nat.zero_le _
        · simp only [hold b hb]
          exact h.seen b hb
    · simp only [Function.update_self]
    · intro b hb hne
      exact (List.mem_cons.1 hb).resolve_left hne

theorem getBlock_entry (m : ToolMemory) (dsml : Bytes) : (m.getBlock dsml).1.entry = m.entry := by
  unfold getBlock
  cases m.findBlock dsml <;> rfl

theorem getBlock_byId (m : ToolMemory) (dsml : Bytes) : (m.getBlock dsml).1.byId = m.byId := by
  unfold getBlock
  cases m.findBlock dsml <;> rfl

end Block

section Add
variable {m : ToolMemory} {order blocks : List ℕ} {id : Bytes} {b : ℕ} {source : Source}

theorem addEntry_self (m : ToolMemory) (id : Bytes) (b : ℕ) (source : Source) :
    (m.addEntry id b source).entry m.fresh =
      ⟨id, b, id.length + 1 + sizeofEntry, m.clock + 1, source⟩ := Function.update_self _ _ _

theorem addEntry_block (m : ToolMemory) (id : Bytes) (b : ℕ) (source : Source) (c : ℕ) :
    ((m.addEntry id b source).block c).dsml = (m.block c).dsml ∧
      ((m.addEntry id b source).block c).bytes = (m.block c).bytes ∧
      ((m.addEntry id b source).block c).seen = (m.block c).seen := by
  unfold addEntry
  simp only
  by_cases hc : c = b
  · rw [hc, Function.update_self]
    exact ⟨rfl, rfl, rfl⟩
  · rw [Function.update_of_ne hc]
    exact ⟨rfl, rfl, rfl⟩

/-- A new entry, in front of all. -/
theorem addEntry_represents (h : Represents m order blocks) (hid : id ≠ [] ∧ 0 ∉ id)
    (hnone : m.byId id = none) (hb : b ∈ blocks) (source : Source) :
    Represents (m.addEntry id b source) (m.fresh :: order) blocks := by
  have hnew : m.fresh ∉ order := fun hmem => (h.fresh.1 _ hmem).false
  have hold : ∀ x ∈ order, (m.addEntry id b source).entry x = m.entry x := by
    intro x hx
    apply Function.update_of_ne
    rintro rfl
    exact hnew hx
  have hself := addEntry_self m id b source
  have hown := addEntry_block m id b source
  have hblk : ∀ c ≠ b, (m.addEntry id b source).block c = m.block c :=
    fun c hc => Function.update_of_ne hc _ _
  have hfilter : ∀ c, order.filter (fun x => ((m.addEntry id b source).entry x).block = c) =
      order.filter fun x => (m.entry x).block = c := by
    intro c
    apply List.filter_congr
    intro x hx
    rw [hold x hx]
  refine
    { lru := Parts.Links.linkHead_holds h.lru hnew
      blocks_nodup := h.blocks_nodup
      byId := ?_
      byBlock := ?_
      owner := ?_
      chain := ?_
      refs := ?_
      count := ?_
      bytes := ?_
      entry_bytes := ?_
      block_bytes := ?_
      stamps := ?_
      clock := ?_
      fresh := ?_
      id_ok := ?_
      text_ok := ?_
      seen := ?_ }
  · intro t x
    show Function.update m.byId id (some m.fresh) t = some x ↔ _
    by_cases ht : t = id
    · subst ht
      rw [Function.update_self]
      constructor
      · intro hx
        obtain rfl := Option.some.inj hx
        rw [hself]
        exact ⟨List.mem_cons_self, rfl⟩
      · rintro ⟨hx, hxid⟩
        rcases List.mem_cons.1 hx with rfl | hx
        · rfl
        · rw [hold x hx] at hxid
          have hfound := (h.byId t x).2 ⟨hx, hxid⟩
          rw [hnone] at hfound
          cases hfound
    · rw [Function.update_of_ne ht, h.byId]
      constructor
      · rintro ⟨hx, hxid⟩
        rw [hold x hx]
        exact ⟨List.mem_cons_of_mem _ hx, hxid⟩
      · rintro ⟨hx, hxid⟩
        rcases List.mem_cons.1 hx with rfl | hx
        · rw [hself] at hxid
          exact absurd hxid.symm ht
        · rw [hold x hx] at hxid
          exact ⟨hx, hxid⟩
  · intro t c
    rw [(hown c).1]
    exact h.byBlock t c
  · intro x hx
    rcases List.mem_cons.1 hx with rfl | hx
    · rw [hself]
      exact hb
    · rw [hold x hx]
      exact h.owner x hx
  · intro c hc
    rw [List.filter_cons, hself, hfilter]
    by_cases hcb : c = b
    · subst hcb
      have hchain : ((m.addEntry id c source).block c).entries =
          m.fresh :: (m.block c).entries := by
        show (Function.update m.block c _ c).entries = _
        rw [Function.update_self]
      rw [hchain, if_pos (decide_eq_true rfl)]
      exact (h.chain c hc).cons _
    · rw [hblk c hcb, if_neg (by simpa using fun heq => hcb heq.symm)]
      exact h.chain c hc
  · intro c hc
    rw [List.countP_eq_length_filter, List.filter_cons, hself, hfilter]
    have hrefs := h.refs c hc
    rw [List.countP_eq_length_filter] at hrefs
    by_cases hcb : c = b
    · subst hcb
      have hone : ((m.addEntry id c source).block c).refs = (m.block c).refs + 1 := by
        show (Function.update m.block c _ c).refs = _
        rw [Function.update_self]
      rw [hone, hrefs, if_pos (decide_eq_true rfl), List.length_cons]
    · rw [hblk c hcb, if_neg (by simpa using fun heq => hcb heq.symm)]
      exact hrefs
  · show m.entries + 1 = _
    rw [h.count, List.length_cons]
  · have horder : order.map (fun x => ((m.addEntry id b source).entry x).bytes) =
        order.map fun x => (m.entry x).bytes := by
      apply List.map_congr_left
      intro x hx
      rw [hold x hx]
    have hblocks : blocks.map (fun c => ((m.addEntry id b source).block c).bytes) =
        blocks.map fun c => (m.block c).bytes := by
      apply List.map_congr_left
      exact fun c _ => (hown c).2.1
    rw [List.map_cons, List.sum_cons, hself, horder, hblocks]
    show m.bytes + (id.length + 1 + sizeofEntry) = (id.length + 1 + sizeofEntry + _) + _
    have hbytes := h.bytes
    omega
  · intro x hx
    rcases List.mem_cons.1 hx with rfl | hx
    · rw [hself]
    · rw [hold x hx]
      exact h.entry_bytes x hx
  · intro c hc
    rw [(hown c).1, (hown c).2.1]
    exact h.block_bytes c hc
  · rw [List.pairwise_cons]
    constructor
    · intro x hx
      rw [hself, hold x hx]
      exact Nat.lt_succ_of_le (h.clock x hx)
    · apply h.stamps.imp_of_mem
      intro x y hx hy hxy
      rwa [hold x hx, hold y hy]
  · intro x hx
    show _ ≤ m.clock + 1
    rcases List.mem_cons.1 hx with rfl | hx
    · rw [hself]
    · rw [hold x hx]
      exact (h.clock x hx).trans (Nat.le_succ _)
  · constructor
    · intro x hx
      show x < m.fresh + 1
      rcases List.mem_cons.1 hx with rfl | hx
      · exact Nat.lt_succ_self _
      · exact (h.fresh.1 x hx).trans (Nat.lt_succ_self _)
    · intro c hc
      exact (h.fresh.2 c hc).trans (Nat.lt_succ_self _)
  · intro x hx
    rcases List.mem_cons.1 hx with rfl | hx
    · rw [hself]
      exact hid
    · rw [hold x hx]
      exact h.id_ok x hx
  · intro c hc
    rw [(hown c).1]
    exact h.text_ok c hc
  · intro c hc
    rw [(hown c).2.2]
    exact h.seen c hc

end Add

/-- The structures agree and no block is kept in vain. -/
structure Sound (m : ToolMemory) (order blocks : List ℕ) : Prop
    extends Represents m order blocks where
  used : ∀ b ∈ blocks, 0 < (m.block b).refs

theorem empty_sound (maxEntries : ℤ) (maxBytes : ℕ) :
    Sound (ToolMemory.empty maxEntries maxBytes) [] [] where
  lru := Parts.Links.empty_holds
  blocks_nodup := List.nodup_nil
  byId := by simp [ToolMemory.empty]
  byBlock := by simp [ToolMemory.empty]
  owner := by simp
  chain := by simp
  refs := by simp
  count := rfl
  bytes := rfl
  entry_bytes := by simp
  block_bytes := by simp
  stamps := List.Pairwise.nil
  clock := by simp
  fresh := by simp
  id_ok := by simp
  text_ok := by simp
  seen := by simp
  used := by simp

section Place
variable {m : ToolMemory} {order blocks : List ℕ} {id dsml : Bytes} {source : Source} {a : ℕ}

theorem used_iff (h : Represents m order blocks) : (∀ b ∈ blocks, 0 < (m.block b).refs) ↔
    ∀ b ∈ blocks, ∃ x ∈ order, (m.entry x).block = b := by
  constructor
  · intro hu b hb
    have hpos := hu b hb
    rw [h.refs b hb, List.countP_pos_iff] at hpos
    obtain ⟨x, hx, hxb⟩ := hpos
    exact ⟨x, hx, of_decide_eq_true hxb⟩
  · intro hu b hb
    obtain ⟨x, hx, hxb⟩ := hu b hb
    rw [h.refs b hb, List.countP_pos_iff]
    exact ⟨x, hx, decide_eq_true hxb⟩

theorem findEntry_some (h : Represents m order blocks) :
    m.findEntry id = some a ↔ a ∈ order ∧ (m.entry a).id = id := by
  unfold findEntry
  split_ifs with hid
  · subst hid
    apply iff_of_false
    · intro ha
      cases ha
    · rintro ⟨ha, hnil⟩
      exact (h.id_ok a ha).1 hnil
  · exact h.byId id a

theorem touch_sound (h : Sound m order blocks) (ha : a ∈ order) :
    Sound (m.touch a) (a :: order.erase a) blocks :=
  { touch_represents h.toRepresents ha with used := h.used }

theorem renew_sound (h : Sound m order blocks) (ha : a ∈ order) :
    Sound (m.renew a source) (a :: order.erase a) blocks :=
  { renew_represents h.toRepresents ha source with
    used := fun b hb => renew_block m a source ▸ h.used b hb }

theorem removeEntry_sound (h : Sound m order blocks) (ha : a ∈ order) :
    Sound (m.removeEntry a) (order.erase a) (blocksWithout m blocks a) :=
  { removeEntry_represents h.toRepresents ha with
    used := removeEntry_used h.toRepresents h.used }

/-- A text under an id the memory does not have. -/
theorem addNew_sound (h : Sound m order blocks) (hid : id ≠ [] ∧ 0 ∉ id)
    (hd : dsml ≠ [] ∧ 0 ∉ dsml)
    (hnone : m.byId id = none) :
    ∃ blocks', Sound ((m.getBlock dsml).1.addEntry id (m.getBlock dsml).2 source)
      ((m.getBlock dsml).1.fresh :: order) blocks' ∧
      entryIds ((m.getBlock dsml).1.addEntry id (m.getBlock dsml).2 source)
        ((m.getBlock dsml).1.fresh :: order) = id :: entryIds m order := by
  obtain ⟨blocks', hr, ⟨hb, -⟩, hold, -⟩ := getBlock_represents h.toRepresents hd
  rw [← getBlock_byId m dsml] at hnone
  have hadd := addEntry_represents hr hid hnone hb source
  have hent : ∀ x ∈ order,
      ((m.getBlock dsml).1.addEntry id (m.getBlock dsml).2 source).entry x = m.entry x := by
    intro x hx
    rw [← getBlock_entry m dsml]
    exact Function.update_of_ne (hr.fresh.1 x hx).ne _ _
  refine ⟨blocks', { hadd with used := ?_ }, ?_⟩
  · rw [used_iff hadd]
    intro c hc
    by_cases hcb : c = (m.getBlock dsml).2
    · refine ⟨_, List.mem_cons_self, ?_⟩
      rw [addEntry_self, hcb]
    · obtain ⟨x, hx, hxc⟩ := (used_iff h.toRepresents).1 h.used c (hold c hc hcb)
      refine ⟨x, List.mem_cons_of_mem _ hx, ?_⟩
      rw [hent x hx, hxc]
  · rw [entryIds, List.map_cons, addEntry_self, entryIds]
    congr 1
    apply List.map_congr_left
    intro x hx
    rw [hent x hx]

/-- A put, before the pruning: the structures agree on the new state too, and the id is the most
recent one. -/
theorem place_sound (h : Sound m order blocks) (hid : id ≠ [] ∧ 0 ∉ id)
    (hd : dsml ≠ [] ∧ 0 ∉ dsml) (source : Source) :
    ∃ order' blocks', Sound (m.place id dsml source) order' blocks' ∧
      entryIds (m.place id dsml source) order' =
        id :: (entryIds m order).filter (· ≠ id) := by
  unfold place
  cases hfind : m.findEntry id with
  | none =>
    have hnone : m.byId id = none := by rwa [findEntry, if_neg hid.1] at hfind
    obtain ⟨blocks', hs, hids⟩ := addNew_sound h hid hd hnone
    have hnot : ∀ x ∈ entryIds m order, decide (x ≠ id) = true := by
      intro x hx
      obtain ⟨a, ha, rfl⟩ := List.mem_map.1 hx
      apply decide_eq_true
      intro hida
      rw [(findEntry_some h.toRepresents).2 ⟨ha, hida⟩] at hfind
      cases hfind
    refine ⟨_, blocks', hs, ?_⟩
    rw [List.filter_eq_self.2 hnot]
    exact hids
  | some a =>
    obtain ⟨ha, rfl⟩ := (findEntry_some h.toRepresents).1 hfind
    simp only
    split_ifs with hsame
    · refine ⟨_, blocks, renew_sound h ha, ?_⟩
      rw [← entryIds_erase h.toRepresents ha, entryIds, List.map_cons, renew_id]
      congr 1
      apply List.map_congr_left
      exact fun x _ => renew_id m a source x
    · have hrem := removeEntry_sound h ha
      have hnone : (m.removeEntry a).byId (m.entry a).id = none := by
        rw [removeEntry_eq]
        exact Function.update_self _ _ _
      obtain ⟨blocks', hs, hids⟩ := addNew_sound hrem hid hd hnone
      refine ⟨_, blocks', hs, hids.trans ?_⟩
      rw [← entryIds_erase h.toRepresents ha, entryIds, entryIds, removeEntry_eq]

end Place

section Prune
variable {m : ToolMemory} {order blocks : List ℕ}

/-! The limits never change. -/
theorem removeEntry_limits (m : ToolMemory) (a : ℕ) :
    (m.removeEntry a).entryLimit = m.entryLimit ∧ (m.removeEntry a).byteLimit = m.byteLimit := by
  rw [removeEntry_eq]
  exact ⟨rfl, rfl⟩

theorem place_limits (m : ToolMemory) (id dsml : Bytes) (source : Source) :
    (m.place id dsml source).entryLimit = m.entryLimit ∧
      (m.place id dsml source).byteLimit = m.byteLimit := by
  have hadd : ∀ m : ToolMemory,
      ((m.getBlock dsml).1.addEntry id (m.getBlock dsml).2 source).entryLimit = m.entryLimit ∧
      ((m.getBlock dsml).1.addEntry id (m.getBlock dsml).2 source).byteLimit = m.byteLimit := by
    intro m
    unfold getBlock
    cases m.findBlock dsml <;> exact ⟨rfl, rfl⟩
  unfold place
  cases m.findEntry id with
  | none => exact hadd m
  | some a =>
    simp only
    split_ifs
    · unfold renew
      split_ifs <;> exact ⟨rfl, rfl⟩
    · obtain ⟨hids, hbytes⟩ := removeEntry_limits m a
      rw [← hids, ← hbytes]
      exact hadd _

/-- Without entries nothing is left to hold. -/
theorem empty_not_over (h : Sound m [] blocks) : ¬ m.overLimit := by
  have hblocks : blocks = [] := by
    rw [List.eq_nil_iff_forall_not_mem]
    intro b hb
    obtain ⟨x, hx, -⟩ := (used_iff h.toRepresents).1 h.used b hb
    cases hx
  have hcount := h.count
  have hbytes := h.bytes
  rw [hblocks] at hbytes
  simp only [List.length_nil, List.map_nil, List.sum_nil] at hcount hbytes
  unfold overLimit
  omega

theorem pruneLoop_limits (rounds : ℕ) : ∀ m : ToolMemory,
    (pruneLoop rounds m).entryLimit = m.entryLimit ∧
      (pruneLoop rounds m).byteLimit = m.byteLimit := by
  induction rounds with
  | zero => exact fun m => ⟨rfl, rfl⟩
  | succ rounds ih =>
    intro m
    rw [pruneLoop]
    split_ifs
    · cases m.lru.tail with
      | none => exact ⟨rfl, rfl⟩
      | some a =>
        obtain ⟨hids, hbytes⟩ := removeEntry_limits m a
        rw [← hids, ← hbytes]
        exact ih _
    · exact ⟨rfl, rfl⟩

/-- Nothing goes where nothing is over. -/
theorem prune_of_under (h : ¬ m.overLimit) : m.prune = m := by
  rw [prune, pruneLoop, if_neg h]

/-- A memory as an operation leaves it. -/
structure Valid (m : ToolMemory) : Prop where
  sound : ∃ order blocks, Sound m order blocks
  under : ¬ m.overLimit

theorem empty_valid (maxEntries : ℤ) (maxBytes : ℕ) :
    Valid (ToolMemory.empty maxEntries maxBytes) :=
  ⟨⟨[], [], empty_sound _ _⟩, empty_not_over (empty_sound _ _)⟩

end Prune

end Ds4.Memory
