import Ds4.Head.TopTokens
import Ds4.Parts.Reduce
import Ds4.Engine.Constants

/-! The head's top token where the vocabulary is split among the GPUs: a kernel finds that of each
shard, and the host chooses among the shards. -/
namespace Ds4.Head

open Parts

/-- The threads of a block. -/
def blockDim : ℕ := 256

section Kernel
variable {F : Type} [LinearOrder F] [OrderBot F] (row : ℕ → Logit F) (rows : ℕ)

/-- The second only if its logit is greater. -/
def takeGreater (x y : Cell F) : Cell F := if y.2.gt x.2 then y else x

/-- The items of a thread: its number, and every 256th behind it. -/
def threadItems (t : ℕ) : List ℕ := List.range' t ((rows - t + blockDim - 1) / blockDim) blockDim

/-- What a thread finds in a row. -/
def threadBest (t : ℕ) : Cell F :=
  (threadItems rows t).foldl (fun best i => takeGreater best (i, row i)) (0, .finite ⊥)

/-- What the block finds. -/
def blockBest : Cell F := treeReduce takeGreater 8 (threadBest row rows) 0

/-- What `shard_top1_kernel` writes for a row. -/
def shardTop1 (shardBase : ℕ) : Cell F :=
  let best := blockBest row rows
  (shardBase + best.1, best.2)

end Kernel

/-- The logits of all slots, a shard of the vocabulary on each GPU. -/
structure ShardedHead (F : Type) where
  rowsPerGpu : ℕ
  slots : ℕ
  logits : ℕ → ℕ → Logit F
  rows_pos : 0 < rowsPerGpu
  vocab_lt : kGpus * rowsPerGpu < 2 ^ 31

namespace ShardedHead
variable {F : Type} [LinearOrder F] [OrderBot F] (head : ShardedHead F) (slot : ℕ)

def vocab : ℕ := kGpus * head.rowsPerGpu

/-- The rows of the shards, one behind the other. -/
def row : LogitRow F where
  vocab := head.vocab
  logit token := head.logits (token / head.rowsPerGpu)
    (slot * head.rowsPerGpu + token % head.rowsPerGpu)
  vocab_lt := head.vocab_lt.trans (by norm_num)

/-- The token and the logit that a GPU offers. -/
def offer (gpu : ℕ) : Cell F :=
  shardTop1 (fun i => head.logits gpu (slot * head.rowsPerGpu + i)) head.rowsPerGpu
    (gpu * head.rowsPerGpu)

/-- The loop over the GPUs; it also counts the offers that are not finite. -/
def crossShard : Cell F × ℕ :=
  (List.range kGpus).foldl (fun st gpu =>
    let top := head.offer slot gpu
    if top.2.isFinite then (takeGreater st.1 top, st.2) else (st.1, st.2 + 1))
    ((uint32Max, .finite ⊥), 0)

/-- The token that is chosen for a slot. -/
def shardedToken : ℕ := (head.crossShard slot).1.1

/-- The token that the insertion chooses of the whole row. -/
def unshardedToken : ℕ := ((head.row slot).topkFromLogits 1).tokens 0

end ShardedHead

section Block
variable {F : Type} [LinearOrder F] [OrderBot F] {row : ℕ → Logit F} {rows t i j : ℕ}

/-- What a thread can hold. -/
def Kept (x : Cell F) : Prop := x.2 = .posInf ∨ x.2.isFinite = true

def cellKey (x : Cell F) : WithTop F := x.2.key

theorem takeGreater_kept {x : Cell F} (hx : Kept x) (y : Cell F) :
    takeGreater x y = pick cellKey x y ∧ Kept (takeGreater x y) := by
  have hgt : y.2.gt x.2 = decide (cellKey x < cellKey y) := Logit.gt_eq_key hx
  have hkeep : y.2.gt x.2 = true → Kept y := by
    intro h
    unfold Kept
    cases hy : y.2 with
    | finite _ => exact Or.inr rfl
    | posInf => exact Or.inl rfl
    | negInf | nan =>
      rw [hy] at h
      cases hx' : x.2 <;> rw [hx'] at h <;> cases h
  unfold takeGreater pick
  simp only [hgt, decide_eq_true_eq] at hkeep ⊢
  refine ⟨trivial, ?_⟩
  split_ifs with hlt
  · exact hkeep hlt
  · exact hx

theorem foldl_takeGreater (best : Cell F) (hbest : Kept best) (xs : List (Cell F)) :
    xs.foldl takeGreater best = scanBest cellKey best xs ∧ Kept (xs.foldl takeGreater best) := by
  induction xs generalizing best with
  | nil => exact ⟨rfl, hbest⟩
  | cons x xs ih =>
    obtain ⟨hpick, hkept⟩ := takeGreater_kept hbest x
    have h := ih _ hkept
    rw [hpick] at h
    rw [List.foldl_cons, hpick]
    exact h

theorem kept_bot (token : ℕ) : Kept ((token, .finite ⊥) : Cell F) := Or.inr rfl

theorem mem_threadItems (ht : t < blockDim) :
    i ∈ threadItems rows t ↔ i < rows ∧ i % blockDim = t := by
  unfold blockDim at *
  simp only [threadItems, blockDim, List.mem_range']
  constructor
  · rintro ⟨n, hn, rfl⟩
    omega
  · rintro ⟨hi, rfl⟩
    exact ⟨i / 256, by omega, by omega⟩

theorem threadBest_scan (row : ℕ → Logit F) (rows t : ℕ) : threadBest row rows t =
    scanBest cellKey (0, .finite ⊥) ((threadItems rows t).map fun i => (i, row i)) ∧
      Kept (threadBest row rows t) := by
  have hmap : threadBest row rows t =
      ((threadItems rows t).map fun i => (i, row i)).foldl takeGreater (0, .finite ⊥) := by
    rw [List.foldl_map]
    rfl
  rw [hmap]
  exact foldl_takeGreater _ (kept_bot 0) _

/-- A thread ends with the first of its greatest logits, if one is above `-FLT_MAX`. -/
theorem threadBest_spec (row : ℕ → Logit F) (rows : ℕ) (ht : t < blockDim) :
    (threadBest row rows t = (0, .finite ⊥) ∧
        ∀ i < rows, i % blockDim = t → (row i).key = ((⊥ : F) : WithTop F)) ∨
      ∃ i < rows, i % blockDim = t ∧ threadBest row rows t = (i, row i) ∧
        ((⊥ : F) : WithTop F) < (row i).key ∧ ∀ j < rows, j % blockDim = t →
          (row j).key ≤ (row i).key ∧ ((row j).key = (row i).key → i ≤ j) := by
  have hscan := (threadBest_scan row rows t).1
  obtain ⟨pre, post, hsplit, hpre, hpost⟩ := scanBest_spec cellKey ((0, .finite ⊥) : Cell F)
    ((threadItems rows t).map fun i => (i, row i))
  rw [← hscan] at hsplit hpre hpost
  have hitem : ∀ i < rows, i % blockDim = t →
      ((i, row i) : Cell F) ∈ (threadItems rows t).map fun i => (i, row i) :=
    fun i hi hit => List.mem_map_of_mem ((mem_threadItems ht).2 ⟨hi, hit⟩)
  cases pre with
  | nil =>
    obtain ⟨hinit, hrest⟩ := List.cons.inj hsplit
    refine Or.inl ⟨hinit.symm, fun i hi hit => ?_⟩
    have h := hpost _ (hrest ▸ hitem i hi hit)
    rw [← hinit] at h
    exact le_antisymm h (Logit.bot_le_key _)
  | cons x pre =>
    obtain ⟨hinit, hrest⟩ := List.cons.inj hsplit
    have hin : threadBest row rows t ∈ (threadItems rows t).map fun i => (i, row i) := by
      rw [hrest]
      exact List.mem_append_right _ List.mem_cons_self
    obtain ⟨i, hi, hbest⟩ := List.mem_map.1 hin
    obtain ⟨hirows, hit⟩ := (mem_threadItems ht).1 hi
    have hbot := hpre x List.mem_cons_self
    rw [← hinit, ← hbest] at hbot
    refine Or.inr ⟨i, hirows, hit, hbest.symm, hbot, fun j hj hjt => ?_⟩
    have hsorted : ((threadItems rows t).map fun i => ((i, row i) : Cell F)).Pairwise
        fun x y => x.1 < y.1 :=
      List.pairwise_map.2 (List.pairwise_lt_range' blockDim (by decide))
    rw [hrest, ← hbest] at hsorted
    rw [← hbest] at hpre hpost
    have hmem := hitem j hj hjt
    rw [hrest, ← hbest] at hmem
    rcases List.mem_append.1 hmem with hfront | hback
    · have hlt := hpre _ (List.mem_cons_of_mem x hfront)
      exact ⟨hlt.le, fun h => absurd h hlt.ne⟩
    · rcases List.mem_cons.1 hback with hsame | hback
      · obtain rfl : j = i := congrArg Prod.fst hsame
        exact ⟨le_rfl, fun _ => le_rfl⟩
      · have hlt := (List.pairwise_cons.1 (List.pairwise_append.1 hsorted).2.1).1 _ hback
        exact ⟨hpost _ hback, fun _ => hlt.le⟩

/-- The index that the block settles on: none is greater, and of those that are equal the ones of
its own thread are behind it, and their threads have a higher low bit. -/
structure Settled (row : ℕ → Logit F) (rows i : ℕ) : Prop where
  lt : i < rows
  above : ((⊥ : F) : WithTop F) < (row i).key
  greatest : ∀ j < rows, (row j).key ≤ (row i).key
  first : ∀ j < rows, (row j).key = (row i).key → j % blockDim = i % blockDim ∧ i ≤ j ∨
    LowBitFirst (i % blockDim) (j % blockDim)

theorem Settled.unique (h : Settled row rows i) (h' : Settled row rows j) : i = j := by
  have hkey : (row i).key = (row j).key := le_antisymm (h'.greatest i h.lt) (h.greatest j h'.lt)
  rcases h.first j h'.lt hkey.symm with ⟨hmod, hij⟩ | hbit
  · rcases h'.first i h.lt hkey with ⟨-, hji⟩ | hbit
    · exact le_antisymm hij hji
    · rw [hmod] at hbit
      exact absurd hbit (LowBitFirst.irrefl _)
  · rcases h'.first i h.lt hkey with ⟨hmod, -⟩ | hbit'
    · rw [hmod] at hbit
      exact absurd hbit (LowBitFirst.irrefl _)
    · exact absurd hbit' hbit.asymm

/-- The block's answer: the index it settles on, or nothing where no logit is above `-FLT_MAX`. -/
theorem blockBest_spec (row : ℕ → Logit F) (rows : ℕ) :
    (blockBest row rows = (0, .finite ⊥) ∧ ∀ i < rows, (row i).key = ((⊥ : F) : WithTop F)) ∨
      ∃ i, blockBest row rows = (i, row i) ∧ Settled row rows i := by
  have hdim : blockDim = 2 ^ 8 := rfl
  have htree : blockBest row rows = treeReduce (pick cellKey) 8 (threadBest row rows) 0 :=
    congrFun (treeReduce_congr (P := Kept) (fun x y hx _ => takeGreater_kept hx y) 8
      fun t => (threadBest_scan row rows t).2) 0
  obtain ⟨w, hw, hresult, hbest⟩ := treeReduce_pick cellKey 8 (threadBest row rows)
  rw [← hdim] at hw hbest
  rw [htree, hresult]
  -- no logit is greater than what its thread holds
  have hheld : ∀ j < rows, (row j).key ≤ cellKey (threadBest row rows (j % blockDim)) := by
    intro j hj
    rcases threadBest_spec row rows (Nat.mod_lt j (by decide)) with
      ⟨hnone, hall⟩ | ⟨i, -, -, hi, -, hall⟩
    · rw [hall j hj rfl, hnone]
      exact le_rfl
    · rw [hi]
      exact (hall j hj rfl).1
  have hgreatest : ∀ j < rows, (row j).key ≤ cellKey (threadBest row rows w) :=
    fun j hj => (hheld j hj).trans (hbest _ (Nat.mod_lt j (by decide))).1
  rcases threadBest_spec row rows hw with ⟨hnone, -⟩ | ⟨i, hi, hiw, hwi, hbot, hall⟩
  · rw [hnone] at hgreatest ⊢
    exact Or.inl ⟨rfl, fun j hj => le_antisymm (hgreatest j hj) (Logit.bot_le_key _)⟩
  · rw [hwi] at hgreatest hbest ⊢
    refine Or.inr ⟨i, rfl, hi, hbot, hgreatest, fun j hj htie => ?_⟩
    have hthread := hbest _ (Nat.mod_lt j (by decide))
    have hlevel := le_antisymm hthread.1 (htie.symm.le.trans (hheld j hj))
    rcases hthread.2 hlevel with hsame | hbit
    · exact Or.inl ⟨hsame.trans hiw.symm, (hall j hj hsame).2 htie⟩
    · rw [← hiw] at hbit
      exact Or.inr hbit

end Block

namespace ShardedHead
variable {F : Type} [LinearOrder F] [OrderBot F] (head : ShardedHead F) (slot : ℕ)

/-- The GPUs whose offers the loop looks at. -/
def offering : List ℕ := (List.range kGpus).filter fun gpu => (head.offer slot gpu).2.isFinite

theorem crossShard_eq : (head.crossShard slot).1 =
    scanBest cellKey (uint32Max, .finite ⊥) ((head.offering slot).map (head.offer slot)) := by
  have hgen : ∀ (gpus : List ℕ) (st : Cell F × ℕ), (gpus.foldl (fun st gpu =>
      let top := head.offer slot gpu
      if top.2.isFinite then (takeGreater st.1 top, st.2) else (st.1, st.2 + 1)) st).1 =
        ((gpus.filter fun gpu => (head.offer slot gpu).2.isFinite).map (head.offer slot)).foldl
          takeGreater st.1 := by
    intro gpus
    induction gpus with
    | nil => exact fun st => rfl
    | cons gpu gpus ih =>
      intro st
      rw [List.foldl_cons, ih, List.filter_cons]
      by_cases hfinite : (head.offer slot gpu).2.isFinite = true
      · rw [if_pos hfinite, if_pos hfinite, List.map_cons, List.foldl_cons]
      · rw [if_neg hfinite, if_neg hfinite]
  unfold crossShard
  rw [hgen]
  exact (foldl_takeGreater _ (kept_bot uint32Max) _).1

theorem mem_offering {gpu : ℕ} :
    gpu ∈ head.offering slot ↔ gpu < kGpus ∧ (head.offer slot gpu).2.isFinite = true := by
  simp only [offering, List.mem_filter, List.mem_range]

/-- The first of the greatest offers is chosen, if one is above `-FLT_MAX`. -/
theorem shardedToken_spec :
    (head.shardedToken slot = uint32Max ∧
        ∀ gpu ∈ head.offering slot, (head.offer slot gpu).2.key = ((⊥ : F) : WithTop F)) ∨
      ∃ gpu ∈ head.offering slot, head.shardedToken slot = (head.offer slot gpu).1 ∧
        ((⊥ : F) : WithTop F) < (head.offer slot gpu).2.key ∧
        ∀ gpu' ∈ head.offering slot,
          (head.offer slot gpu').2.key ≤ (head.offer slot gpu).2.key ∧
          ((head.offer slot gpu').2.key = (head.offer slot gpu).2.key → gpu ≤ gpu') := by
  obtain ⟨pre, post, hsplit, hpre, hpost⟩ := scanBest_spec cellKey ((uint32Max, .finite ⊥) : Cell F)
    ((head.offering slot).map (head.offer slot))
  rw [← crossShard_eq] at hsplit hpre hpost
  cases pre with
  | nil =>
    obtain ⟨hinit, hrest⟩ := List.cons.inj hsplit
    refine Or.inl ⟨(congrArg Prod.fst hinit).symm, fun gpu hgpu => ?_⟩
    have h := hpost _ (hrest ▸ List.mem_map_of_mem hgpu)
    rw [← hinit] at h
    exact le_antisymm h (Logit.bot_le_key _)
  | cons x pre =>
    obtain ⟨hinit, hrest⟩ := List.cons.inj hsplit
    obtain ⟨before, after, hgpus, hbefore, hafter⟩ := List.map_eq_append_iff.1 hrest
    obtain ⟨gpu, later, rfl, hchosen, hlater⟩ := List.map_eq_cons_iff.1 hafter
    have hbot := hpre x List.mem_cons_self
    rw [← hinit, ← hchosen] at hbot
    have hin : gpu ∈ head.offering slot := by
      rw [hgpus]
      exact List.mem_append_right _ List.mem_cons_self
    refine Or.inr ⟨gpu, hin, (congrArg Prod.fst hchosen).symm, hbot, fun gpu' hgpu' => ?_⟩
    have hsorted : (head.offering slot).Pairwise (· < ·) := List.pairwise_lt_range.filter _
    rw [hgpus] at hsorted hgpu'
    rw [← hchosen] at hpre hpost
    rcases List.mem_append.1 hgpu' with hfront | hback
    · have hlt := hpre _ (List.mem_cons_of_mem x (hbefore ▸ List.mem_map_of_mem hfront))
      exact ⟨hlt.le, fun h => absurd h hlt.ne⟩
    · rcases List.mem_cons.1 hback with rfl | hback
      · exact ⟨le_rfl, fun _ => le_rfl⟩
      · have hlt := (List.pairwise_cons.1 (List.pairwise_append.1 hsorted).2.1).1 _ hback
        exact ⟨hpost _ (hlater ▸ List.mem_map_of_mem hback), fun _ => hlt.le⟩

end ShardedHead

end Ds4.Head
