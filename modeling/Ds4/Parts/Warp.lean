import Ds4.Parts.Reduce

/-! Blocks of eight warps: what shuffles make of the values of 32 threads, and one warp of what the
warps have, and the loops of a block's threads over `n` items. -/
namespace Ds4.Parts

section Shuffle
variable {α : Type}

/-- A stage of shuffles in a warp of `2 ^ w` threads. A thread whose partner is beyond the warp gets
its own value back. -/
def shuffle (op : α → α → α) (w offset : ℕ) (a : ℕ → α) (t : ℕ) : α :=
  op (a t) (if t + offset < 2 ^ w then a (t + offset) else a t)

/-- The stages of offsets 2ⁿ⁻¹, …, 2, 1. -/
def warpReduce (op : α → α → α) (w : ℕ) : ℕ → (ℕ → α) → ℕ → α
  | 0, a => a
  | n + 1, a => warpReduce op w n (shuffle op w (2 ^ n) a)

/-- A block of 256 threads: the first thread of each warp has its warp's value, and the first warp
has these and fillers. -/
def blockReduce (op : α → α → α) (filler : α) (a : ℕ → α) : α :=
  warpReduce op 5 5
    (fun t => if t < 8 then warpReduce op 5 5 (fun lane => a (t * 32 + lane)) 0 else filler) 0

/-- The first thread has what the tree gives. -/
theorem warpReduce_eq (op : α → α → α) {w n : ℕ} (hn : n ≤ w) {a b : ℕ → α}
    (hab : ∀ t < 2 ^ n, a t = b t) : warpReduce op w n a 0 = treeReduce op n b 0 := by
  induction n generalizing a b with
  | zero => exact hab 0 (Nat.two_pow_pos 0)
  | succ n ih =>
    refine ih (by omega) fun t ht => ?_
    have hwarp : 2 ^ (n + 1) ≤ 2 ^ w := Nat.pow_le_pow_right (by norm_num) hn
    have htwo : 2 ^ (n + 1) = 2 ^ n + 2 ^ n := by rw [pow_succ, Nat.mul_two]
    unfold shuffle halve
    rw [if_pos (by omega : t + 2 ^ n < 2 ^ w), if_pos ht, hab t (by omega),
      hab (t + 2 ^ n) (by omega)]

/-- The maximum of a tree is the least bound of what the threads have. -/
theorem treeReduce_max_le_iff [LinearOrder α] {n : ℕ} {a : ℕ → α} {b : α} :
    treeReduce max n a 0 ≤ b ↔ ∀ t < 2 ^ n, a t ≤ b := by
  induction n generalizing a with
  | zero =>
    constructor
    · intro h t ht
      obtain rfl : t = 0 := by omega
      exact h
    · exact fun h => h 0 (Nat.two_pow_pos 0)
  | succ n ih =>
    have htwo : 2 ^ (n + 1) = 2 ^ n + 2 ^ n := by rw [pow_succ, Nat.mul_two]
    have hstage : ∀ t < 2 ^ n, halve max (2 ^ n) a t ≤ b ↔ a t ≤ b ∧ a (t + 2 ^ n) ≤ b := by
      intro t ht
      unfold halve
      rw [if_pos ht, max_le_iff]
    rw [treeReduce, ih]
    constructor
    · intro h t ht
      by_cases hlow : t < 2 ^ n
      · exact ((hstage t hlow).1 (h t hlow)).1
      · have hhigh := ((hstage (t - 2 ^ n) (by omega)).1 (h (t - 2 ^ n) (by omega))).2
        rwa [Nat.sub_add_cancel (by omega)] at hhigh
    · intro h t ht
      exact (hstage t ht).2 ⟨h t (by omega), h (t + 2 ^ n) (by omega)⟩

theorem blockReduce_eq (op : α → α → α) (filler : α) (a : ℕ → α) :
    blockReduce op filler a = treeReduce op 5
      (fun t => if t < 8 then treeReduce op 5 (fun lane => a (t * 32 + lane)) 0 else filler) 0 := by
  refine warpReduce_eq op le_rfl fun t _ => ?_
  rw [warpReduce_eq op le_rfl fun lane _ => rfl]

/-- The maximum of a block is the least bound of the filler and what its threads have. -/
theorem blockReduce_max_le_iff [LinearOrder α] {filler b : α} {a : ℕ → α} :
    blockReduce max filler a ≤ b ↔ filler ≤ b ∧ ∀ t < 256, a t ≤ b := by
  rw [blockReduce_eq, treeReduce_max_le_iff]
  constructor
  · intro h
    refine ⟨h 8 (by norm_num), fun t ht => ?_⟩
    have hwarp : t / 32 < 8 := Nat.div_lt_of_lt_mul (by omega)
    have hw := h (t / 32) (by omega)
    rw [if_pos hwarp, treeReduce_max_le_iff] at hw
    have hlane := hw (t % 32) (Nat.mod_lt t (by norm_num))
    rwa [Nat.div_add_mod'] at hlane
  · rintro ⟨hfiller, hall⟩ t ht
    split_ifs with hwarp
    · rw [treeReduce_max_le_iff]
      intro lane hlane
      exact hall _ (by omega)
    · exact hfiller

/-- A sum over `m` rows of `n`. -/
theorem sum_rows [AddCommMonoid α] (m n : ℕ) (f : ℕ → α) :
    ∑ i ∈ Finset.range (m * n), f i =
      ∑ row ∈ Finset.range m, ∑ k ∈ Finset.range n, f (row * n + k) := by
  induction m with
  | zero => rw [Nat.zero_mul, Finset.sum_range_zero, Finset.sum_range_zero]
  | succ m ih => rw [Nat.succ_mul, Finset.sum_range_add, ih, Finset.sum_range_succ]

/-- A block adds up what its threads have. -/
theorem blockReduce_sum [AddCommMonoid α] (a : ℕ → α) :
    blockReduce (· + ·) 0 a = ∑ t ∈ Finset.range 256, a t := by
  have hfirst : ∑ t ∈ Finset.range 32, (if t < 8 then
      treeReduce (· + ·) 5 (fun lane => a (t * 32 + lane)) 0 else 0) =
      ∑ t ∈ Finset.range 8, ∑ lane ∈ Finset.range 32, a (t * 32 + lane) := by
    rw [← Finset.sum_filter]
    refine Finset.sum_congr ?_ fun t _ => treeReduce_sum 5 _
    ext t
    rw [Finset.mem_filter, Finset.mem_range, Finset.mem_range]
    omega
  rw [blockReduce_eq, treeReduce_sum]
  exact hfirst.trans (sum_rows 8 32 a).symm

end Shuffle

section Items
variable {α : Type} {n : ℕ}

/-- The items of a thread, which steps by the size of its block. -/
def items (block n t : ℕ) : List ℕ := (List.range n).filter fun i => i % block = t

theorem mem_items {block t i : ℕ} : i ∈ items block n t ↔ i < n ∧ i % block = t := by
  rw [items, List.mem_filter, List.mem_range, decide_eq_true_iff]

/-- The threads add up what all items have. -/
theorem sum_items [AddCommMonoid α] {block : ℕ} (hblock : 0 < block) (f : ℕ → α) :
    ∑ t ∈ Finset.range block, ((items block n t).map f).sum = ∑ i ∈ Finset.range n, f i := by
  have hthread : ∀ t,
      ((items block n t).map f).sum = ∑ i ∈ Finset.range n with i % block = t, f i := by
    intro t
    have hnodup : (items block n t).Nodup := List.nodup_range.filter _
    rw [← List.sum_toFinset f hnodup]
    refine Finset.sum_congr ?_ fun _ _ => rfl
    ext i
    rw [List.mem_toFinset, Finset.mem_filter, Finset.mem_range]
    exact mem_items
  simp only [hthread]
  exact Finset.sum_fiberwise_of_maps_to (fun i _ => Finset.mem_range.2 (Nat.mod_lt i hblock)) f

/-- A thread's running maximum is the least bound of what it starts with and its items. -/
theorem foldl_max_le_iff [LinearOrder α] {ι : Type} {is : List ι} {f : ι → α} {start b : α} :
    is.foldl (fun m i => max m (f i)) start ≤ b ↔ start ≤ b ∧ ∀ i ∈ is, f i ≤ b := by
  induction is generalizing start with
  | nil => exact ⟨fun h => ⟨h, fun i hi => absurd hi List.not_mem_nil⟩, And.left⟩
  | cons i is ih => rw [List.foldl_cons, ih, max_le_iff, List.forall_mem_cons, and_assoc]

theorem foldl_add_eq [AddCommMonoid α] {ι : Type} (is : List ι) (f : ι → α) (start : α) :
    is.foldl (fun s i => s + f i) start = start + (is.map f).sum := by
  induction is generalizing start with
  | nil => exact (add_zero start).symm
  | cons i is ih => rw [List.foldl_cons, ih, List.map_cons, List.sum_cons, add_assoc]

end Items

end Ds4.Parts
