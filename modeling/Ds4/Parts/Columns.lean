import Ds4.Parts.Launch
import Ds4.Parts.Rows
import Mathlib.Algebra.BigOperators.Group.Finset.Sigma

/-! Rows of `n` columns that are cut among ranks, with as many columns for each. -/
namespace Ds4.Parts

/-- A cut: which column each local one is, and the way back. -/
structure ColumnCut (ranks cols n : ℕ) where
  column : ℕ → ℕ → ℕ
  rankOf : ℕ → ℕ
  localOf : ℕ → ℕ
  column_lt : ∀ {rank c}, rank < ranks → c < cols → column rank c < n
  rankOf_lt : ∀ {h}, h < n → rankOf h < ranks
  localOf_lt : ∀ {h}, h < n → localOf h < cols
  column_of : ∀ {h}, h < n → column (rankOf h) (localOf h) = h
  rankOf_column : ∀ {rank c}, rank < ranks → c < cols → rankOf (column rank c) = rank
  localOf_column : ∀ {rank c}, rank < ranks → c < cols → localOf (column rank c) = c

namespace ColumnCut
variable {ranks cols n : ℕ} (cut : ColumnCut ranks cols n)

theorem forall_iff {p : ℕ → Prop} :
    (∀ rank < ranks, ∀ c < cols, p (cut.column rank c)) ↔ ∀ h < n, p h := by
  constructor
  · intro hall h hh
    rw [← cut.column_of hh]
    exact hall _ (cut.rankOf_lt hh) _ (cut.localOf_lt hh)
  · exact fun hall rank hrank c hc => hall _ (cut.column_lt hrank hc)

/-- The ranks add up what a row has. -/
theorem sum_eq {α : Type} [AddCommMonoid α] (f : ℕ → α) :
    ∑ rank ∈ Finset.range ranks, ∑ c ∈ Finset.range cols, f (cut.column rank c) =
      ∑ h ∈ Finset.range n, f h := by
  rw [← Finset.sum_product']
  refine Finset.sum_nbij' (fun x => cut.column x.1 x.2) (fun h => (cut.rankOf h, cut.localOf h))
    ?_ ?_ ?_ ?_ ?_
  · intro x hx
    obtain ⟨hrank, hc⟩ := Finset.mem_product.1 hx
    exact Finset.mem_range.2 (cut.column_lt (Finset.mem_range.1 hrank) (Finset.mem_range.1 hc))
  · intro h hh
    have hlt := Finset.mem_range.1 hh
    exact Finset.mem_product.2
      ⟨Finset.mem_range.2 (cut.rankOf_lt hlt), Finset.mem_range.2 (cut.localOf_lt hlt)⟩
  · intro x hx
    obtain ⟨hrank, hc⟩ := Finset.mem_product.1 hx
    rw [cut.rankOf_column (Finset.mem_range.1 hrank) (Finset.mem_range.1 hc),
      cut.localOf_column (Finset.mem_range.1 hrank) (Finset.mem_range.1 hc)]
  · intro h hh
    exact cut.column_of (Finset.mem_range.1 hh)
  · intro x _
    rfl

/-- Each rank has the columns next to one another. -/
def contiguous (ranks cols : ℕ) : ColumnCut ranks cols (ranks * cols) where
  column rank c := rank * cols + c
  rankOf h := h / cols
  localOf h := h % cols
  column_lt hrank hc := entry_lt hrank hc
  rankOf_lt hh := Nat.div_lt_of_lt_mul (by rwa [Nat.mul_comm])
  localOf_lt {h} hh := Nat.mod_lt h (Nat.pos_of_ne_zero fun hzero => by simp [hzero] at hh)
  column_of {h} _ := Nat.div_add_mod' h cols
  rankOf_column _ hc := entry_div hc
  localOf_column _ hc := entry_mod hc

/-- Each rank has its columns of each of several rows that stand behind one another. -/
def rowwise (rows ranks cols : ℕ) : ColumnCut ranks (rows * cols) (rows * (ranks * cols)) where
  column rank c := c / cols * (ranks * cols) + (rank * cols + c % cols)
  rankOf h := h % (ranks * cols) / cols
  localOf h := h / (ranks * cols) * cols + h % (ranks * cols) % cols
  column_lt {rank c} hrank hc := by
    have hcols : 0 < cols := Nat.pos_of_ne_zero fun hzero => by simp [hzero] at hc
    exact entry_lt (Nat.div_lt_of_lt_mul (by rwa [Nat.mul_comm]))
      (entry_lt hrank (Nat.mod_lt c hcols))
  rankOf_lt {h} hh := by
    have hwidth : 0 < ranks * cols := Nat.pos_of_ne_zero fun hzero => by simp [hzero] at hh
    exact Nat.div_lt_of_lt_mul ((Nat.mod_lt h hwidth).trans_eq (Nat.mul_comm ranks cols))
  localOf_lt {h} hh := by
    have hcols : 0 < cols := Nat.pos_of_ne_zero fun hzero => by simp [hzero] at hh
    exact entry_lt (Nat.div_lt_of_lt_mul (by rwa [Nat.mul_comm])) (Nat.mod_lt _ hcols)
  column_of {h} hh := by
    have hcols : 0 < cols := Nat.pos_of_ne_zero fun hzero => by simp [hzero] at hh
    rw [entry_div (Nat.mod_lt _ hcols), entry_mod (Nat.mod_lt _ hcols), Nat.div_add_mod',
      Nat.div_add_mod']
  rankOf_column {rank c} hrank hc := by
    have hcols : 0 < cols := Nat.pos_of_ne_zero fun hzero => by simp [hzero] at hc
    have hmod := Nat.mod_lt c hcols
    rw [entry_mod (entry_lt hrank hmod), entry_div hmod]
  localOf_column {rank c} hrank hc := by
    have hcols : 0 < cols := Nat.pos_of_ne_zero fun hzero => by simp [hzero] at hc
    have hmod := Nat.mod_lt c hcols
    rw [entry_div (entry_lt hrank hmod), entry_mod (entry_lt hrank hmod), entry_mod hmod,
      Nat.div_add_mod']

end ColumnCut

section Chain
variable {α : Type}

/-- Launches behind one another, each without races, are their accesses behind one another. -/
theorem foldl_launch (s : ℕ → Schedule) {ls : ℕ → List (Access α)} {rs : List ℕ}
    (h : ∀ r ∈ rs, RaceFree (ls r)) (mem : ℕ → α) :
    rs.foldl (fun mem r => launch (s r) (ls r) mem) mem = perform mem (rs.flatMap ls) := by
  induction rs generalizing mem with
  | nil => rfl
  | cons r rs ih =>
    rw [List.foldl_cons, ih fun r' hr' => h r' (List.mem_cons_of_mem r hr'),
      launch_eq (s r) (h r List.mem_cons_self), List.flatMap_cons, perform_append]

/-- A cell that one of the launches stores, and all that store it store one value. -/
theorem foldl_launch_hit (s : ℕ → Schedule) {ls : ℕ → List (Access α)} {v : ℕ → α} {rs : List ℕ}
    (h : ∀ r ∈ rs, Settles v (ls r)) {mem : ℕ → α} {a r : ℕ} (hr : r ∈ rs)
    (hany : ∃ x ∈ ls r, x.addr = a) :
    rs.foldl (fun mem r => launch (s r) (ls r) mem) mem a = v a := by
  have hsettles : Settles v (rs.flatMap ls) := by
    intro x hx old
    obtain ⟨r', hr', hx⟩ := List.mem_flatMap.1 hx
    exact h r' hr' x hx old
  obtain ⟨x, hx, hxa⟩ := hany
  rw [foldl_launch s fun r' hr' => (h r' hr').raceFree]
  exact hsettles.perform_hit ⟨x, List.mem_flatMap.2 ⟨r, hr, hx⟩, hxa⟩

/-- A grid whose threads store one item each, somewhere. -/
def scatterStores (block n : ℕ) (dst : ℕ → ℕ) (f : ℕ → α) : List (Access α) :=
  grid block n fun i => if n ≤ i then [] else [Access.store (dst i) (f i)]

theorem mem_scatterStores {block n : ℕ} {dst : ℕ → ℕ} {f : ℕ → α} (hblock : 0 < block)
    {x : Access α} : x ∈ scatterStores block n dst f ↔ ∃ i < n, x = Access.store (dst i) (f i) := by
  unfold scatterStores
  rw [grid_guard hblock]
  simp only [List.mem_flatMap, List.mem_range, List.mem_singleton]

variable {ranks cols n : ℕ} (cut : ColumnCut ranks cols n)

/-- Ranks that put their columns where they belong, one rank behind the other: each column of each
row is there. -/
theorem foldl_gather {block slots : ℕ} (hblock : 0 < block) (s : ℕ → Schedule)
    {shard : ℕ → ℕ → α} {dst : ℕ → ℕ → ℕ}
    (hdst : ∀ rank i, dst rank i = i / cols * n + cut.column rank (i % cols)) {mem : ℕ → α}
    {slot h : ℕ} (hslot : slot < slots) (hh : h < n) :
    (List.range ranks).foldl
        (fun mem rank =>
          launch (s rank) (scatterStores block (slots * cols) (dst rank) (shard rank)) mem) mem
        (slot * n + h) =
      shard (cut.rankOf h) (slot * cols + cut.localOf h) := by
  have hrank := cut.rankOf_lt hh
  have hcol := cut.localOf_lt hh
  have hlocal : 0 < cols := (Nat.zero_le _).trans_lt hcol
  have hsettles : ∀ rank ∈ List.range ranks,
      Settles (fun a => shard (cut.rankOf (a % n)) (a / n * cols + cut.localOf (a % n)))
        (scatterStores block (slots * cols) (dst rank) (shard rank)) := by
    intro rank hmem a ha old
    obtain ⟨i, -, rfl⟩ := (mem_scatterStores hblock).1 ha
    have hmod := Nat.mod_lt i hlocal
    have hlt := cut.column_lt (List.mem_range.1 hmem) hmod
    dsimp only [Access.store_effect, Access.store_addr]
    rw [hdst, entry_div hlt, entry_mod hlt, cut.rankOf_column (List.mem_range.1 hmem) hmod,
      cut.localOf_column (List.mem_range.1 hmem) hmod, Nat.div_add_mod']
  rw [foldl_launch_hit s hsettles (List.mem_range.2 hrank)]
  · rw [entry_div hh, entry_mod hh]
  · refine ⟨_, (mem_scatterStores hblock).2
      ⟨slot * cols + cut.localOf h, entry_lt hslot hcol, rfl⟩, ?_⟩
    rw [Access.store_addr, hdst, entry_div hcol, entry_mod hcol, cut.column_of hh]

end Chain

end Ds4.Parts
