import Ds4.Parts.Launch

/-! Memories that hold rows of `n` cells, one behind the other. -/
namespace Ds4.Parts

/-! Numerals that are at least two, for definitions that name the fact instead of proving it. -/
theorem atLeastTwo_two : Nat.AtLeastTwo 2 := inferInstance

theorem atLeastTwo_million : Nat.AtLeastTwo 1000000 := inferInstance

section Entries
variable {n rows row k : ℕ}

theorem entry_div (hk : k < n) : (row * n + k) / n = row := by
  rw [Nat.mul_comm, Nat.mul_add_div (by omega), Nat.div_eq_of_lt hk, Nat.add_zero]

theorem entry_mod (hk : k < n) : (row * n + k) % n = k := by
  rw [Nat.mul_comm, Nat.mul_add_mod, Nat.mod_eq_of_lt hk]

theorem entry_lt (hrow : row < rows) (hk : k < n) : row * n + k < rows * n := by
  calc row * n + k < row * n + n := Nat.add_lt_add_left hk _
    _ = (row + 1) * n := (Nat.succ_mul row n).symm
    _ ≤ rows * n := Nat.mul_le_mul_right n hrow

end Entries

section Stores
variable {α : Type} {n rows : ℕ} {v : ℕ → ℕ → α} {mem : ℕ → α}

/-- One store for each cell of each row. -/
def rowStores (n rows : ℕ) (v : ℕ → ℕ → α) : List (Access α) :=
  (List.range rows).flatMap fun row => (List.range n).map fun k =>
    Access.store (row * n + k) (v row k)

theorem mem_rowStores {x : Access α} : x ∈ rowStores n rows v ↔
    ∃ row, row < rows ∧ ∃ k, k < n ∧ x = Access.store (row * n + k) (v row k) := by
  simp only [rowStores, List.mem_flatMap, List.mem_map, List.mem_range, eq_comm]

theorem rowStores_settle (n rows : ℕ) (v : ℕ → ℕ → α) :
    Settles (fun a => v (a / n) (a % n)) (rowStores n rows v) := by
  intro x hx old
  obtain ⟨row, -, k, hk, rfl⟩ := mem_rowStores.1 hx
  simp only [Access.store_effect, Access.store_addr, entry_div hk, entry_mod hk]

/-- In any order of the stores each cell of a row gets its value. -/
theorem launch_row (s : Schedule) {row k : ℕ} (hrow : row < rows) (hk : k < n) :
    launch s (rowStores n rows v) mem (row * n + k) = v row k := by
  have hsettles := rowStores_settle n rows v
  have hmem : Access.store (row * n + k) (v row k) ∈ rowStores n rows v :=
    mem_rowStores.2 ⟨row, hrow, k, hk, rfl⟩
  have hhit : perform mem _ _ = _ := hsettles.perform_hit ⟨_, hmem, rfl⟩
  rw [launch_eq s hsettles.raceFree, ← Access.store_addr (row * n + k) (v row k), hhit]
  simp only [Access.store_addr, entry_div hk, entry_mod hk]

/-- Rows of one cell. -/
theorem launch_cell {f : ℕ → α} (s : Schedule) {row : ℕ} (hrow : row < rows) :
    launch s (rowStores 1 rows fun row _ => f row) mem row = f row := by
  have hcell : launch s (rowStores 1 rows fun row _ => f row) mem (row * 1 + 0) = f row :=
    launch_row s hrow one_pos
  rwa [Nat.mul_one, Nat.add_zero] at hcell

/-- The rows without those that are skipped. -/
def keptRowStores (skip : ℕ → Prop) [DecidablePred skip] (n rows : ℕ) (v : ℕ → ℕ → α) :
    List (Access α) :=
  (List.range rows).flatMap fun row =>
    if skip row then [] else (List.range n).map fun k => Access.store (row * n + k) (v row k)

theorem mem_keptRowStores {skip : ℕ → Prop} [DecidablePred skip] {x : Access α} :
    x ∈ keptRowStores skip n rows v ↔
      ∃ row, row < rows ∧ ¬ skip row ∧ ∃ k, k < n ∧ x = Access.store (row * n + k) (v row k) := by
  simp only [keptRowStores, List.mem_flatMap, List.mem_range]
  refine exists_congr fun row => and_congr_right fun _ => ?_
  split_ifs with hskip
  · simp [hskip]
  · simp [hskip, eq_comm]

theorem keptRowStores_settle {skip : ℕ → Prop} [DecidablePred skip] (n rows : ℕ) (v : ℕ → ℕ → α) :
    Settles (fun a => v (a / n) (a % n)) (keptRowStores skip n rows v) := by
  intro x hx old
  obtain ⟨row, -, -, k, hk, rfl⟩ := mem_keptRowStores.1 hx
  simp only [Access.store_effect, Access.store_addr, entry_div hk, entry_mod hk]

/-- A row that is not skipped gets its values in any order of the stores. -/
theorem launch_keptRow {skip : ℕ → Prop} [DecidablePred skip] (s : Schedule) {row k : ℕ}
    (hrow : row < rows) (hskip : ¬ skip row) (hk : k < n) :
    launch s (keptRowStores skip n rows v) mem (row * n + k) = v row k := by
  have hsettles : Settles _ (keptRowStores skip n rows v) := keptRowStores_settle n rows v
  have hmem : Access.store (row * n + k) (v row k) ∈ keptRowStores skip n rows v :=
    mem_keptRowStores.2 ⟨row, hrow, hskip, k, hk, rfl⟩
  have hhit : perform mem _ _ = _ := hsettles.perform_hit ⟨_, hmem, rfl⟩
  rw [launch_eq s hsettles.raceFree, ← Access.store_addr (row * n + k) (v row k), hhit]
  simp only [Access.store_addr, entry_div hk, entry_mod hk]

/-- A grid whose threads store one item each. -/
def itemStores (block n : ℕ) (f : ℕ → α) : List (Access α) :=
  grid block n fun i => if n ≤ i then [] else [Access.store i (f i)]

/-- In any order of the threads each item gets its value. -/
theorem launch_item {block i : ℕ} {f : ℕ → α} (s : Schedule) (hblock : 0 < block) (hi : i < n) :
    launch s (itemStores block n f) mem i = f i := by
  have hlist : itemStores block n f = (List.range n).flatMap fun i => [Access.store i (f i)] :=
    grid_guard hblock n fun i => [Access.store i (f i)]
  have hsettles : Settles f (itemStores block n f) := by
    rw [hlist]
    intro x hx old
    obtain ⟨j, -, hx⟩ := List.mem_flatMap.1 hx
    rw [List.mem_singleton.1 hx]
    rfl
  rw [launch_eq s hsettles.raceFree]
  refine hsettles.perform_hit ⟨Access.store i (f i), ?_, rfl⟩
  rw [hlist]
  exact List.mem_flatMap.2 ⟨i, List.mem_range.2 hi, List.mem_singleton_self _⟩

end Stores

end Ds4.Parts
