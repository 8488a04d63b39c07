import Ds4.Parts.Rows
import Mathlib.Algebra.BigOperators.Group.Finset.Basic
import Mathlib.Data.Finset.Max

/-! The collectives of a group of ranks, each of which has a buffer. What comes out is the same on
all of them. -/
namespace Ds4.Parts

/-- Of `count` elements on each rank the greatest and the sum, element by element, and all of them,
one rank behind the other. -/
structure Collectives (ranks : ℕ) (α : Type) [AddCommMonoid α] [LinearOrder α] where
  allReduceMax : ℕ → (ℕ → ℕ → α) → ℕ → α
  allReduceSum : ℕ → (ℕ → ℕ → α) → ℕ → α
  allGather : ℕ → (ℕ → ℕ → α) → ℕ → α
  le_max : ∀ count send i, i < count → ∀ rank < ranks, send rank i ≤ allReduceMax count send i
  max_mem : ∀ count send i, i < count → ∃ rank < ranks, allReduceMax count send i = send rank i
  sum_eq : ∀ count send i, i < count →
    allReduceSum count send i = ∑ rank ∈ Finset.range ranks, send rank i
  gather_eq : ∀ count send i, i < count → ∀ rank < ranks,
    allGather count send (rank * count + i) = send rank i

namespace Collectives

section Max
variable {α : Type} [LinearOrder α] {ranks : ℕ} (hranks : (Finset.range ranks).Nonempty)

theorem le_sup (count : ℕ) (send : ℕ → ℕ → α) (i : ℕ) (_ : i < count) (rank : ℕ)
    (hrank : rank < ranks) :
    send rank i ≤ (Finset.range ranks).sup' hranks fun rank => send rank i :=
  Finset.le_sup' (fun rank => send rank i) (Finset.mem_range.2 hrank)

theorem sup_mem (count : ℕ) (send : ℕ → ℕ → α) (i : ℕ) (_ : i < count) :
    ∃ rank < ranks, ((Finset.range ranks).sup' hranks fun rank => send rank i) = send rank i := by
  obtain ⟨rank, hrank, heq⟩ := Finset.exists_mem_eq_sup' hranks fun rank => send rank i
  exact ⟨rank, Finset.mem_range.1 hrank, heq⟩

end Max

theorem gather_at {α : Type} {ranks : ℕ} (count : ℕ) (send : ℕ → ℕ → α) (i : ℕ) (hi : i < count)
    (rank : ℕ) (_ : rank < ranks) :
    send ((rank * count + i) / count) ((rank * count + i) % count) = send rank i := by
  rw [entry_div hi, entry_mod hi]

variable {ranks : ℕ} {α : Type} [AddCommMonoid α] [LinearOrder α]

/-- Collectives that compute what they are to. -/
def direct (hranks : (Finset.range ranks).Nonempty) : Collectives ranks α where
  allReduceMax _ send i := (Finset.range ranks).sup' hranks fun rank => send rank i
  allReduceSum _ send i := ∑ rank ∈ Finset.range ranks, send rank i
  allGather count send i := send (i / count) (i % count)
  le_max := le_sup hranks
  max_mem := sup_mem hranks
  sum_eq := fun _ _ _ _ => rfl
  gather_eq := gather_at

theorem max_le_iff (comm : Collectives ranks α) {count i : ℕ} {send : ℕ → ℕ → α} {b : α}
    (hi : i < count) :
    comm.allReduceMax count send i ≤ b ↔ ∀ rank < ranks, send rank i ≤ b := by
  constructor
  · exact fun hle rank hrank => (comm.le_max count send i hi rank hrank).trans hle
  · intro hall
    obtain ⟨rank, hrank, heq⟩ := comm.max_mem count send i hi
    rw [heq]
    exact hall rank hrank

end Collectives

end Ds4.Parts
