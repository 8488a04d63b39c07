import Mathlib.Data.List.Basic
import Mathlib.Tactic.Ring

/-! Extents laid end to end. -/
namespace Ds4.Parts

/-- A range of an address space. -/
structure Extent where
  off : ℕ
  bytes : ℕ
  deriving DecidableEq

namespace Extent

def Has (e : Extent) (x : ℕ) : Prop := e.off ≤ x ∧ x < e.off + e.bytes

def Apart (a b : Extent) : Prop := ∀ x, a.Has x → ¬ b.Has x

def Inside (a b : Extent) : Prop := b.off ≤ a.off ∧ a.off + a.bytes ≤ b.off + b.bytes

variable {a b c : Extent}

theorem Apart.symm (h : Apart a b) : Apart b a := fun x hb ha => h x ha hb

theorem Inside.trans (h : Inside a b) (h' : Inside b c) : Inside a c :=
  ⟨h'.1.trans h.1, h.2.trans h'.2⟩

theorem Inside.has {x : ℕ} (h : Inside a b) (hx : a.Has x) : b.Has x :=
  ⟨h.1.trans hx.1, lt_of_lt_of_le hx.2 h.2⟩

theorem Apart.mono {a' b' : Extent} (h : Apart a b) (ha : Inside a' a) (hb : Inside b' b) :
    Apart a' b' :=
  fun x hx hx' => h x (ha.has hx) (hb.has hx')

theorem apart_of_le (h : a.off + a.bytes ≤ b.off) : Apart a b := by
  intro x ha hb
  have h₁ := ha.2
  have h₂ := hb.1
  omega

end Extent

/-- Extents of the given sizes, one behind the other from `o` on. -/
def tile : ℕ → List ℕ → List Extent
  | _, [] => []
  | o, n :: ns => ⟨o, n⟩ :: tile (o + n) ns

theorem tile_append (ms : List ℕ) : ∀ (o : ℕ) (ns : List ℕ),
    tile o (ms ++ ns) = tile o ms ++ tile (o + ms.sum) ns := by
  induction ms with
  | nil =>
    intro o ns
    rfl
  | cons m ms ih =>
    intro o ns
    rw [List.cons_append, tile, ih, tile, List.sum_cons, Nat.add_assoc]
    rfl

theorem tile_inside {e : Extent} (ns : List ℕ) : ∀ o : ℕ, e ∈ tile o ns →
    e.Inside ⟨o, ns.sum⟩ := by
  induction ns with
  | nil =>
    intro o he
    cases he
  | cons n ns ih =>
    intro o he
    rw [List.sum_cons]
    rcases List.mem_cons.1 he with rfl | he
    · constructor
      · exact le_rfl
      · simp only
        omega
    · obtain ⟨h₁, h₂⟩ := ih (o + n) he
      constructor
      · simp only at h₁ ⊢
        omega
      · simp only at h₂ ⊢
        omega

/-- Tiles do not overlap. -/
theorem tile_apart (ns : List ℕ) : ∀ o : ℕ, (tile o ns).Pairwise Extent.Apart := by
  induction ns with
  | nil =>
    intro o
    exact List.Pairwise.nil
  | cons n ns ih =>
    intro o
    apply List.Pairwise.cons
    · intro e he
      exact Extent.apart_of_le (tile_inside ns (o + n) he).1
    · exact ih (o + n)

/-- Tiles leave no gap. -/
theorem tile_cover {x : ℕ} (ns : List ℕ) : ∀ o : ℕ,
    (⟨o, ns.sum⟩ : Extent).Has x ↔ ∃ e ∈ tile o ns, e.Has x := by
  induction ns with
  | nil =>
    intro o
    simp [tile, Extent.Has]
  | cons n ns ih =>
    intro o
    have hrest := ih (o + n)
    rw [tile, List.exists_mem_cons_iff, ← hrest, List.sum_cons]
    simp only [Extent.Has]
    omega

/-- Tiles of one size. -/
theorem tile_replicate (n : ℕ) (k : ℕ) : ∀ o : ℕ,
    tile o (List.replicate k n) = (List.range k).map fun i : ℕ => ⟨o + i * n, n⟩ := by
  induction k with
  | zero =>
    intro o
    rfl
  | succ k ih =>
    intro o
    rw [List.replicate_succ, tile, ih (o + n), List.range_succ_eq_map, List.map_cons,
      List.map_map, Nat.zero_mul, Nat.add_zero]
    congr 1
    apply List.map_congr_left
    intro i _
    show (⟨o + n + i * n, n⟩ : Extent) = ⟨o + (i + 1) * n, n⟩
    congr 1
    ring

end Ds4.Parts
