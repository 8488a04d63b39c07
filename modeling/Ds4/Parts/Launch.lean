import Mathlib.Algebra.Order.Ring.Nat
import Mathlib.Data.List.Basic

/-! Memories written by the threads of a launch, in any order. -/
namespace Ds4.Parts

variable {α : Type}

/-- One access of a thread: the cell and what happens to its value. -/
structure Access (α : Type) where
  addr : ℕ
  effect : α → α

namespace Access

def store (a : ℕ) (v : α) : Access α := ⟨a, fun _ => v⟩

def add [Add α] (a : ℕ) (v : α) : Access α := ⟨a, fun old => old + v⟩

@[simp] theorem store_addr (a : ℕ) (v : α) : (store a v).addr = a := rfl

@[simp] theorem store_effect (a : ℕ) (v old : α) : (store a v).effect old = v := rfl

@[simp] theorem add_addr [Add α] (a : ℕ) (v : α) : (add a v).addr = a := rfl

@[simp] theorem add_effect [Add α] (a : ℕ) (v old : α) : (add a v).effect old = old + v := rfl

def apply (mem : ℕ → α) (x : Access α) : ℕ → α := Function.update mem x.addr (x.effect (mem x.addr))

end Access

/-- The accesses take effect one after the other. -/
def perform (mem : ℕ → α) (l : List (Access α)) : ℕ → α := l.foldl Access.apply mem

variable {mem : ℕ → α} {l l' : List (Access α)} {a : ℕ}

@[simp] theorem perform_nil : perform mem [] = mem := rfl

@[simp] theorem perform_cons (x : Access α) :
    perform mem (x :: l) = perform (x.apply mem) l := rfl

theorem perform_append : perform mem (l ++ l') = perform (perform mem l) l' := List.foldl_append

theorem perform_untouched (h : ∀ x ∈ l, x.addr ≠ a) : perform mem l a = mem a := by
  induction l generalizing mem with
  | nil => rfl
  | cons x l ih =>
    rw [perform_cons, ih fun y hy => h y (List.mem_cons_of_mem x hy)]
    exact Function.update_of_ne (h x List.mem_cons_self).symm _ _

/-- A cell that some access touches, and every access of it stores one value, holds that value. -/
theorem perform_stored {v : α} (hany : ∃ x ∈ l, x.addr = a)
    (hall : ∀ x ∈ l, x.addr = a → ∀ old, x.effect old = v) : perform mem l a = v := by
  induction l generalizing mem with
  | nil => simp at hany
  | cons x l ih =>
    rw [perform_cons]
    by_cases hrest : ∃ y ∈ l, y.addr = a
    · exact ih hrest fun y hy => hall y (List.mem_cons_of_mem x hy)
    · push Not at hrest
      obtain ⟨y, hy, hya⟩ := hany
      have hx : x.addr = a := by
        rcases List.mem_cons.1 hy with rfl | hmem
        · exact hya
        · exact absurd hya (hrest y hmem)
      rw [perform_untouched hrest, Access.apply, hx, Function.update_self]
      exact hall x List.mem_cons_self hx _

/-- A cell touched by additions alone collects what they add. -/
theorem perform_added [AddMonoid α] (adds : List (ℕ × α)) :
    perform mem (adds.map fun x => Access.add x.1 x.2) a =
      mem a + ((adds.filter fun x => x.1 = a).map Prod.snd).sum := by
  induction adds generalizing mem with
  | nil => simp
  | cons x adds ih =>
    rw [List.map_cons, perform_cons, ih]
    by_cases hx : x.1 = a
    · simp [hx, Access.apply, add_assoc]
    · have hne : a ≠ x.1 := fun h => hx h.symm
      simp [hx, Access.apply, Function.update_of_ne hne]

/-- Two accesses of one cell that can meet in either order. -/
def Agree (x y : Access α) : Prop :=
  x.addr = y.addr → ∀ v, x.effect (y.effect v) = y.effect (x.effect v)

/-- Accesses whose order does not matter. -/
def RaceFree (l : List (Access α)) : Prop := ∀ x ∈ l, ∀ y ∈ l, Agree x y

theorem Agree.apply_comm {x y : Access α} (h : Agree x y) :
    y.apply (x.apply mem) = x.apply (y.apply mem) := by
  unfold Access.apply
  by_cases hxy : x.addr = y.addr
  · simp only [hxy, Function.update_self, Function.update_idem]
    rw [h hxy]
  · rw [Function.update_of_ne (Ne.symm hxy), Function.update_of_ne hxy,
      Function.update_comm hxy]

theorem perform_perm (hrace : RaceFree l) (h : l.Perm l') : perform mem l = perform mem l' := by
  apply h.foldl_eq'
  intro x hx y hy m
  exact (hrace x hx y hy).apply_comm

theorem agree_add [AddCommMonoid α] (a b : ℕ) (u v : α) :
    Agree (Access.add a u) (Access.add b v) := by
  intro _ old
  exact add_right_comm old v u

theorem flatMap_ite {ι : Type} (is : List ι) (p : ι → Prop) [DecidablePred p] (f : ι → Access α) :
    (is.flatMap fun i => if p i then [f i] else []) = (is.filter fun i => p i).map f := by
  induction is with
  | nil => rfl
  | cons i is ih =>
    rw [List.flatMap_cons, ih]
    by_cases hp : p i <;> simp [hp]

/-- Accesses that put into each cell the one value it is to have. -/
def Settles (v : ℕ → α) (l : List (Access α)) : Prop := ∀ x ∈ l, ∀ old, x.effect old = v x.addr

theorem Settles.raceFree {v : ℕ → α} (h : Settles v l) : RaceFree l := by
  intro x hx y hy hxy old
  rw [h x hx, h y hy, hxy]

theorem Settles.perform_hit {v : ℕ → α} (h : Settles v l) (hany : ∃ x ∈ l, x.addr = a) :
    perform mem l a = v a := by
  apply perform_stored hany
  intro x hx hxa old
  rw [h x hx, hxa]

/-- Stores race only when they put different values into one cell. -/
theorem raceFree_stores {ι : Type} {is : List ι} (f : ι → ℕ) (v : ι → α)
    (h : ∀ i ∈ is, ∀ j ∈ is, f i = f j → v i = v j) :
    RaceFree (is.map fun i => Access.store (f i) (v i)) := by
  intro x hx y hy hxy old
  obtain ⟨i, hi, rfl⟩ := List.mem_map.1 hx
  obtain ⟨j, hj, rfl⟩ := List.mem_map.1 hy
  exact h i hi j hj hxy

theorem raceFree_adds [AddCommMonoid α] (adds : List (ℕ × α)) :
    RaceFree (adds.map fun x => Access.add x.1 x.2) := by
  intro x hx y hy
  obtain ⟨u, -, rfl⟩ := List.mem_map.1 hx
  obtain ⟨v, -, rfl⟩ := List.mem_map.1 hy
  exact agree_add _ _ _ _

theorem RaceFree.append (h : RaceFree l) (h' : RaceFree l')
    (hne : ∀ x ∈ l, ∀ y ∈ l', x.addr ≠ y.addr) : RaceFree (l ++ l') := by
  intro x hx y hy hxy
  rcases List.mem_append.1 hx with hxl | hxl <;> rcases List.mem_append.1 hy with hyl | hyl
  · exact h x hxl y hyl hxy
  · exact absurd hxy (hne x hxl y hyl)
  · exact absurd hxy.symm (hne y hyl x hxl)
  · exact h' x hxl y hyl hxy

theorem RaceFree.perm (h : RaceFree l) (hp : l'.Perm l) : RaceFree l' :=
  fun x hx y hy => h x (hp.mem_iff.1 hx) y (hp.mem_iff.1 hy)

/-- The order in which the accesses of a launch reach a memory. -/
structure Schedule where
  order : {β : Type} → List β → List β
  order_perm : ∀ {β : Type} (l : List β), (order l).Perm l

/-- Every access in the order it was issued. -/
def Schedule.inOrder : Schedule where
  order := id
  order_perm := fun l => List.Perm.refl l

/-- Every access in the reverse order. -/
def Schedule.reversed : Schedule where
  order := List.reverse
  order_perm := fun l => List.reverse_perm l

def launch (s : Schedule) (accesses : List (Access α)) (mem : ℕ → α) : ℕ → α :=
  perform mem (s.order accesses)

theorem launch_eq (s : Schedule) (hrace : RaceFree l) : launch s l mem = perform mem l :=
  (perform_perm hrace (s.order_perm l).symm).symm

/-- The threads of whole blocks that cover `n` items. -/
def gridThreads (block n : ℕ) : ℕ := (n + block - 1) / block * block

/-- The accesses of all threads of a grid. -/
def grid (block n : ℕ) (thread : ℕ → List (Access α)) : List (Access α) :=
  (List.range (gridThreads block n)).flatMap thread

theorem le_gridThreads {block : ℕ} (hblock : 0 < block) (n : ℕ) : n ≤ gridThreads block n := by
  unfold gridThreads
  have h₁ := Nat.div_add_mod (n + block - 1) block
  have h₂ := Nat.mod_lt (n + block - 1) hblock
  rw [Nat.mul_comm] at h₁
  omega

theorem flatMap_guard {n m : ℕ} (h : n ≤ m) (body : ℕ → List (Access α)) :
    ((List.range m).flatMap fun i => if n ≤ i then [] else body i) =
      (List.range n).flatMap body := by
  obtain ⟨d, rfl⟩ := Nat.exists_eq_add_of_le h
  induction d with
  | zero =>
    apply List.flatMap_congr
    intro i hi
    exact if_neg (Nat.not_le.2 (List.mem_range.1 hi))
  | succ d ih =>
    rw [show n + (d + 1) = n + d + 1 from rfl, List.range_succ, List.flatMap_append,
      ih (Nat.le_add_right n d)]
    simp

/-- A thread beyond the items returns at once, so every item has exactly one thread. -/
theorem grid_guard {block : ℕ} (hblock : 0 < block) (n : ℕ) (body : ℕ → List (Access α)) :
    grid block n (fun i => if n ≤ i then [] else body i) = (List.range n).flatMap body :=
  flatMap_guard (le_gridThreads hblock n) body

end Ds4.Parts
