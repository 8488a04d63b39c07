import Ds4.State.Wp
import Mathlib.Data.Nat.Notation

/-! Programs that call primitives which may fail: each call takes the next answer. -/
namespace Ds4.State

variable {σ τ α β : Type}

/-- A program over `σ` that counts its calls; an error is a text and keeps the state. -/
abbrev Prog (σ α : Type) := EStateM String (σ × ℕ) α

namespace Prog

/-- The next answer. -/
def call (answers : ℕ → Bool) : Prog σ Bool := fun s => .ok (answers s.2) (s.1, s.2 + 1)

def readAt (f : σ → ℕ → α) : Prog σ α := fun s => .ok (f s.1 s.2) s

def write (f : σ → σ) : Prog σ PUnit := fun s => .ok ⟨⟩ (f s.1, s.2)

/-- A primitive that writes, or fails and writes nothing. -/
def launch (answers : ℕ → Bool) (f : σ → σ) (e : String) : Prog σ PUnit := do
  require (← call answers) e
  write f

/-- A program over a part of the state. -/
def zoom (part : σ → τ) (put : τ → σ → σ) (m : Prog τ α) : Prog σ α := fun s =>
  match m (part s.1, s.2) with
  | .ok a t => .ok a (put t.1 s.1, t.2)
  | .error e t => .error e (put t.1 s.1, t.2)

/-- A program for each element, in order. -/
def each (xs : List β) (m : β → Prog σ PUnit) : Prog σ PUnit :=
  match xs with
  | [] => pure ⟨⟩
  | x :: xs => do
      m x
      each xs m

section Each
variable {γ : Type} (m : β → Prog σ PUnit)

theorem each_append (xs ys : List β) : each (xs ++ ys) m = (do each xs m; each ys m) := by
  induction xs with
  | nil =>
    rw [List.nil_append, each, pure_bind]
  | cons x xs ih =>
    rw [List.cons_append, each, each, ih, bind_assoc]

theorem each_map (f : γ → β) (xs : List γ) : each (xs.map f) m = each xs fun x => m (f x) := by
  induction xs with
  | nil => rfl
  | cons x xs ih =>
    rw [List.map_cons, each, each, ih]

/-- A loop in a loop. -/
theorem each_flatMap (f : γ → List β) (xs : List γ) :
    each (xs.flatMap f) m = each xs fun x => each (f x) m := by
  induction xs with
  | nil => rfl
  | cons x xs ih =>
    rw [List.flatMap_cons, each_append, each, ih]

end Each

section Zoom
variable {part : σ → τ} {put : τ → σ → σ}

variable (hself : ∀ s, put (part s) s = s)
include hself

end Zoom

section Rules
variable {E : σ × ℕ → Prop} {s : σ × ℕ}

@[simp] theorem wp_call (answers : ℕ → Bool) {Q : Bool → σ × ℕ → Prop} :
    wp (call answers) Q E s = Q (answers s.2) (s.1, s.2 + 1) := rfl

@[simp] theorem wp_readAt (f : σ → ℕ → α) {Q : α → σ × ℕ → Prop} :
    wp (readAt f) Q E s = Q (f s.1 s.2) s := rfl

@[simp] theorem wp_write (f : σ → σ) {Q : PUnit → σ × ℕ → Prop} :
    wp (write f) Q E s = Q ⟨⟩ (f s.1, s.2) := rfl

theorem wp_launch {answers : ℕ → Bool} {f : σ → σ} {e : String} {Q : PUnit → σ × ℕ → Prop}
    (hE : answers s.2 = false → E (s.1, s.2 + 1))
    (hQ : answers s.2 = true → Q ⟨⟩ (f s.1, s.2 + 1)) : wp (launch answers f e) Q E s := by
  rw [launch, wp_bind, wp_call, wp_bind]
  exact wp_require hE hQ

theorem wp_zoom {part : σ → τ} {put : τ → σ → σ} {m : Prog τ α} {Q : α → σ × ℕ → Prop}
    (h : wp m (fun a t => Q a (put t.1 s.1, t.2)) (fun t => E (put t.1 s.1, t.2))
      (part s.1, s.2)) : wp (zoom part put m) Q E s := by
  unfold wp zoom at *
  cases hm : m (part s.1, s.2) with
  | ok a t =>
    rw [hm] at h
    exact h
  | error e t =>
    rw [hm] at h
    exact h

theorem wp_each_from {I : List β → σ × ℕ → Prop} {m : β → Prog σ PUnit} {all : List β}
    (hstep : ∀ done x rest s, all = done ++ x :: rest → I done s →
      wp (m x) (fun _ s' => I (done ++ [x]) s') E s) (xs : List β) :
    ∀ (done : List β) (s : σ × ℕ), all = done ++ xs → I done s →
      wp (each xs m) (fun _ s' => I all s') E s := by
  induction xs with
  | nil =>
    intro done s hall h
    rw [List.append_nil] at hall
    rw [hall]
    exact h
  | cons x xs ih =>
    intro done s hall h
    rw [each]
    apply wp_seq (hstep done x xs s hall h)
    intro _ s' hs'
    apply ih (done ++ [x]) s' _ hs'
    rw [hall, List.append_assoc]
    rfl

/-- An invariant of the elements done so far. -/
theorem wp_each {I : List β → σ × ℕ → Prop} {m : β → Prog σ PUnit} {xs : List β}
    (hstep : ∀ done x rest s, xs = done ++ x :: rest → I done s →
      wp (m x) (fun _ s' => I (done ++ [x]) s') E s) (h : I [] s) :
    wp (each xs m) (fun _ s' => I xs s') E s :=
  wp_each_from hstep xs [] s rfl h

end Rules

end Prog

end Ds4.State
