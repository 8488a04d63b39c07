import Mathlib.Data.List.TakeDrop
import Mathlib.Data.Nat.Basic
import Mathlib.Order.Basic

/-! Texts printed one behind the other into a buffer of fixed size, as long as there is some room,
and how much room is enough for nothing to be left out. -/
namespace Ds4.Parts

variable {α : Type*} {size margin last : ℕ} {s tail : List α} {ss : List (List α)}

/-- What a bounded print leaves of a text, with an end mark behind it. -/
def clip (size : ℕ) (s : List α) : List α := s.take (size - 1)

/-- A buffer: the text in it, and the length that all prints so far asked for. -/
structure Buffer (α : Type*) where
  text : List α
  used : ℕ

/-- A print behind what is in the buffer. -/
def Buffer.print (size : ℕ) (b : Buffer α) (s : List α) : Buffer α :=
  ⟨b.text ++ clip (size - b.used) s, b.used + s.length⟩

/-- The last text is printed where there is room for it. -/
def Buffer.finish (size last : ℕ) (tail : List α) (b : Buffer α) : List α :=
  if b.used + last < size then (b.print size tail).text else b.text

/-- Room before each text, and for the last one. -/
def Room (size margin last : ℕ) : ℕ → List (List α) → Prop
  | used, [] => used + last < size
  | used, s :: ss => used + margin < size ∧ Room size margin last (used + s.length) ss

theorem Room.lt {used : ℕ} (h : Room size margin last used ss) : used < size := by
  cases ss with
  | nil => exact (Nat.le_add_right used last).trans_lt h
  | cons s ss => exact (Nat.le_add_right used margin).trans_lt h.1

end Ds4.Parts
