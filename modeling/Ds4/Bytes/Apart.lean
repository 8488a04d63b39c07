import Ds4.Bytes.Search
import Mathlib.Data.List.Basic

/-! Lists that part at some position: neither is a beginning of the other. -/
namespace Ds4.Search

variable {α : Type*}

def Apart (a b : List α) : Prop := ¬ a <+: b ∧ ¬ b <+: a

instance [DecidableEq α] (a b : List α) : Decidable (Apart a b) :=
  inferInstanceAs (Decidable (_ ∧ _))

theorem Apart.symm {a b : List α} (h : Apart a b) : Apart b a := ⟨h.2, h.1⟩

theorem Apart.ne {a b : List α} (h : Apart a b) : a ≠ b := by
  rintro rfl
  exact h.1 List.prefix_rfl

/-- Lists that have parted are not brought together by what follows. -/
theorem Apart.append {a b : List α} (h : Apart a b) (x y : List α) :
    Apart (a ++ x) (b ++ y) := by
  have key : ∀ {a b : List α} (x y), Apart a b → ¬ a ++ x <+: b ++ y := by
    intro a b x y h hp
    have ha : a <+: b ++ y := (List.prefix_append a x).trans hp
    rcases List.prefix_or_prefix_of_prefix ha (List.prefix_append b y) with hab | hba
    · exact h.1 hab
    · exact h.2 hba
  exact ⟨key x y h, key y x h.symm⟩

theorem Apart.prepend {a b : List α} (h : Apart a b) (p : List α) :
    Apart (p ++ a) (p ++ b) :=
  ⟨fun hp => h.1 ((List.prefix_append_right_inj p).mp hp),
    fun hp => h.2 ((List.prefix_append_right_inj p).mp hp)⟩

/-- A word written in front of a text that `e` closes moves the closing one, so that it has
to occur a second time. -/
theorem not_prefix_of_shift {w s e t : List α} (hw : w ≠ []) (h : ¬ e <:+: (e ++ t).tail) :
    ¬ w ++ s ++ e <+: s ++ e ++ t := by
  rintro ⟨u, hu⟩
  refine h ?_
  have hlen : 0 < w.length := List.length_pos_of_ne_nil hw
  have hdrop : (e ++ t).drop w.length = e ++ u := by
    have := congrArg (List.drop (w.length + s.length)) hu
    rw [List.append_assoc (w ++ s), ← List.length_append, List.drop_left, List.length_append,
      Nat.add_comm, ← List.drop_drop, List.append_assoc, List.drop_left] at this
    exact this.symm
  have hsuf : (e ++ t).drop w.length <:+ (e ++ t).tail := by
    rw [← List.drop_one, show w.length = 1 + (w.length - 1) by omega, ← List.drop_drop]
    exact List.drop_suffix _ _
  have he : e <+: (e ++ t).drop w.length := hdrop ▸ List.prefix_append e u
  exact he.isInfix.trans hsuf.isInfix

end Ds4.Search
