import Mathlib.Data.List.Nodup

/-! Doubly linked lists with a head and a tail. -/
namespace Ds4.Parts

/-- The pointers of a list. -/
structure Links (κ : Type) where
  head : Option κ
  tail : Option κ
  prev : κ → Option κ
  next : κ → Option κ

namespace Links
variable {κ : Type}

def empty : Links κ := ⟨none, none, fun _ => none, fun _ => none⟩

/-- The pointers run through exactly these items, each once. -/
structure Holds (l : Links κ) (xs : List κ) : Prop where
  nodup : xs.Nodup
  head : l.head = xs.head?
  tail : l.tail = xs.getLast?
  links : ∀ as e bs, xs = as ++ e :: bs → l.prev e = as.getLast? ∧ l.next e = bs.head?

theorem empty_holds : (empty : Links κ).Holds [] where
  nodup := List.nodup_nil
  head := rfl
  tail := rfl
  links := by
    intro as e bs h
    simp at h

variable [DecidableEq κ]

/-- Puts an item in front. -/
def linkHead (l : Links κ) (e : κ) : Links κ :=
  let prev := Function.update l.prev e none
  { head := some e
    tail := if l.head = none then some e else l.tail
    prev := match l.head with
      | some h => Function.update prev h (some e)
      | none => prev
    next := Function.update l.next e l.head }

/-- Takes an item out. -/
def unlink (l : Links κ) (e : κ) : Links κ :=
  let next := match l.prev e with
    | some p => Function.update l.next p (l.next e)
    | none => l.next
  let prev := match l.next e with
    | some n => Function.update l.prev n (l.prev e)
    | none => l.prev
  { head := if l.prev e = none then l.next e else l.head
    tail := if l.next e = none then l.prev e else l.tail
    prev := Function.update prev e none
    next := Function.update next e none }

variable {l : Links κ} {e x : κ} {as bs cs ds xs : List κ}

theorem linkHead_next (h : x ≠ e) : (l.linkHead e).next x = l.next x := by
  simp [linkHead, Function.update_of_ne h]

theorem linkHead_prev (h : x ≠ e) (hx : l.head ≠ some x) :
    (l.linkHead e).prev x = l.prev x := by
  unfold linkHead
  cases hh : l.head with
  | none => simp [Function.update_of_ne h]
  | some y =>
    have hxy : x ≠ y := by
      rintro rfl
      exact hx hh
    simp [Function.update_of_ne h, Function.update_of_ne hxy]

theorem linkHead_prev_head (hx : l.head = some x) :
    (l.linkHead e).prev x = some e := by
  simp [linkHead, hx]

/-- An item put in front stands in front. -/
theorem linkHead_holds (h : l.Holds xs) (he : e ∉ xs) : (l.linkHead e).Holds (e :: xs) := by
  refine ⟨List.nodup_cons.2 ⟨he, h.nodup⟩, rfl, ?_, ?_⟩
  · cases xs with
    | nil => simp [linkHead, h.head]
    | cons x xs =>
      have htail := h.tail
      simp [linkHead, h.head, htail, List.getLast?_cons_cons]
  · intro as x bs hsplit
    cases as with
    | nil =>
      obtain ⟨rfl, rfl⟩ := List.cons.inj hsplit
      constructor
      · have hne : l.head ≠ some e := by
          rw [h.head]
          intro hh
          exact he (List.mem_of_mem_head? hh)
        unfold linkHead
        cases hh : l.head with
        | none => simp
        | some y =>
          have hey : e ≠ y := by
            rintro rfl
            exact hne hh
          simp [Function.update_of_ne hey]
      · simp [linkHead, h.head]
    | cons a as =>
      obtain ⟨rfl, rfl⟩ := List.cons.inj hsplit
      obtain ⟨hprev, hnext⟩ := h.links as x bs rfl
      have hxe : x ≠ e := by
        rintro rfl
        exact he (by simp)
      refine ⟨?_, by rw [linkHead_next hxe, hnext]⟩
      cases as with
      | nil =>
        rw [linkHead_prev_head (by rw [h.head]; rfl)]
        rfl
      | cons a as =>
        have hhead : l.head ≠ some x := by
          rw [h.head]
          intro hh
          obtain rfl : a = x := by simpa using hh
          have hnd := h.nodup
          simp at hnd
        rw [linkHead_prev hxe hhead, hprev, List.getLast?_cons_cons]

theorem unlink_next (hx : x ≠ e) :
    (l.unlink e).next x = if l.prev e = some x then l.next e else l.next x := by
  unfold unlink
  simp only [Function.update_of_ne hx]
  cases hp : l.prev e with
  | none => simp
  | some p =>
    by_cases hpx : x = p
    · simp [hpx]
    · simp [Function.update_of_ne hpx, Ne.symm hpx]

theorem unlink_prev (hx : x ≠ e) :
    (l.unlink e).prev x = if l.next e = some x then l.prev e else l.prev x := by
  unfold unlink
  simp only [Function.update_of_ne hx]
  cases hn : l.next e with
  | none => simp
  | some n =>
    by_cases hnx : x = n
    · simp [hnx]
    · simp [Function.update_of_ne hnx, Ne.symm hnx]

omit [DecidableEq κ] in
/-- An item of a list of two halves is in one of them. -/
theorem split_side (h : as ++ bs = cs ++ x :: ds) :
    (∃ ms, cs = as ++ ms ∧ bs = ms ++ x :: ds) ∨ ∃ ms, as = cs ++ x :: ms ∧ ds = ms ++ bs := by
  rcases List.append_eq_append_iff.1 h with ⟨ms, rfl, rfl⟩ | ⟨ms, rfl, hds⟩
  · exact Or.inl ⟨ms, rfl, rfl⟩
  · cases ms with
    | nil => exact Or.inl ⟨[], by simp, hds.symm⟩
    | cons m ms =>
      obtain ⟨rfl, rfl⟩ := List.cons.inj hds
      exact Or.inr ⟨ms, rfl, rfl⟩

/-- An item taken out leaves the others as they stood. -/
theorem unlink_holds (h : l.Holds (as ++ e :: bs)) : (l.unlink e).Holds (as ++ bs) := by
  obtain ⟨hprev, hnext⟩ := h.links as e bs rfl
  have hnd := h.nodup
  have hsub : (as ++ bs).Sublist (as ++ e :: bs) :=
    List.Sublist.append_left (List.sublist_cons_self e bs) as
  have he : e ∉ as ++ bs := by
    have := List.nodup_middle.1 hnd
    exact (List.nodup_cons.1 this).1
  refine ⟨hnd.sublist hsub, ?_, ?_, ?_⟩
  · cases as with
    | nil => simp [unlink, hprev, hnext]
    | cons a as =>
      have hp : l.prev e ≠ none := by
        rw [hprev]
        simp
      simp [unlink, hp, h.head]
  · by_cases hb : bs = []
    · subst hb
      simp [unlink, hprev, hnext]
    · have hn : l.next e ≠ none := by
        rw [hnext]
        simpa using hb
      simp [unlink, hn, h.tail, List.getLast?_append, List.getLast?_cons_of_ne_nil hb]
  · intro cs x ds hsplit
    have hxe : x ≠ e := by
      rintro rfl
      exact he (hsplit ▸ by simp)
    rw [unlink_prev hxe, unlink_next hxe, hprev, hnext]
    rcases split_side hsplit with ⟨ms, rfl, rfl⟩ | ⟨ms, rfl, rfl⟩
    · -- The item stands behind the one that is gone.
      obtain ⟨hxp, hxn⟩ := h.links (as ++ e :: ms) x ds (by simp)
      have hxas : x ∉ as := fun hx => List.disjoint_of_nodup_append hnd hx (by simp)
      have hlast : as.getLast? ≠ some x := fun hl => hxas (List.mem_of_getLast? hl)
      rw [if_neg hlast, hxp, hxn]
      refine ⟨?_, rfl⟩
      cases ms with
      | nil => simp
      | cons m ms =>
        have hmx : m ≠ x := by
          rintro rfl
          have hbs := (List.nodup_append.1 hnd).2.1
          simp at hbs
        rw [if_neg (by simpa using hmx), List.getLast?_append, List.getLast?_append,
          List.getLast?_cons_cons]
    · -- The item stands before it.
      obtain ⟨hxp, hxn⟩ := h.links cs x (ms ++ e :: bs) (by simp)
      have hxbs : x ∉ bs := fun hx => List.disjoint_of_nodup_append hnd (by simp)
        (List.mem_cons_of_mem e hx)
      have hhead : bs.head? ≠ some x := fun hl => hxbs (List.mem_of_mem_head? hl)
      rw [if_neg hhead, hxp, hxn]
      refine ⟨rfl, ?_⟩
      cases ms with
      | nil => simp
      | cons m ms =>
        have hlast : (cs ++ x :: m :: ms).getLast? ≠ some x := by
          intro hl
          rw [List.getLast?_append, List.getLast?_cons_cons] at hl
          have hmem : x ∈ m :: ms := by
            apply List.mem_of_getLast?
            simpa [List.getLast?_cons] using hl
          have has := (List.nodup_append.1 hnd).1
          exact (List.nodup_cons.1 (List.nodup_append.1 has).2.1).1 hmem
        rw [if_neg hlast]
        rfl

end Links

end Ds4.Parts
