import Ds4.Bytes.Search

/-! Guarding a delimiter: the head of every occurrence is replaced by other symbols, so
that the delimiter written behind the payload is the first one found. -/
namespace Ds4.Search

variable {α : Type*} [DecidableEq α]

def guarded (pat rep : List α) : List α → List α
  | [] => []
  | c :: s => if pat <+: c :: s then rep ++ guarded pat rep s else c :: guarded pat rep s

/-- The replacement shares no symbol with the delimiter where it matters. -/
structure GuardOk (pat rep : List α) : Prop where
  unique : HeadUnique pat
  fresh : ∀ r ∈ rep.head?, r ∉ pat
  nonempty : rep ≠ []
  head : ∀ c ∈ pat.head?, c ∉ rep

section Occurrences
variable {pat rep : List α}

/-- A text without the first symbol of the replacement is seen behind the guard only
where it was there before. -/
theorem prefix_of_prefix_guarded {t s : List α} (hn : rep ≠ []) (hr : ∀ r ∈ rep.head?, r ∉ t)
    (h : t <+: guarded pat rep s) : t <+: s := by
  induction s generalizing t with
  | nil => simpa [guarded] using h
  | cons c s ih =>
    cases t with
    | nil => exact List.nil_prefix
    | cons a t =>
      simp only [guarded] at h
      split_ifs at h with hp
      · cases rep with
        | nil => exact absurd rfl hn
        | cons r rep =>
          obtain ⟨rfl, -⟩ := List.cons_prefix_cons.mp h
          exact absurd (List.mem_cons_self) (hr a rfl)
      · obtain ⟨rfl, ht⟩ := List.cons_prefix_cons.mp h
        refine List.cons_prefix_cons.mpr ⟨rfl, ih (fun r hr' ha => ?_) ht⟩
        exact hr r hr' (List.mem_cons_of_mem _ ha)

/-- Symbols other than the delimiter's head pass unchanged. -/
theorem guarded_append_plain {x s : List α} (hx : ∀ c ∈ pat.head?, c ∉ x) (hp : pat ≠ []) :
    guarded pat rep (x ++ s) = x ++ guarded pat rep s := by
  induction x with
  | nil => rfl
  | cons a x ih =>
    have hne : ¬ pat <+: a :: (x ++ s) := by
      intro h
      cases pat with
      | nil => exact hp rfl
      | cons c p =>
        obtain ⟨rfl, -⟩ := List.cons_prefix_cons.mp h
        exact hx c rfl List.mem_cons_self
    simp only [List.cons_append, guarded, hne, ↓reduceIte]
    rw [ih fun c hc hm => hx c hc (List.mem_cons_of_mem _ hm)]

/-- The guarded text does not hold the delimiter. -/
theorem guarded_excludes (h : GuardOk pat rep) (s : List α) :
    ¬ pat <:+: guarded pat rep s := by
  induction s with
  | nil =>
    intro hi
    have := h.unique
    rw [guarded, List.infix_nil] at hi
    simp [hi, HeadUnique] at this
  | cons c s ih =>
    intro hi
    simp only [guarded] at hi
    split_ifs at hi with hp
    · obtain ⟨x, y, hxy⟩ := hi
      cases pat with
      | nil => exact h.unique
      | cons p pat =>
        have hlen : rep.length ≤ x.length := by
          by_contra hlt
          have hx : p ∈ rep := by
            have hg := congrArg (fun l => l[x.length]?) hxy
            simp only [List.append_assoc, List.getElem?_append_right (Nat.le_refl _),
              Nat.sub_self, List.cons_append, List.getElem?_cons_zero,
              List.getElem?_append_left (Nat.lt_of_not_le hlt)] at hg
            exact List.mem_of_getElem? hg.symm
          exact h.head p rfl hx
        have hd := congrArg (List.drop rep.length) hxy
        rw [List.drop_left, List.append_assoc, List.drop_append_of_le_length hlen] at hd
        exact ih ⟨x.drop rep.length, y, by rw [List.append_assoc, hd]⟩
    · rcases List.infix_cons_iff.mp hi with hpre | hin
      · cases pat with
        | nil => exact h.unique
        | cons p pat =>
          obtain ⟨rfl, ht⟩ := List.cons_prefix_cons.mp hpre
          refine hp (List.cons_prefix_cons.mpr ⟨rfl, prefix_of_prefix_guarded h.nonempty ?_ ht⟩)
          exact fun r hr hm => h.fresh r hr (List.mem_cons_of_mem _ hm)
      · exact ih hin

/-- The delimiter behind a guarded payload is the first one. -/
theorem find_guarded (h : GuardOk pat rep) (s y : List α) :
    find pat (guarded pat rep s ++ (pat ++ y)) = some (guarded pat rep s).length :=
  find_append h.unique (guarded_excludes h s)

/-- Behind a guarded payload the delimiter stands at the end alone. -/
theorem guarded_closed (h : GuardOk pat rep) {s x y : List α}
    (heq : guarded pat rep s ++ pat = x ++ (pat ++ y)) : x = guarded pat rep s ∧ y = [] := by
  have hfind := find_guarded h s []
  rw [List.append_nil] at hfind
  have hlen := congrArg List.length heq
  rw [List.length_append, List.length_append, List.length_append] at hlen
  have hnot : ¬ x.length < (guarded pat rep s).length := by
    intro hlt
    apply find_first hfind hlt
    rw [heq, List.drop_left]
    exact List.prefix_append pat y
  have hsame : (guarded pat rep s).length = x.length := by omega
  obtain ⟨rfl, hend⟩ := List.append_inj heq hsame
  refine ⟨rfl, ?_⟩
  have hrest := congrArg List.length hend
  rw [List.length_append] at hrest
  exact List.length_eq_zero_iff.1 (by omega)

end Occurrences

/-- `t` is `s` with some of the symbols `c` replaced by `rep`. -/
inductive Replaced (c : α) (rep : List α) : List α → List α → Prop
  | nil : Replaced c rep [] []
  | keep {a s t} : Replaced c rep s t → Replaced c rep (a :: s) (a :: t)
  | swap {s t} : Replaced c rep s t → Replaced c rep (c :: s) (rep ++ t)

section Replacement
variable {c : α} {rep : List α}

theorem replaced_guarded (p : List α) (s : List α) :
    Replaced c rep s (guarded (c :: p) rep s) := by
  induction s with
  | nil => exact .nil
  | cons a s ih =>
    simp only [guarded]
    split_ifs with hp
    · obtain ⟨rfl, -⟩ := List.cons_prefix_cons.mp hp
      exact .swap ih
    · exact .keep ih

omit [DecidableEq α] in
theorem Replaced.append_inv {s t u : List α} (h : Replaced c rep (s ++ t) u) :
    ∃ s' t', u = s' ++ t' ∧ Replaced c rep s s' ∧ Replaced c rep t t' := by
  induction s generalizing u with
  | nil => exact ⟨[], u, rfl, .nil, h⟩
  | cons a s ih =>
    cases h with
    | keep h =>
      obtain ⟨s', t', rfl, hs, ht⟩ := ih h
      exact ⟨a :: s', t', rfl, .keep hs, ht⟩
    | swap h =>
      obtain ⟨s', t', rfl, hs, ht⟩ := ih h
      exact ⟨rep ++ s', t', (List.append_assoc ..).symm, .swap hs, ht⟩

omit [DecidableEq α] in
theorem Replaced.cons_inv {a : α} {s u : List α} (h : Replaced c rep (a :: s) u) (ha : a ≠ c) :
    ∃ u', u = a :: u' ∧ Replaced c rep s u' := by
  cases h with
  | keep h => exact ⟨_, rfl, h⟩
  | swap h => exact absurd rfl ha

omit [DecidableEq α] in
theorem Replaced.eq_self {s u : List α} (h : Replaced c rep s u) (hs : c ∉ s) : u = s := by
  induction h with
  | nil => rfl
  | keep _ ih => rw [ih fun hm => hs (List.mem_cons_of_mem _ hm)]
  | swap => exact absurd List.mem_cons_self hs

omit [DecidableEq α] in
theorem Replaced.bracket_inv {a b : α} {s u : List α} (h : Replaced c rep (a :: (s ++ [b])) u)
    (ha : a ≠ c) (hb : b ≠ c) : ∃ t, u = a :: (t ++ [b]) ∧ Replaced c rep s t := by
  obtain ⟨v, rfl, hv⟩ := h.cons_inv ha
  obtain ⟨t, w, rfl, ht, hw⟩ := hv.append_inv
  obtain rfl := hw.eq_self (by simpa using Ne.symm hb)
  exact ⟨t, rfl, ht⟩

end Replacement

end Ds4.Search
