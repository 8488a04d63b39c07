import Mathlib.Tactic.Linarith

/-! The entry of a growing table that is nearest to a value, found by halving; of two that are as
near, the even one. -/
namespace Ds4.Parts

section Search
variable {α : Type} [LinearOrder α] (value : ℕ → α) (x : α)

/-- The last entry from `lo` to `hi` that is not beyond `x`, if that at `lo` is not. -/
def searchLast (lo hi : ℕ) : ℕ :=
  if lo < hi then
    let mid := (lo + hi + 1) / 2
    if value mid ≤ x then searchLast mid hi else searchLast lo (mid - 1)
  else lo
termination_by hi - lo
decreasing_by all_goals omega

variable {value x} {lo hi mid : ℕ}

theorem searchLast_self (lo : ℕ) : searchLast value x lo lo = lo := by
  rw [searchLast, if_neg (lt_irrefl lo)]

/-- The half below the middle. -/
theorem searchLast_below (hlt : lo < hi) (hmid : (lo + hi + 1) / 2 = mid) (h : x < value mid) :
    searchLast value x lo hi = searchLast value x lo (mid - 1) := by
  subst hmid
  rw [searchLast, if_pos hlt, if_neg (not_le.2 h)]

/-- The half from the middle on. -/
theorem searchLast_from (hlt : lo < hi) (hmid : (lo + hi + 1) / 2 = mid) (h : value mid ≤ x) :
    searchLast value x lo hi = searchLast value x mid hi := by
  subst hmid
  rw [searchLast, if_pos hlt, if_pos h]

/-- Only the entries behind `lo` are looked at. -/
theorem searchLast_congr {value' : ℕ → α} (h : ∀ j, lo < j → j ≤ hi → value j = value' j) :
    searchLast value x lo hi = searchLast value' x lo hi := by
  fun_induction searchLast value x lo hi with
  | case1 lo hi hlt mid hmid ih =>
    have hsame : value mid = value' mid := h mid (by omega) (by omega)
    rw [ih fun j hj => h j (by omega), searchLast_from hlt rfl (hsame ▸ hmid)]
  | case2 lo hi hlt mid hmid ih =>
    have hsame : value mid = value' mid := h mid (by omega) (by omega)
    rw [ih fun j hj hjhi => h j hj (by omega), searchLast_below hlt rfl (hsame ▸ not_le.1 hmid)]
  | case3 lo hi hlt => rw [searchLast, if_neg hlt]

theorem searchLast_le (hle : lo ≤ hi) : searchLast value x lo hi ≤ hi := by
  fun_induction searchLast value x lo hi with
  | case1 lo hi hlt mid hmid ih => exact ih (by omega)
  | case2 lo hi hlt mid hmid ih => exact (ih (by omega)).trans (by omega)
  | case3 lo hi hlt => exact hle

/-- The halves keep what is known of the ends: `lo` is not beyond, and all behind `hi` is. -/
theorem searchLast_spec {top : ℕ}
    (hmono : ∀ i j, lo ≤ i → i < j → j ≤ top → value i < value j) (hle : lo ≤ hi) (htop : hi ≤ top)
    (hlo : value lo ≤ x) (hhi : ∀ j, hi < j → j ≤ top → x < value j) :
    lo ≤ searchLast value x lo hi ∧ searchLast value x lo hi ≤ hi ∧
      value (searchLast value x lo hi) ≤ x ∧
        ∀ j, searchLast value x lo hi < j → j ≤ top → x < value j := by
  fun_induction searchLast value x lo hi with
  | case1 lo hi hlt mid hmid ih =>
    obtain ⟨hstart, hrest⟩ := ih (fun i j hi => hmono i j (by omega)) (by omega) htop hmid hhi
    exact ⟨by omega, hrest⟩
  | case2 lo hi hlt mid hmid ih =>
    have hbeyond : ∀ j, mid - 1 < j → j ≤ top → x < value j := by
      intro j hj hjtop
      rcases (show mid ≤ j by omega).eq_or_lt with rfl | hmore
      · exact not_le.1 hmid
      · exact (not_le.1 hmid).trans (hmono mid j (by omega) hmore hjtop)
    obtain ⟨hstart, hend, hrest⟩ := ih hmono (by omega) (by omega) hlo hbeyond
    exact ⟨hstart, hend.trans (by omega), hrest⟩
  | case3 lo hi hlt =>
    obtain rfl : lo = hi := by omega
    exact ⟨le_rfl, le_rfl, hlo, hhi⟩

end Search

section Nearest
variable {α : Type} [AddCommGroup α] [LinearOrder α] [IsOrderedAddMonoid α]

/-- The nearest entry of a table of which `top` is the last. -/
def nearestEntry (value : ℕ → α) (top : ℕ) (x : α) : ℕ :=
  let best := searchLast value x 0 top
  if best < top then
    let bestDiff := |x - value best|
    let nextDiff := |x - value (best + 1)|
    if nextDiff < bestDiff ∨ (nextDiff = bestDiff ∧ (best + 1) % 2 = 0 ∧ best % 2 ≠ 0) then best + 1
    else best
  else best

/-- What is meant by the nearest, and by ties to even. -/
structure IsNearest (value : ℕ → α) (top : ℕ) (x : α) (k : ℕ) : Prop where
  le_top : k ≤ top
  nearest : ∀ j ≤ top, |x - value k| ≤ |x - value j|
  even : ∀ j ≤ top, |x - value j| = |x - value k| → j ≠ k → k % 2 = 0

variable {value : ℕ → α} {top : ℕ} {x : α}

/-- Below the value the distance falls with the entries. -/
theorem dist_lt_of_le {i j : ℕ} (hij : value i < value j) (hj : value j ≤ x) :
    |x - value j| < |x - value i| := by
  rw [abs_of_nonneg (sub_nonneg.2 hj), abs_of_nonneg (sub_nonneg.2 (hij.le.trans hj))]
  exact sub_lt_sub_left hij x

/-- Above the value it grows. -/
theorem dist_lt_of_ge {i j : ℕ} (hij : value i < value j) (hi : x ≤ value i) :
    |x - value i| < |x - value j| := by
  rw [abs_sub_comm, abs_sub_comm x, abs_of_nonneg (sub_nonneg.2 hi),
    abs_of_nonneg (sub_nonneg.2 (hi.trans hij.le))]
  exact sub_lt_sub_right hij x

/-- The entry that the search leaves, and what is known of the table on both of its sides. -/
theorem nearestEntry_spec (hmono : ∀ i j, i < j → j ≤ top → value i < value j)
    (hzero : value 0 ≤ x) : IsNearest value top x (nearestEntry value top x) := by
  obtain ⟨-, htop, hbest, hafter⟩ := searchLast_spec (fun i j _ => hmono i j) (Nat.zero_le top)
    le_rfl hzero fun j hj hjtop => absurd hjtop (by omega)
  unfold nearestEntry
  generalize searchLast value x 0 top = best at htop hbest hafter ⊢
  have hbelow : ∀ j < best, |x - value best| < |x - value j| := fun j hj =>
    dist_lt_of_le (hmono j best hj htop) hbest
  have habove : ∀ j, best + 1 < j → j ≤ top → |x - value (best + 1)| < |x - value j| :=
    fun j hj hjtop => dist_lt_of_ge (hmono _ j hj hjtop)
      (hafter (best + 1) (Nat.lt_succ_self best) (by omega)).le
  dsimp only
  split_ifs with hlt hnext
  · -- the next entry: nearer, or as near and even
    have hle : |x - value (best + 1)| ≤ |x - value best| := hnext.elim le_of_lt fun h => h.1.le
    refine ⟨hlt, fun j hj => ?_, fun j hj heq hne => ?_⟩
    · rcases lt_trichotomy j best with hjlt | rfl | hjgt
      · exact hle.trans (hbelow j hjlt).le
      · exact hle
      · rcases (show best + 1 ≤ j by omega).eq_or_lt with rfl | hmore
        · exact le_rfl
        · exact (habove j hmore hj).le
    · rcases lt_trichotomy j best with hjlt | rfl | hjgt
      · exact absurd heq (hle.trans_lt (hbelow j hjlt)).ne'
      · exact hnext.elim (fun h => absurd heq h.ne') fun h => h.2.1
      · exact absurd heq (habove j (by omega) hj).ne'
  · -- the entry itself: no farther than the next, and even where it is as far
    push Not at hnext
    obtain ⟨hle, htie⟩ := hnext
    refine ⟨htop, fun j hj => ?_, fun j hj heq hne => ?_⟩
    · rcases lt_trichotomy j best with hjlt | rfl | hjgt
      · exact (hbelow j hjlt).le
      · exact le_rfl
      · rcases (show best + 1 ≤ j by omega).eq_or_lt with rfl | hmore
        · exact hle
        · exact hle.trans (habove j hmore hj).le
    · rcases lt_trichotomy j best with hjlt | rfl | hjgt
      · exact absurd heq (hbelow j hjlt).ne'
      · exact absurd rfl hne
      · rcases (show best + 1 ≤ j by omega).eq_or_lt with rfl | hmore
        · have := htie heq
          omega
        · exact absurd heq (hle.trans_lt (habove j hmore hj)).ne'
  · -- the last entry
    obtain rfl : best = top := by omega
    refine ⟨le_rfl, fun j hj => ?_, fun j hj heq hne => ?_⟩
    · rcases hj.eq_or_lt with rfl | hjlt
      · exact le_rfl
      · exact (hbelow j hjlt).le
    · exact absurd heq (hbelow j (lt_of_le_of_ne hj hne)).ne'

/-- A value of the table is its own nearest. -/
theorem nearestEntry_value (hmono : ∀ i j, i < j → j ≤ top → value i < value j) {k : ℕ}
    (hk : k ≤ top) : nearestEntry value top (value k) = k := by
  have hzero : value 0 ≤ value k := by
    rcases Nat.eq_zero_or_pos k with rfl | hpos
    · exact le_rfl
    · exact (hmono 0 k hpos hk).le
  obtain ⟨htop, hnearest, -⟩ := nearestEntry_spec hmono hzero
  have hdist := hnearest k hk
  rw [sub_self, abs_zero] at hdist
  have heq := sub_eq_zero.1 (abs_eq_zero.1 (le_antisymm hdist (abs_nonneg _)))
  rcases lt_trichotomy (nearestEntry value top (value k)) k with hlt | hsame | hgt
  · exact absurd heq (hmono _ _ hlt hk).ne'
  · exact hsame
  · exact absurd heq (hmono _ _ hgt htop).ne

/-- What is not below an entry is not brought below it. -/
theorem le_value_nearestEntry (hmono : ∀ i j, i < j → j ≤ top → value i < value j) {k : ℕ}
    (hk : k ≤ top) (hx : value k ≤ x) : k ≤ nearestEntry value top x := by
  have hzero : value 0 ≤ x := by
    rcases Nat.eq_zero_or_pos k with rfl | hpos
    · exact hx
    · exact (hmono 0 k hpos hk).le.trans hx
  by_contra hlt
  have hnear := (nearestEntry_spec hmono hzero).nearest k hk
  exact absurd (dist_lt_of_le (hmono _ k (not_le.1 hlt) hk) hx) (not_lt.2 hnear)

omit [IsOrderedAddMonoid α] in
theorem nearestEntry_le : nearestEntry value top x ≤ top := by
  have hend : searchLast value x 0 top ≤ top := searchLast_le (Nat.zero_le top)
  unfold nearestEntry
  dsimp only
  split_ifs with hlt hnext
  · exact hlt
  · exact hend
  · exact hend

omit [IsOrderedAddMonoid α] in
/-- A search that stops at one entry in two tables, with that and the next entry the same. -/
theorem nearestEntry_congr {value' : ℕ → α}
    (hsearch : searchLast value x 0 top = searchLast value' x 0 top)
    (hbest : value (searchLast value x 0 top) = value' (searchLast value x 0 top))
    (hnext : searchLast value x 0 top < top →
      value (searchLast value x 0 top + 1) = value' (searchLast value x 0 top + 1)) :
    nearestEntry value top x = nearestEntry value' top x := by
  unfold nearestEntry
  rw [← hsearch]
  dsimp only
  by_cases hlt : searchLast value x 0 top < top
  · rw [if_pos hlt, if_pos hlt, hbest, hnext hlt]
  · rw [if_neg hlt, if_neg hlt]

end Nearest

section Midpoints
variable {α : Type} [Field α] [LinearOrder α] [IsStrictOrderedRing α]
variable {value : ℕ → α} {top : ℕ} {x : α}

theorem dist_le_iff {a b : α} (hab : a < b) : |x - a| ≤ |x - b| ↔ x + x ≤ a + b := by
  rcases le_total x a with hxa | hax
  · rw [abs_sub_comm, abs_sub_comm x, abs_of_nonneg (by linarith), abs_of_nonneg (by linarith)]
    exact ⟨fun _ => by linarith, fun _ => by linarith⟩
  · rw [abs_of_nonneg (sub_nonneg.2 hax)]
    rcases le_total x b with hxb | hbx
    · rw [abs_sub_comm, abs_of_nonneg (sub_nonneg.2 hxb)]
      exact ⟨fun h => by linarith, fun h => by linarith⟩
    · rw [abs_of_nonneg (sub_nonneg.2 hbx)]
      exact ⟨fun h => by linarith, fun h => by linarith⟩

theorem dist_ge_iff {a b : α} (hab : a < b) : |x - b| ≤ |x - a| ↔ a + b ≤ x + x := by
  have hneg := dist_le_iff (x := -x) (neg_lt_neg hab)
  have hb : |-x - -b| = |x - b| := by rw [neg_sub_neg, abs_sub_comm]
  have ha : |-x - -a| = |x - a| := by rw [neg_sub_neg, abs_sub_comm]
  rw [hb, ha] at hneg
  rw [hneg]
  exact ⟨fun h => by linarith, fun h => by linarith⟩

theorem dist_eq_iff {a b : α} (hab : a < b) : |x - a| = |x - b| ↔ x + x = a + b := by
  rw [le_antisymm_iff, le_antisymm_iff, dist_le_iff hab, dist_ge_iff hab]

/-- The nearest entry reaches to the midpoints on both sides, and has them where it is even. -/
theorem isNearest_iff (hmono : ∀ i j, i < j → j ≤ top → value i < value j) {k : ℕ} :
    IsNearest value top x k ↔ k ≤ top ∧
      (∀ j, j + 1 = k → value j + value k ≤ x + x ∧ (x + x = value j + value k → k % 2 = 0)) ∧
      (k < top → x + x ≤ value k + value (k + 1) ∧
        (x + x = value k + value (k + 1) → k % 2 = 0)) := by
  constructor
  · rintro ⟨htop, hnearest, heven⟩
    refine ⟨htop, ?_, fun hlt => ?_⟩
    · rintro j rfl
      have hstep := hmono j (j + 1) (Nat.lt_succ_self j) htop
      exact ⟨(dist_ge_iff hstep).1 (hnearest j (by omega)),
        fun heq => heven j (by omega) ((dist_eq_iff hstep).2 heq) (by omega)⟩
    · have hstep := hmono k (k + 1) (Nat.lt_succ_self k) hlt
      exact ⟨(dist_le_iff hstep).1 (hnearest (k + 1) hlt),
        fun heq => heven (k + 1) hlt ((dist_eq_iff hstep).2 heq).symm (by omega)⟩
  · rintro ⟨htop, hbefore, hafter⟩
    -- the other entries are no nearer than the one beside them
    have hbelow : ∀ j < k, |x - value k| ≤ |x - value j| ∧
        (|x - value j| = |x - value k| → k % 2 = 0) := by
      intro j hj
      obtain ⟨i, rfl⟩ : ∃ i, k = i + 1 := ⟨k - 1, by omega⟩
      obtain ⟨hmid, htie⟩ := hbefore i rfl
      have hstep := hmono i (i + 1) (Nat.lt_succ_self i) htop
      have hji := hmono j (i + 1) hj htop
      have hle : value j ≤ value i := by
        rcases (Nat.lt_succ_iff.1 hj).eq_or_lt with rfl | hlt
        · exact le_rfl
        · exact (hmono j i hlt (by omega)).le
      rw [dist_ge_iff hji, dist_eq_iff hji]
      exact ⟨by linarith, fun heq => htie (by linarith)⟩
    have habove : ∀ j, k < j → j ≤ top → |x - value k| ≤ |x - value j| ∧
        (|x - value j| = |x - value k| → k % 2 = 0) := by
      intro j hj hjtop
      obtain ⟨hmid, htie⟩ := hafter (by omega)
      have hkj := hmono k j hj hjtop
      have hle : value (k + 1) ≤ value j := by
        rcases (Nat.succ_le_of_lt hj).eq_or_lt with rfl | hlt
        · exact le_rfl
        · exact (hmono (k + 1) j hlt hjtop).le
      rw [dist_le_iff hkj, eq_comm, dist_eq_iff hkj]
      exact ⟨by linarith, fun heq => htie (by linarith)⟩
    refine ⟨htop, fun j hj => ?_, fun j hj heq hne => ?_⟩
    · rcases lt_trichotomy j k with hlt | rfl | hgt
      · exact (hbelow j hlt).1
      · exact le_rfl
      · exact (habove j hgt hj).1
    · rcases lt_trichotomy j k with hlt | rfl | hgt
      · exact (hbelow j hlt).2 heq
      · exact absurd rfl hne
      · exact (habove j hgt hj).2 heq

/-- No value has two nearest entries. -/
theorem IsNearest.unique (hmono : ∀ i j, i < j → j ≤ top → value i < value j) {k k' : ℕ}
    (h : IsNearest value top x k) (h' : IsNearest value top x k') : k = k' := by
  have horder : ∀ {k k' : ℕ}, IsNearest value top x k → IsNearest value top x k' → ¬ k < k' := by
    intro k k' h h' hlt
    have hle := h.nearest k' h'.le_top
    have hge := h'.nearest k h.le_top
    have hk := h.even k' h'.le_top (le_antisymm hge hle) hlt.ne'
    have hk' := h'.even k h.le_top (le_antisymm hle hge) hlt.ne
    -- the two are even, so there is one between them, which is nearer
    have hbetween : k + 1 < k' := by omega
    have hmid := (dist_ge_iff (hmono k k' hlt h'.le_top)).1 hge
    have hnext := (dist_le_iff (hmono k (k + 1) (Nat.lt_succ_self k)
      (by have := h'.le_top; omega))).1 (h.nearest (k + 1) (by have := h'.le_top; omega))
    have hgrow := hmono (k + 1) k' hbetween h'.le_top
    linarith
  rcases lt_trichotomy k k' with hlt | heq | hgt
  · exact absurd hlt (horder h h')
  · exact heq
  · exact absurd hgt (horder h' h)

end Midpoints

end Ds4.Parts
