import Mathlib.Data.List.Induction
import Mathlib.Data.List.Sort
import Mathlib.Data.List.TakeWhile

/-! Arrays of `k` cells that keep the first `k` of the items they have seen: an item is placed in
front of the first cell that it goes before, and the last cell is dropped. -/
namespace Ds4.Parts

section Arrays
variable {α β : Type}

/-- The loop `for j = i + n, …, i + 1: a[j] = a[j - 1]`. -/
def shiftDown (a : ℕ → α) (i : ℕ) : ℕ → ℕ → α
  | 0 => a
  | n + 1 => shiftDown (Function.update a (i + n + 1) (a (i + n))) i n

/-- The cells from `i` on move down by one, and `x` takes the place of `i`. -/
def place (k : ℕ) (a : ℕ → α) (i : ℕ) (x : α) : ℕ → α :=
  Function.update (shiftDown a i (k - 1 - i)) i x

/-- The first of the `k` cells in front of which an item goes, if there is one. -/
def placeFirst (k : ℕ) (goes : ℕ → Bool) : Option ℕ := (List.range k).find? goes

/-- The items one after the other, each in front of the first cell that it goes before. -/
def insertAll (k : ℕ) (goes : α → α → Bool) (a : ℕ → α) (xs : List α) : ℕ → α :=
  xs.foldl (fun a x => match placeFirst k fun i => goes x (a i) with
    | none => a
    | some i => place k a i x) a

def cells (k : ℕ) (a : ℕ → α) : List α := (List.range k).map a

theorem shiftDown_apply (a : ℕ → α) (i n j : ℕ) :
    shiftDown a i n j = if i < j ∧ j ≤ i + n then a (j - 1) else a j := by
  induction n generalizing a with
  | zero =>
    rw [if_neg (by omega)]
    rfl
  | succ n ih =>
    rw [shiftDown, ih]
    by_cases hlast : j = i + n + 1
    · rw [if_neg (by omega), if_pos (by omega), hlast, Function.update_self]
      rfl
    · by_cases hin : i < j ∧ j ≤ i + n
      · rw [if_pos hin, if_pos (by omega), Function.update_of_ne (by omega)]
      · rw [if_neg hin, if_neg (by omega), Function.update_of_ne hlast]

theorem place_apply {k i : ℕ} (hi : i < k) (a : ℕ → α) (x : α) {j : ℕ} (hj : j < k) :
    place k a i x j = if j < i then a j else if j = i then x else a (j - 1) := by
  unfold place
  by_cases hsame : j = i
  · rw [if_neg (by omega), if_pos hsame, hsame, Function.update_self]
  · rw [Function.update_of_ne hsame, shiftDown_apply]
    by_cases hlow : j < i
    · rw [if_neg (by omega), if_pos hlow]
    · rw [if_pos (by omega), if_neg hlow, if_neg hsame]

/-- Parallel arrays stay aligned. -/
theorem place_pair (k i : ℕ) (a : ℕ → α) (b : ℕ → β) (x : α) (y : β) :
    (fun j => (place k a i x j, place k b i y j)) = place k (fun j => (a j, b j)) i (x, y) := by
  funext j
  unfold place
  by_cases hsame : j = i
  · rw [hsame, Function.update_self, Function.update_self, Function.update_self]
  · rw [Function.update_of_ne hsame, Function.update_of_ne hsame, Function.update_of_ne hsame,
      shiftDown_apply, shiftDown_apply, shiftDown_apply]
    split_ifs <;> rfl

theorem length_cells (k : ℕ) (a : ℕ → α) : (cells k a).length = k := by
  rw [cells, List.length_map, List.length_range]

theorem cells_place {k i : ℕ} (hi : i < k) (a : ℕ → α) (x : α) :
    cells k (place k a i x) = ((cells k a).take i ++ x :: (cells k a).drop i).take k := by
  apply List.ext_getElem
  · simp only [length_cells, List.length_take, List.length_append, List.length_cons,
      List.length_drop]
    omega
  · intro j hj _
    rw [length_cells] at hj
    have hcell : ∀ (n : ℕ) (h : n < (cells k a).length), (cells k a)[n] = a n := by
      intro n h
      simp only [cells, List.getElem_map, List.getElem_range]
    have htake : ((cells k a).take i).length = i := by
      rw [List.length_take, length_cells]
      omega
    rw [List.getElem_take]
    simp only [cells, List.getElem_map, List.getElem_range]
    rw [place_apply hi a x hj]
    split_ifs with hlow hsame
    · rw [List.getElem_append_left
        (by rw [List.length_take, List.length_map, List.length_range]; omega)]
      simp only [List.getElem_take, List.getElem_map, List.getElem_range]
    · subst hsame
      rw [List.getElem_append_right
        (by rw [List.length_take, List.length_map, List.length_range]; omega)]
      simp [List.length_take, Nat.min_eq_left hi.le]
    · rw [List.getElem_append_right
        (by rw [List.length_take, List.length_map, List.length_range]; omega)]
      have hsub : j - i = (j - 1 - i) + 1 := by omega
      simp only [List.length_take, List.length_map, List.length_range, Nat.min_eq_left hi.le, hsub,
        List.getElem_cons_succ, List.getElem_drop, List.getElem_map, List.getElem_range]
      congr 1
      omega

end Arrays

section Bounded
variable {α : Type} (r : α → α → Prop) [DecidableRel r]

/-- The first `k` of some items, in the order `r`. -/
def firstK (k : ℕ) (xs : List α) : List α :=
  (xs.foldl (fun l x => l.orderedInsert r x) []).take k

/-- The list with copies of `pad` behind it, `k` items in all. -/
def padded (k : ℕ) (pad : α) (l : List α) : List α := l ++ List.replicate (k - l.length) pad

variable {r}

theorem length_foldl_insert (l xs : List α) :
    (xs.foldl (fun l x => l.orderedInsert r x) l).length = l.length + xs.length := by
  induction xs generalizing l with
  | nil => rfl
  | cons x xs ih =>
    rw [List.foldl_cons, ih, List.orderedInsert_length, List.length_cons]
    omega

theorem length_firstK (k : ℕ) (xs : List α) : (firstK r k xs).length = min k xs.length := by
  rw [firstK, List.length_take, length_foldl_insert, List.length_nil, Nat.zero_add]

/-- An item is inserted among the first `k` as it is among all. -/
theorem take_orderedInsert (k : ℕ) (x : α) (l : List α) :
    ((l.take k).orderedInsert r x).take k = (l.orderedInsert r x).take k := by
  induction l generalizing k with
  | nil => rw [List.take_nil]
  | cons y l ih =>
    cases k with
    | zero => rw [List.take_zero, List.take_zero]
    | succ k =>
      rw [List.take_succ_cons]
      by_cases hxy : r x y
      · rw [List.orderedInsert_cons_of_le _ _ hxy, List.orderedInsert_cons_of_le _ _ hxy,
          List.take_succ_cons, List.take_succ_cons]
        cases k with
        | zero => rw [List.take_zero, List.take_zero]
        | succ k =>
          rw [List.take_succ_cons, List.take_succ_cons, List.take_take,
            Nat.min_eq_left (Nat.le_succ k)]
      · rw [List.orderedInsert_of_not_le _ _ hxy, List.orderedInsert_of_not_le _ _ hxy,
          List.take_succ_cons, List.take_succ_cons, ih]

theorem firstK_snoc (k : ℕ) (xs : List α) (x : α) :
    firstK r k (xs ++ [x]) = ((firstK r k xs).orderedInsert r x).take k := by
  rw [firstK, firstK, List.foldl_append, take_orderedInsert]
  rfl

theorem firstK_perm (xs : List α) :
    (xs.foldl (fun l x => l.orderedInsert r x) []).Perm xs := by
  have hgen : ∀ l : List α, (xs.foldl (fun l x => l.orderedInsert r x) l).Perm (xs ++ l) := by
    induction xs with
    | nil => exact fun l => List.Perm.refl l
    | cons x xs ih =>
      intro l
      refine (ih _).trans ?_
      rw [List.cons_append]
      exact ((List.perm_orderedInsert r x l).append_left xs).trans List.perm_middle
  have h := hgen []
  rwa [List.append_nil] at h

theorem firstK_sorted [Std.Total r] [IsTrans α r] (xs : List α) :
    (xs.foldl (fun l x => l.orderedInsert r x) []).Pairwise r := by
  have hgen : ∀ l : List α, l.Pairwise r →
      (xs.foldl (fun l x => l.orderedInsert r x) l).Pairwise r := by
    induction xs with
    | nil => exact fun l h => h
    | cons x xs ih => exact fun l h => ih _ (h.orderedInsert x l)
  exact hgen [] List.Pairwise.nil

/-- What the first `k` are: sorted, and before every other item. -/
theorem firstK_spec [Std.Total r] [IsTrans α r] (k : ℕ) (xs : List α) :
    ∃ rest, (firstK r k xs ++ rest).Perm xs ∧ (firstK r k xs).Pairwise r ∧
      ∀ x ∈ firstK r k xs, ∀ y ∈ rest, r x y := by
  have hsorted := firstK_sorted (r := r) xs
  rw [← List.take_append_drop k (xs.foldl (fun l x => l.orderedInsert r x) [])] at hsorted
  obtain ⟨hfirst, -, hrest⟩ := List.pairwise_append.1 hsorted
  refine ⟨(xs.foldl (fun l x => l.orderedInsert r x) []).drop k, ?_, hfirst,
    fun x hx y hy => hrest x hx y hy⟩
  rw [firstK, List.take_append_drop]
  exact firstK_perm xs

theorem padded_cell {k : ℕ} {pad : α} {l : List α} {a : ℕ → α}
    (hcells : cells k a = padded k pad l) {j : ℕ} (hj : j < k) :
    a j = if h : j < l.length then l[j] else pad := by
  have hlt : j < (padded k pad l).length := by
    rw [← hcells, length_cells]
    exact hj
  have hget : a j = (padded k pad l)[j] := by
    simp only [← hcells, cells, List.getElem_map, List.getElem_range]
  rw [hget]
  split_ifs with h
  · exact List.getElem_append_left h
  · simp only [padded, List.getElem_append_right (Nat.not_lt.1 h), List.getElem_replicate]

/-- An item that is placed in front of the first cell it goes before is inserted in the list that
the cells hold. -/
theorem cells_insert {k : ℕ} {pad x : α} {l : List α} {a : ℕ → α} {goes : α → Bool}
    (hcells : cells k a = padded k pad l) (hlen : l.length ≤ k) (hpad : goes pad = true)
    (hgoes : ∀ y ∈ l, goes y = true ↔ r x y) :
    cells k (match placeFirst k (fun i => goes (a i)) with
      | none => a
      | some i => place k a i x) = padded k pad ((l.orderedInsert r x).take k) := by
  obtain ⟨pre, post, hl, hpre, hpost⟩ : ∃ pre post, l = pre ++ post ∧ (∀ y ∈ pre, ¬ r x y) ∧
      ∀ y ∈ post.head?, r x y := by
    refine ⟨l.takeWhile fun y => ¬ r x y, l.dropWhile fun y => ¬ r x y,
      (List.takeWhile_append_dropWhile).symm, ?_, ?_⟩
    · intro y hy
      simpa using List.mem_takeWhile_imp hy
    · intro y hy
      have hno := List.head?_dropWhile_not (fun y => decide (¬ r x y)) l
      rw [Option.mem_def.1 hy] at hno
      simpa using hno
  have hinsert : l.orderedInsert r x = pre ++ x :: post := by
    subst hl
    clear hlen hgoes hcells
    induction pre with
    | nil =>
      cases post with
      | nil => rfl
      | cons y post => exact List.orderedInsert_cons_of_le _ _ (hpost y rfl)
    | cons y pre ih =>
      rw [List.cons_append, List.orderedInsert_of_not_le _ _ (hpre y List.mem_cons_self),
        ih fun z hz => hpre z (List.mem_cons_of_mem y hz), List.cons_append]
  have hbefore : ∀ j, j < pre.length → goes (a j) = false := by
    intro j hj
    have hjl : j < l.length := by
      rw [hl, List.length_append]
      omega
    have hmem : l[j] ∈ pre := by
      simp only [hl, List.getElem_append_left hj, List.getElem_mem]
    rw [padded_cell hcells (by omega), dif_pos hjl, ← Bool.not_eq_true]
    rw [hgoes _ (List.getElem_mem hjl)]
    exact hpre _ hmem
  by_cases hfull : pre.length < k
  · have hat : goes (a pre.length) = true := by
      rw [padded_cell hcells hfull]
      split_ifs with h
      · rw [hgoes _ (List.getElem_mem h)]
        apply hpost
        rw [hl, List.length_append] at h
        simp only [hl, List.getElem_append_right (le_refl _), Nat.sub_self]
        exact List.head?_eq_getElem?.trans (List.getElem?_eq_getElem (by omega))
      · exact hpad
    have hfind : placeFirst k (fun i => goes (a i)) = some pre.length :=
      List.find?_range_eq_some.2 ⟨hat, List.mem_range.2 hfull,
        fun j hj => by rw [hbefore j hj]; rfl⟩
    rw [hfind, hinsert]
    simp only
    have hall : padded k pad l = pre ++ (post ++ List.replicate (k - l.length) pad) := by
      rw [padded, hl, List.append_assoc]
    rw [cells_place hfull, hcells, hall, List.take_left, List.drop_left, ← List.cons_append,
      ← List.append_assoc, List.take_append, List.take_replicate, padded, List.length_take]
    congr 2
    rw [hl, List.length_append, List.length_append, List.length_cons]
    omega
  · have hpost' : post = [] := by
      rw [← List.length_eq_zero_iff]
      rw [hl, List.length_append] at hlen
      omega
    have hfind : placeFirst k (fun i => goes (a i)) = none :=
      List.find?_range_eq_none.2 fun j hj => by rw [hbefore j (by omega)]; rfl
    rw [hfind, hinsert, hpost']
    simp only
    rw [hcells, hl, hpost', List.append_nil, List.take_append_of_le_length (by omega),
      List.take_of_length_le]
    rw [hl, List.length_append] at hlen
    omega

/-- The cells hold the first `k` of the items they have seen. -/
theorem cells_insertAll {k : ℕ} {pad : α} {goes : α → α → Bool} {xs : List α}
    (hpad : ∀ x ∈ xs, goes x pad = true)
    (hgoes : xs.Pairwise fun y x => goes x y = true ↔ r x y) :
    cells k (insertAll k goes (fun _ => pad) xs) = padded k pad (firstK r k xs) := by
  induction xs using List.reverseRecOn with
  | nil =>
    show cells k (fun _ => pad) = [].take k ++ List.replicate (k - ([].take k).length) pad
    rw [List.take_nil, List.nil_append, List.length_nil, Nat.sub_zero, cells, List.map_const',
      List.length_range]
  | append_singleton xs x ih =>
    rw [List.pairwise_append] at hgoes
    have hcells := ih (fun y hy => hpad y (List.mem_append_left _ hy)) hgoes.1
    have hlen : (firstK r k xs).length ≤ k := by
      rw [length_firstK]
      exact Nat.min_le_left _ _
    have hmem : ∀ y ∈ firstK r k xs, goes x y = true ↔ r x y := by
      intro y hy
      have hy' := (firstK_perm xs).mem_iff.1 (List.mem_of_mem_take hy)
      exact hgoes.2.2 y hy' x (List.mem_singleton_self x)
    have hstep := cells_insert hcells hlen (hpad x (List.mem_append_right _ (by simp))) hmem
    rw [firstK_snoc, ← hstep, insertAll, List.foldl_append]
    rfl

/-- The cells of an array that holds the first `k` of some items: behind the last item the cells
are as they were. -/
structure HoldsFirst (r : α → α → Prop) (k : ℕ) (pad : α) (xs : List α) (a : ℕ → α) : Prop where
  mem : ∀ j < min k xs.length, a j ∈ xs
  distinct : ∀ i < min k xs.length, ∀ j < min k xs.length, a i = a j → i = j
  sorted : ∀ i j, i < j → j < min k xs.length → r (a i) (a j)
  ahead : ∀ x ∈ xs, (∀ j < min k xs.length, a j ≠ x) → ∀ j < min k xs.length, r (a j) x
  rest : ∀ j < k, min k xs.length ≤ j → a j = pad

theorem insertAll_holdsFirst [Std.Total r] [IsTrans α r] {k : ℕ} {pad : α} {goes : α → α → Bool}
    {xs : List α} (hpad : ∀ x ∈ xs, goes x pad = true)
    (hgoes : xs.Pairwise fun y x => goes x y = true ↔ r x y) (hnodup : xs.Nodup) :
    HoldsFirst r k pad xs (insertAll k goes (fun _ => pad) xs) := by
  obtain ⟨rest, hperm, hsorted, hrest⟩ := firstK_spec (r := r) k xs
  have hcells := cells_insertAll (k := k) hpad hgoes
  have hlen := length_firstK (r := r) k xs
  revert hperm hsorted hrest hcells hlen
  generalize firstK r k xs = firsts
  generalize insertAll k goes (fun _ => pad) xs = a
  intro hperm hsorted hrest hcells hlen
  have hcell : ∀ j (hj : j < min k xs.length), a j = firsts.get ⟨j, hlen ▸ hj⟩ := by
    intro j hj
    rw [padded_cell hcells (hj.trans_le (Nat.min_le_left _ _)), dif_pos (hlen ▸ hj)]
    rfl
  have hnodup' := (hperm.nodup_iff.2 hnodup).of_append_left
  refine ⟨fun j hj => ?_, fun i hi j hj hij => ?_, fun i j hij hj => ?_, fun x hx hnone j hj => ?_,
    fun j hjk hj => ?_⟩
  · rw [hcell j hj]
    exact hperm.mem_iff.1 (List.mem_append_left _ (List.getElem_mem _))
  · rw [hcell i hi, hcell j hj] at hij
    exact (List.Nodup.getElem_inj_iff hnodup').1 hij
  · rw [hcell i (hij.trans hj), hcell j hj]
    exact List.pairwise_iff_getElem.1 hsorted i j _ _ hij
  · have hout : x ∉ firsts := by
      intro hin
      obtain ⟨i, hi, rfl⟩ := List.getElem_of_mem hin
      exact hnone i (hlen ▸ hi) (hcell i (hlen ▸ hi))
    have hin := (List.mem_append.1 (hperm.mem_iff.2 hx)).resolve_left hout
    rw [hcell j hj]
    exact hrest _ (List.getElem_mem _) x hin
  · rw [padded_cell hcells hjk, dif_neg (by omega)]

end Bounded

section Keys
variable {α κ ι : Type} [LinearOrder κ] [LinearOrder ι] (key : α → κ) (id : α → ι)

/-- The greater key is first, and the lower name of two equal ones. -/
def Ahead (x y : α) : Prop := key y < key x ∨ key y = key x ∧ id x ≤ id y

instance : DecidableRel (Ahead key id) := fun _ _ => inferInstanceAs (Decidable (_ ∨ _))

instance : Std.Total (Ahead key id) where
  total x y := by
    rcases lt_trichotomy (key x) (key y) with hlt | heq | hgt
    · exact Or.inr (Or.inl hlt)
    · rcases le_total (id x) (id y) with hle | hle
      · exact Or.inl (Or.inr ⟨heq.symm, hle⟩)
      · exact Or.inr (Or.inr ⟨heq, hle⟩)
    · exact Or.inl (Or.inl hgt)

instance : IsTrans α (Ahead key id) where
  trans x y z hxy hyz := by
    rcases hxy with hxy | ⟨hxy, hx⟩ <;> rcases hyz with hyz | ⟨hyz, hy⟩
    · exact Or.inl (hyz.trans hxy)
    · exact Or.inl (hyz ▸ hxy)
    · exact Or.inl (hxy ▸ hyz)
    · exact Or.inr ⟨hyz.trans hxy, hx.trans hy⟩

/-- A name behind all that stand already only goes in front of a lower key. -/
theorem ahead_later {x y : α} (h : id y < id x) : Ahead key id x y ↔ key y < key x := by
  unfold Ahead
  simp only [not_le.2 h, and_false, or_false]

/-- Between two names the order is strict. -/
theorem Ahead.strict {x y : α} (h : Ahead key id x y) (hne : id x ≠ id y) :
    key y < key x ∨ key y = key x ∧ id x < id y :=
  h.imp_right fun h => ⟨h.1, lt_of_le_of_ne h.2 hne⟩

end Keys

end Ds4.Parts
