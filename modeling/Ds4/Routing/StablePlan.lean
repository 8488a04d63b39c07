import Ds4.Parts.Grouping
import Ds4.Parts.Rows
import Ds4.Routing.Planner
import Mathlib.Data.List.GetD

/-! The routes of a rank as a stable grouping of the chosen experts. -/
namespace Ds4.Routing

open Parts

/-- The entry chose an expert of the rank. -/
def Owned (selected : ℕ → ℤ) (rank i : ℕ) : Prop :=
  IsExpert (selected i) ∧ rankOf (selected i) = rank

instance (selected : ℕ → ℤ) (rank i : ℕ) : Decidable (Owned selected rank i) :=
  inferInstanceAs (Decidable (_ ∧ _))

/-- The entries below `n` that a rank owns, in order. -/
def ownedBefore (selected : ℕ → ℤ) (n rank : ℕ) : List ℕ :=
  (List.range n).filter fun i => Owned selected rank i

/-- The routes of a rank: its entries, grouped by local expert. -/
def routesOf (selected : ℕ → ℤ) (n rank : ℕ) : List ℕ :=
  grouped (fun i => localOf (selected i)) (ownedBefore selected n rank) kLocalExperts

def expertCount (selected : ℕ → ℤ) (n rank e : ℕ) : ℕ :=
  keyCount (fun i => localOf (selected i)) (ownedBefore selected n rank) e

def offsetOf (selected : ℕ → ℤ) (n rank e : ℕ) : ℕ :=
  ∑ l ∈ Finset.range e, expertCount selected n rank l

/-- The route of an entry within its rank. -/
def place (selected : ℕ → ℤ) (n i : ℕ) : ℕ :=
  offsetOf selected n (rankOf (selected i)) (localOf (selected i)) +
    (List.range i).countP fun j => selected j = selected i

/-- The choices of a slot that a rank owns, in order. -/
def chosen (selected : ℕ → ℤ) (topK src slot : ℕ) : List ℕ :=
  (List.range topK).filter fun k => Owned selected src (slot * topK + k)

/-- The compact row of a slot: its routes on the source rank, then nothing. -/
def rowValue (selected : ℕ → ℤ) (n topK src slot c : ℕ) : ℤ :=
  match (chosen selected topK src slot)[c]? with
  | some k => place selected n (slot * topK + k)
  | none => -1

/-- The whole compact plan: the rows of all source ranks, then their lengths. -/
def compactValue (opt : RouteOptions) (selected : ℕ → ℤ) (a : ℕ) : ℤ :=
  if a < kGpus * opt.entries then
    rowValue selected opt.entries opt.topK (a / opt.entries) (a % opt.entries / opt.topK)
      (a % opt.entries % opt.topK)
  else
    (chosen selected opt.topK ((a - kGpus * opt.entries) / opt.slots)
      ((a - kGpus * opt.entries) % opt.slots)).length

section Experts

theorem localOf_lt (expert : ℤ) : localOf expert < kLocalExperts := by
  simp only [localOf, kLocalExperts, kGlobalExperts, kGpus]
  omega

theorem rankOf_lt {expert : ℤ} (h : IsExpert expert) : rankOf expert < kGpus := by
  simp only [IsExpert, rankOf, kLocalExperts, kGlobalExperts, kGpus] at *
  omega

/-- A rank and a local number name one expert. -/
theorem expert_inj {a b : ℤ} (ha : IsExpert a) (hb : IsExpert b) (hrank : rankOf a = rankOf b)
    (hlocal : localOf a = localOf b) : a = b := by
  simp only [IsExpert, rankOf, localOf, kLocalExperts, kGlobalExperts, kGpus] at *
  omega

end Experts

variable {selected : ℕ → ℤ} {n rank i j : ℕ}

theorem mem_ownedBefore : i ∈ ownedBefore selected n rank ↔ i < n ∧ Owned selected rank i := by
  simp [ownedBefore]

theorem ownedBefore_nodup : (ownedBefore selected n rank).Nodup := List.nodup_range.filter _

theorem ownedBefore_succ : ownedBefore selected (n + 1) rank =
    ownedBefore selected n rank ++ if Owned selected rank n then [n] else [] := by
  unfold ownedBefore
  rw [List.range_succ, List.filter_append]
  split_ifs with h <;> simp [h]

theorem ownedBefore_length_le : (ownedBefore selected n rank).length ≤ n := by
  calc (ownedBefore selected n rank).length ≤ (List.range n).length := List.length_filter_le _ _
    _ = n := List.length_range

/-- The entries of a rank before, at and behind one of them. -/
theorem ownedBefore_split (hi : i < n) (h : Owned selected rank i) :
    ∃ rest, ownedBefore selected n rank = ownedBefore selected i rank ++ i :: rest := by
  obtain ⟨d, rfl⟩ := Nat.exists_eq_add_of_lt hi
  refine ⟨((List.range d).map (i + 1 + ·)).filter fun j => Owned selected rank j, ?_⟩
  have hsplit : List.range (i + d + 1) = List.range i ++ i :: (List.range d).map (i + 1 + ·) := by
    rw [show i + d + 1 = i + 1 + d by omega, List.range_add, List.range_succ, List.append_assoc]
    rfl
  unfold ownedBefore
  rw [hsplit, List.filter_append, List.filter_cons_of_pos (by simpa using h)]

/-- Among the entries of the rank, the ones of the same local expert chose the same expert. -/
theorem keyCount_owned (h : Owned selected rank i) :
    keyCount (fun j => localOf (selected j)) (ownedBefore selected i rank) (localOf (selected i)) =
      (List.range i).countP fun j => selected j = selected i := by
  unfold keyCount ownedBefore
  rw [List.countP_filter]
  apply List.countP_congr
  intro j _
  simp only [Bool.and_eq_true, decide_eq_true_eq]
  constructor
  · rintro ⟨hloc, hown⟩
    exact expert_inj hown.1 h.1 (hown.2.trans h.2.symm) hloc
  · intro heq
    exact ⟨by rw [heq], by rw [Owned, heq]; exact h⟩

/-- The route of an entry holds that entry. -/
theorem routesOf_place (hi : i < n) (h : Owned selected rank i) :
    (routesOf selected n rank)[place selected n i]? = some i := by
  obtain ⟨rest, hrest⟩ := ownedBefore_split hi h
  have hplace : (grouped (fun j => localOf (selected j))
      (ownedBefore selected i rank ++ i :: rest) kLocalExperts)[
      (grouped (fun j => localOf (selected j)) (ownedBefore selected i rank ++ i :: rest)
        (localOf (selected i))).length +
      keyCount (fun j => localOf (selected j)) (ownedBefore selected i rank)
        (localOf (selected i))]? = some i := grouped_place (localOf_lt (selected i))
  rw [← hrest, grouped_length, keyCount_owned h] at hplace
  rw [place, h.2]
  exact hplace

theorem place_lt (hi : i < n) (h : Owned selected rank i) :
    place selected n i < (routesOf selected n rank).length :=
  (List.getElem?_eq_some_iff.1 (routesOf_place hi h)).1

theorem place_inj (hi : i < n) (hj : j < n) (h : Owned selected rank i)
    (h' : Owned selected rank j) (heq : place selected n i = place selected n j) : i = j := by
  have hfst := routesOf_place hi h
  rw [heq, routesOf_place hj h'] at hfst
  exact (Option.some.inj hfst).symm

theorem routesOf_nodup : (routesOf selected n rank).Nodup := grouped_nodup ownedBefore_nodup

theorem mem_routesOf : i ∈ routesOf selected n rank ↔ i < n ∧ Owned selected rank i := by
  unfold routesOf
  rw [mem_grouped, mem_ownedBefore]
  exact ⟨fun h => h.1, fun h => ⟨h, localOf_lt _⟩⟩

/-- Every route is the place of its entry. -/
theorem place_of_route {a : ℕ} (ha : (routesOf selected n rank)[a]? = some i) :
    place selected n i = a := by
  obtain ⟨hlt, hget⟩ := List.getElem?_eq_some_iff.1 ha
  obtain ⟨hi, hown⟩ := mem_routesOf.1 (hget ▸ List.getElem_mem hlt)
  obtain ⟨hlt', hget'⟩ := List.getElem?_eq_some_iff.1 (routesOf_place hi hown)
  exact (List.Nodup.getElem_inj_iff routesOf_nodup).1 (hget'.trans hget.symm)

theorem routesOf_length : (routesOf selected n rank).length =
    offsetOf selected n rank kLocalExperts := grouped_length

theorem routesOf_perm : (routesOf selected n rank).Perm (ownedBefore selected n rank) :=
  grouped_perm ownedBefore_nodup fun i _ => localOf_lt (selected i)

theorem routesOf_length_le : (routesOf selected n rank).length ≤ n := by
  rw [routesOf_perm.length_eq]
  exact ownedBefore_length_le

/-- Writing a value for every entry of a rank at its route fills the first routes. -/
theorem perform_routes {β : Type} (mem v : ℕ → β) (d : ℕ) :
    perform mem ((ownedBefore selected n rank).map fun i =>
      Access.store (place selected n i) (v i)) =
      pasteAt 0 (routesOf selected n rank).length
        (fun a => v ((routesOf selected n rank).getD a d)) mem := by
  funext a
  unfold pasteAt
  by_cases ha : a < (routesOf selected n rank).length
  · rw [if_pos ⟨Nat.zero_le a, by omega⟩, Nat.sub_zero]
    show _ = v ((routesOf selected n rank).getD a d)
    rw [List.getD_eq_getElem _ _ ha]
    have hget : (routesOf selected n rank)[a]? = some (routesOf selected n rank)[a] :=
      List.getElem?_eq_getElem ha
    apply perform_stored
    · refine ⟨_, List.mem_map_of_mem ?_, place_of_route hget⟩
      exact mem_ownedBefore.2 (mem_routesOf.1 (List.getElem_mem ha))
    · intro x hx hxa old
      obtain ⟨i, hi, rfl⟩ := List.mem_map.1 hx
      obtain ⟨hlt, hown⟩ := mem_ownedBefore.1 hi
      have hi' := routesOf_place hlt hown
      rw [show place selected n i = a from hxa, hget] at hi'
      exact congrArg v (Option.some.inj hi').symm
  · rw [if_neg (by omega)]
    apply perform_untouched
    intro x hx hxa
    obtain ⟨i, hi, rfl⟩ := List.mem_map.1 hx
    obtain ⟨hlt, hown⟩ := mem_ownedBefore.1 hi
    have := place_lt hlt hown
    rw [show place selected n i = a from hxa] at this
    exact ha this

section Rows
variable {topK slots slot k b : ℕ}

/-- How many earlier choices of its slot went to the rank. -/
def orderOf (selected : ℕ → ℤ) (topK rank i : ℕ) : ℕ :=
  (List.range (i % topK)).countP fun k => Owned selected rank (i / topK * topK + k)

/-- How many entries of a slot the rank owns below an entry. -/
def slotCount (selected : ℕ → ℤ) (topK rank i slot : ℕ) : ℕ :=
  (ownedBefore selected i rank).countP fun j => j / topK = slot

theorem orderOf_le : orderOf selected topK rank i ≤ i % topK := by
  calc orderOf selected topK rank i ≤ (List.range (i % topK)).length := List.countP_le_length
    _ = i % topK := List.length_range

theorem countP_filter_range (m : ℕ) (p : ℕ → Prop) [DecidablePred p] :
    (ownedBefore selected m rank).countP (fun j => p j) =
      (List.range m).countP fun j => p j ∧ Owned selected rank j := by
  unfold ownedBefore
  rw [List.countP_filter]
  simp

theorem slotCount_partial (hk : k ≤ topK) :
    slotCount selected topK rank (slot * topK + k) slot =
      (List.range k).countP fun k' => Owned selected rank (slot * topK + k') := by
  unfold slotCount
  rw [countP_filter_range, List.range_add, List.countP_append, List.countP_map]
  have hbefore : (List.range (slot * topK)).countP
      (fun j => decide (j / topK = slot ∧ Owned selected rank j)) = 0 := by
    apply List.countP_eq_zero.2
    intro j hj
    have hlt : j / topK < slot := Nat.div_lt_of_lt_mul (by
      rw [Nat.mul_comm]
      exact List.mem_range.1 hj)
    simp only [decide_eq_true_eq, not_and]
    intro heq
    omega
  rw [hbefore, Nat.zero_add]
  apply List.countP_congr
  intro k' hk'
  have hlt : k' < topK := lt_of_lt_of_le (List.mem_range.1 hk') hk
  simp [entry_div hlt]

/-- The entries of a slot that a rank owns are the slot's chosen entries. -/
theorem ownedBefore_slot (hslot : slot < slots) :
    (ownedBefore selected (slots * topK) rank).filter (fun j => j / topK = slot) =
      (chosen selected topK rank slot).map fun k => slot * topK + k := by
  obtain ⟨d, hd⟩ := Nat.exists_eq_add_of_le (Nat.mul_le_mul_right topK (Nat.succ_le_of_lt hslot))
  have hbefore : (List.range (slot * topK)).filter
      (fun j => decide (j / topK = slot) && decide (Owned selected rank j)) = [] := by
    apply List.filter_eq_nil_iff.2
    intro j hj
    have hlt : j / topK < slot := Nat.div_lt_of_lt_mul (by
      rw [Nat.mul_comm]
      exact List.mem_range.1 hj)
    simp only [Bool.and_eq_true, decide_eq_true_eq, not_and]
    intro heq
    omega
  have hbehind : (List.range d).filter
      ((fun j => decide (j / topK = slot) && decide (Owned selected rank j)) ∘
        fun j => slot * topK + topK + j) = [] := by
    apply List.filter_eq_nil_iff.2
    intro j hj
    have hj' := List.mem_range.1 hj
    simp only [Function.comp_apply, Bool.and_eq_true, decide_eq_true_eq, not_and]
    intro heq
    have hpos : 0 < topK := Nat.pos_of_ne_zero fun h0 => by
      rw [h0, Nat.mul_zero, Nat.mul_zero] at hd
      omega
    rw [Nat.div_eq_iff hpos] at heq
    omega
  unfold ownedBefore chosen
  rw [hd, Nat.succ_mul, List.range_add, List.range_add, List.filter_filter, List.filter_append,
    List.filter_append, List.filter_map, List.filter_map, hbefore, hbehind, List.map_nil,
    List.append_nil, List.nil_append]
  congr 1
  apply List.filter_congr
  intro k hk
  simp [entry_div (List.mem_range.1 hk)]

theorem slotCount_total (hslot : slot < slots) :
    slotCount selected topK rank (slots * topK) slot =
      (chosen selected topK rank slot).length := by
  rw [slotCount, List.countP_eq_length_filter, ownedBefore_slot hslot, List.length_map]

theorem slotCount_own (hpos : 0 < topK) (i : ℕ) : slotCount selected topK rank i (i / topK) =
    orderOf selected topK rank i := by
  have hcount : slotCount selected topK rank (i / topK * topK + i % topK) (i / topK) =
      orderOf selected topK rank i := slotCount_partial (Nat.mod_lt i hpos).le
  rw [Nat.div_add_mod'] at hcount
  exact hcount

/-- The choices of a slot list an owned choice at its order. -/
theorem chosen_order (hpos : 0 < topK) (h : Owned selected rank i) :
    (chosen selected topK rank (i / topK))[orderOf selected topK rank i]? = some (i % topK) := by
  have hlt := Nat.mod_lt i hpos
  obtain ⟨d, hd⟩ := Nat.exists_eq_add_of_lt hlt
  have hsplit : List.range topK =
      List.range (i % topK) ++ i % topK :: (List.range d).map (i % topK + 1 + ·) := by
    conv_lhs => rw [hd]
    rw [show i % topK + d + 1 = i % topK + 1 + d by omega, List.range_add, List.range_succ,
      List.append_assoc]
    rfl
  unfold chosen orderOf
  rw [hsplit]
  apply filter_place
  rw [Nat.div_add_mod']
  exact decide_eq_true h

/-- An entry's place stands in its row at its order. -/
theorem row_hit (hpos : 0 < topK) (h : Owned selected rank i)
    (hb : i / topK * topK + orderOf selected topK rank i = b) :
    rowValue selected n topK rank (b / topK) (b % topK) = place selected n i := by
  have hlt : orderOf selected topK rank i < topK := lt_of_le_of_lt orderOf_le (Nat.mod_lt i hpos)
  subst hb
  rw [entry_div hlt, entry_mod hlt, rowValue, chosen_order hpos h]
  show (place selected n (i / topK * topK + i % topK) : ℤ) = _
  rw [Nat.div_add_mod']

/-- A cell of a row that no entry reaches says that there is nothing. -/
theorem row_miss (hb : b < slots * topK)
    (h : ∀ i < slots * topK, Owned selected rank i →
      i / topK * topK + orderOf selected topK rank i ≠ b) :
    rowValue selected n topK rank (b / topK) (b % topK) = -1 := by
  have hpos : 0 < topK := Nat.pos_of_ne_zero fun h0 => by simp [h0] at hb
  unfold rowValue
  cases hget : (chosen selected topK rank (b / topK))[b % topK]? with
  | none => rfl
  | some k =>
    exfalso
    obtain ⟨hlt, hgetk⟩ := List.getElem?_eq_some_iff.1 hget
    have hmem : k ∈ chosen selected topK rank (b / topK) := hgetk ▸ List.getElem_mem hlt
    obtain ⟨hk, hown⟩ := List.mem_filter.1 hmem
    have hk' : k < topK := List.mem_range.1 hk
    have hown' : Owned selected rank (b / topK * topK + k) := of_decide_eq_true hown
    have hslot : b / topK < slots := (Nat.div_lt_iff_lt_mul hpos).2 hb
    have horder := chosen_order hpos hown'
    rw [entry_div hk', entry_mod hk'] at horder
    obtain ⟨hlt', hgetk'⟩ := List.getElem?_eq_some_iff.1 horder
    have hnodup : (chosen selected topK rank (b / topK)).Nodup := List.nodup_range.filter _
    have hsame := (List.Nodup.getElem_inj_iff hnodup).1 (hgetk'.trans hgetk.symm)
    apply h _ (entry_lt hslot hk') hown'
    rw [entry_div hk', hsame, Nat.div_add_mod']

end Rows

end Ds4.Routing
