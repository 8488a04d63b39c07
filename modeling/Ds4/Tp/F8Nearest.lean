import Ds4.Tp.F8Format

/-! The code that the search finds: which quotients it gives their nearest value, and that what was
coded once is coded again without loss. -/
namespace Ds4.Tp.F8
open Ds4.Parts

variable {R : Type} [Field R] [LinearOrder R] [IsStrictOrderedRing R] {dtype : KvDtype}
variable {x ax v : R} {code : ℕ}

/-- The magnitude that the search finds for a quotient's. -/
def codedMag (dtype : KvDtype) (ax : R) : R :=
  f8Value dtype (nearestEntry (f8Value dtype) dtype.top ax)

/-- The magnitude that is nearest. -/
def nearestMag (dtype : KvDtype) (ax : R) : R :=
  dtype.value (nearestEntry dtype.value dtype.top ax)

attribute [local instance] atLeastTwo_two in
/-- The E5M2 magnitudes that are not coded as their nearest. -/
def Misplaced : KvDtype → R → Prop
  | .e5m2, ax => (2 ^ (-17 : ℤ) < ax ∧ ax < 7 * 2 ^ (-17 : ℤ)) ∨
      (9 * 2 ^ (-17 : ℤ) < ax ∧ ax < 14 * 2 ^ (-17 : ℤ))
  | .e4m3, _ => False

theorem value_isNearest (hax : 0 ≤ ax) :
    IsNearest dtype.value dtype.top ax (nearestEntry dtype.value dtype.top ax) :=
  nearestEntry_spec (fun _ _ hij hj => value_lt hij hj) (by rwa [value_zero])

theorem nearestMag_eq_iff (hax : 0 ≤ ax) (hcode : code ≤ dtype.top) :
    dtype.value code = nearestMag dtype ax ↔ IsNearest dtype.value dtype.top ax code := by
  have hnear : IsNearest dtype.value dtype.top ax (nearestEntry dtype.value dtype.top ax) :=
    value_isNearest hax
  constructor
  · intro heq
    have hsame : code = nearestEntry dtype.value dtype.top ax := by
      rcases lt_trichotomy code (nearestEntry dtype.value dtype.top ax) with hlt | heq' | hgt
      · exact absurd heq (value_lt hlt hnear.le_top).ne
      · exact heq'
      · exact absurd heq (value_lt hgt hcode).ne'
    rwa [← hsame] at hnear
  · intro h
    rw [h.unique (fun _ _ hij hj => value_lt hij hj) hnear]
    rfl

theorem e4m3_nearestEntry (ax : R) :
    nearestEntry (f8Value .e4m3) 126 ax = nearestEntry (KvDtype.value .e4m3) 126 ax := by
  have hsame : ∀ j ≤ 126, (f8Value .e4m3 j : R) = KvDtype.value .e4m3 j :=
    fun j hj => f8Value_eq hj trivial
  have hsearch : searchLast (f8Value .e4m3) ax 0 126 = searchLast KvDtype.e4m3.value ax 0 126 :=
    searchLast_congr fun j _ hj => hsame j hj
  have hend : searchLast (f8Value .e4m3) ax 0 126 ≤ 126 := searchLast_le (by norm_num)
  exact nearestEntry_congr hsearch (hsame _ hend) fun hlt => hsame _ hlt

section E5m2

theorem e5m2_unit : (KvDtype.e5m2.unit : R) = 2 * 2 ^ (-17 : ℤ) := by
  show (2 : R) ^ ((111 : ℤ) - 127) = 2 * 2 ^ (-17 : ℤ)
  norm_num

theorem e5m2_same (hcode : code ≤ 123) (hlow : 4 ≤ code) :
    (f8Value .e5m2 code : R) = KvDtype.e5m2.value code := f8Value_eq hcode (Or.inr hlow)

theorem e5m2_value_lt {i j : ℕ} (hij : i < j) (hj : j ≤ 123) :
    (KvDtype.e5m2.value i : R) < KvDtype.e5m2.value j := value_lt hij hj

/-- The three least codes are decoded as if they were others. -/
theorem e5m2_low_codes : (f8Value .e5m2 1 : R) = KvDtype.e5m2.value 4 ∧
    (f8Value .e5m2 2 : R) = KvDtype.e5m2.value 8 ∧
    (f8Value .e5m2 3 : R) = KvDtype.e5m2.value 10 := by
  rw [← e5m2_same (by norm_num) (by norm_num), ← e5m2_same (by norm_num) (by norm_num),
    ← e5m2_same (by norm_num) (by norm_num)]
  exact ⟨rfl, rfl, rfl⟩

/-- From the seventh value on the search stays in the part of the table that grows. -/
theorem e5m2_search_high (hhigh : KvDtype.e5m2.value 7 ≤ ax) :
    searchLast (f8Value .e5m2) ax 0 123 = searchLast KvDtype.e5m2.value ax 0 123 ∧
      7 ≤ searchLast (f8Value .e5m2) ax 0 123 ∧ searchLast (f8Value .e5m2) ax 0 123 ≤ 123 := by
  have hmono : ∀ i j, 7 ≤ i → i < j → j ≤ 123 → (f8Value .e5m2 i : R) < f8Value .e5m2 j := by
    intro i j hi hij hj
    rw [e5m2_same (by omega) (by omega), e5m2_same hj (by omega)]
    exact value_lt hij hj
  -- what is left of the table, once the search is above its low end
  have hpart : ∀ lo hi, 7 ≤ lo → lo ≤ hi → hi ≤ 123 → f8Value .e5m2 lo ≤ ax →
      (∀ j, hi < j → j ≤ 123 → ax < f8Value .e5m2 j) →
      searchLast (f8Value .e5m2) ax lo hi = searchLast KvDtype.e5m2.value ax 0 123 ∧
        7 ≤ searchLast (f8Value .e5m2) ax lo hi ∧ searchLast (f8Value .e5m2) ax lo hi ≤ 123 := by
    intro lo hi hlo hle htop hvalue hafter
    obtain ⟨hfrom, hto, hbest, hbeyond⟩ := searchLast_spec
      (fun i j hi => hmono i j (by omega)) hle htop hvalue hafter
    have hzero : KvDtype.e5m2.value 0 ≤ ax := (value_le (by norm_num) (by decide)).trans hhigh
    obtain ⟨-, hto', hbest', hbeyond'⟩ := searchLast_spec
      (fun i j _ hij hj => e5m2_value_lt hij hj) (Nat.zero_le 123) le_rfl hzero fun j hj hjtop =>
        absurd hjtop (by omega)
    refine ⟨?_, by omega, by omega⟩
    generalize searchLast (f8Value .e5m2) ax lo hi = k at *
    generalize searchLast KvDtype.e5m2.value ax 0 123 = k' at *
    rcases lt_trichotomy k k' with hlt | heq | hgt
    · have hover := hbeyond k' hlt hto'
      rw [e5m2_same hto' (by omega)] at hover
      exact absurd hbest' (not_le.2 hover)
    · exact heq
    · have hover := hbeyond' k hgt (by omega)
      rw [← e5m2_same (by omega) (by omega)] at hover
      exact absurd hbest (not_le.2 hover)
  have hbehind : ∀ i, 7 ≤ i → ax < f8Value .e5m2 i → ∀ j, i - 1 < j → j ≤ 123 →
    ax < f8Value .e5m2 j := by
    intro i hi hlt j hj hjtop
    rcases (show i ≤ j by omega).eq_or_lt with rfl | hmore
    · exact hlt
    · exact hlt.trans (hmono i j hi hmore hjtop)
  rcases le_or_gt (f8Value .e5m2 62) ax with h62 | h62
  · rw [searchLast_from (by norm_num) (show (0 + 123 + 1) / 2 = 62 by norm_num) h62]
    exact hpart 62 123 (by norm_num) (by norm_num) le_rfl h62 fun j hj hjtop =>
      absurd hjtop (by omega)
  rw [searchLast_below (by norm_num) (show (0 + 123 + 1) / 2 = 62 by norm_num) h62]
  rcases le_or_gt (f8Value .e5m2 31) ax with h31 | h31
  · rw [searchLast_from (by norm_num) (show (0 + 61 + 1) / 2 = 31 by norm_num) h31]
    exact hpart 31 61 (by norm_num) (by norm_num) (by norm_num) h31 (hbehind 62 (by norm_num) h62)
  rw [searchLast_below (by norm_num) (show (0 + 61 + 1) / 2 = 31 by norm_num) h31]
  rcases le_or_gt (f8Value .e5m2 15) ax with h15 | h15
  · rw [searchLast_from (by norm_num) (show (0 + 30 + 1) / 2 = 15 by norm_num) h15]
    exact hpart 15 30 (by norm_num) (by norm_num) (by norm_num) h15 (hbehind 31 (by norm_num) h31)
  rw [searchLast_below (by norm_num) (show (0 + 30 + 1) / 2 = 15 by norm_num) h15]
  rw [← e5m2_same (by norm_num) (by norm_num)] at hhigh
  rw [searchLast_from (by norm_num) (show (0 + 14 + 1) / 2 = 7 by norm_num) hhigh]
  exact hpart 7 14 le_rfl (by norm_num) (by norm_num) hhigh (hbehind 15 (by norm_num) h15)

theorem e5m2_nearestEntry (hhigh : KvDtype.e5m2.value 7 ≤ ax) :
    nearestEntry (f8Value .e5m2) 123 ax = nearestEntry KvDtype.e5m2.value 123 ax := by
  obtain ⟨hsearch, hlow, hend⟩ := e5m2_search_high hhigh
  exact nearestEntry_congr hsearch (e5m2_same hend (by omega)) fun hlt => e5m2_same hlt (by omega)

/-- The values next to the part that is out of order, in halves of the least. -/
theorem e5m2_values : (KvDtype.e5m2.value 0 : R) = 0 ∧
    (KvDtype.e5m2.value 1 : R) = 2 * 2 ^ (-17 : ℤ) ∧
    (KvDtype.e5m2.value 2 : R) = 4 * 2 ^ (-17 : ℤ) ∧
    (KvDtype.e5m2.value 3 : R) = 6 * 2 ^ (-17 : ℤ) ∧
    (KvDtype.e5m2.value 4 : R) = 8 * 2 ^ (-17 : ℤ) ∧
    (KvDtype.e5m2.value 5 : R) = 10 * 2 ^ (-17 : ℤ) ∧
    (KvDtype.e5m2.value 6 : R) = 12 * 2 ^ (-17 : ℤ) ∧
    (KvDtype.e5m2.value 7 : R) = 14 * 2 ^ (-17 : ℤ) ∧
    (KvDtype.e5m2.value 8 : R) = 16 * 2 ^ (-17 : ℤ) := by
  have hvalue : ∀ code n, KvDtype.e5m2.mag code = n →
      (KvDtype.e5m2.value code : R) = n * 2 * 2 ^ (-17 : ℤ) := by
    intro code n hmag
    unfold KvDtype.value
    rw [e5m2_unit, hmag, mul_assoc]
  refine ⟨value_zero _, (hvalue 1 1 rfl).trans ?_, (hvalue 2 2 rfl).trans ?_,
    (hvalue 3 3 rfl).trans ?_, (hvalue 4 4 rfl).trans ?_, (hvalue 5 5 rfl).trans ?_,
    (hvalue 6 6 rfl).trans ?_, (hvalue 7 7 rfl).trans ?_, (hvalue 8 8 rfl).trans ?_⟩ <;> norm_num

/-- Below the seventh value the search ends at the first code or before it. -/
theorem e5m2_search_low (hlow : ax < KvDtype.e5m2.value 7) :
    searchLast (f8Value .e5m2) ax 0 123 = if ax < KvDtype.e5m2.value 4 then 0 else 1 := by
  obtain ⟨h1, h2, h3⟩ := e5m2_low_codes (R := R)
  have hover : ∀ i, 7 ≤ i → i ≤ 123 → ax < f8Value .e5m2 i := by
    intro i hi htop
    rw [e5m2_same htop (by omega)]
    exact hlow.trans_le (value_le hi htop)
  have hthree : ax < f8Value .e5m2 3 := by
    rw [h3]
    exact hlow.trans (value_lt (by norm_num) (by decide))
  have htwo : ax < f8Value .e5m2 2 := by
    rw [h2]
    exact hlow.trans (value_lt (by norm_num) (by decide))
  rw [searchLast_below (by norm_num) (show (0 + 123 + 1) / 2 = 62 by norm_num)
      (hover 62 (by norm_num) (by norm_num)),
    searchLast_below (by norm_num) (show (0 + (62 - 1) + 1) / 2 = 31 by norm_num)
      (hover 31 (by norm_num) (by norm_num)),
    searchLast_below (by norm_num) (show (0 + (31 - 1) + 1) / 2 = 15 by norm_num)
      (hover 15 (by norm_num) (by norm_num)),
    searchLast_below (by norm_num) (show (0 + (15 - 1) + 1) / 2 = 7 by norm_num)
      (hover 7 (by norm_num) (by norm_num)),
    searchLast_below (by norm_num) (show (0 + (7 - 1) + 1) / 2 = 3 by norm_num) hthree]
  by_cases hfour : ax < KvDtype.e5m2.value 4
  · rw [if_pos hfour, searchLast_below (by norm_num) (show (0 + (3 - 1) + 1) / 2 = 1 by norm_num)
      (h1.symm ▸ hfour)]
    exact searchLast_self 0
  · rw [if_neg hfour, searchLast_from (by norm_num) (show (0 + (3 - 1) + 1) / 2 = 1 by norm_num)
      (h1.symm ▸ not_lt.1 hfour),
      searchLast_below (by norm_num) (show (1 + (3 - 1) + 1) / 2 = 2 by norm_num) htwo]
    exact searchLast_self 1

/-- From the seventh value on the magnitudes are coded as their nearest. -/
theorem e5m2_high (hhigh : KvDtype.e5m2.value 7 ≤ ax) :
    7 ≤ nearestEntry KvDtype.e5m2.value 123 ax ∧ codedMag .e5m2 ax = nearestMag .e5m2 ax := by
  have hax : 0 ≤ ax := (value_nonneg (by decide)).trans hhigh
  have hle : 7 ≤ nearestEntry KvDtype.e5m2.value 123 ax :=
    le_value_nearestEntry (fun i j hij hj => e5m2_value_lt hij hj) (by norm_num) hhigh
  have hnear : IsNearest KvDtype.e5m2.value KvDtype.e5m2.top ax
      (nearestEntry KvDtype.e5m2.value KvDtype.e5m2.top ax) := value_isNearest hax
  have htop : nearestEntry KvDtype.e5m2.value 123 ax ≤ 123 := hnear.le_top
  refine ⟨hle, ?_⟩
  unfold codedMag nearestMag
  rw [show KvDtype.e5m2.top = 123 from rfl, e5m2_nearestEntry hhigh]
  exact e5m2_same htop (by omega)

/-- What becomes of the magnitudes below the seventh value. -/
theorem e5m2_low (hax : 0 ≤ ax) (hlow : ax < KvDtype.e5m2.value 7) :
    codedMag .e5m2 ax = KvDtype.e5m2.value
      (if ax ≤ KvDtype.e5m2.value 2 then 0 else if ax < KvDtype.e5m2.value 6 then 4 else 8) := by
  obtain ⟨h0, -, h2, -, h4, -, h6, h7, h8⟩ := e5m2_values (R := R)
  obtain ⟨c1, c2, -⟩ := e5m2_low_codes (R := R)
  have hunit : (0 : R) < 2 ^ (-17 : ℤ) := zpow_pos two_pos _
  have c0 : (f8Value .e5m2 0 : R) = KvDtype.e5m2.value 0 := f8Value_eq (by decide) (Or.inl rfl)
  have hsearch := e5m2_search_low hlow
  have htop : KvDtype.e5m2.top = 123 := rfl
  unfold codedMag nearestEntry
  rw [htop, hsearch]
  rw [h2, h4, h6]
  rw [h7] at hlow
  generalize (2 : R) ^ (-17 : ℤ) = w at *
  by_cases hfour : ax < 8 * w
  · -- the search ends at zero, and the next code is decoded as the fourth value
    rw [if_pos hfour]
    dsimp only
    rw [if_pos (by norm_num), Nat.zero_add, c0, c1, h0, h4, sub_zero, abs_of_nonneg hax,
      abs_sub_comm, abs_of_nonneg (by linarith)]
    by_cases htwo : ax ≤ 4 * w
    · rw [if_neg (by rintro (h | h); exacts [by linarith, absurd h.2.1 (by norm_num)]), if_pos htwo]
      exact c0
    · rw [if_pos (Or.inl (by linarith)), if_neg htwo, if_pos (by linarith)]
      exact c1
  · -- it ends at the first code, and the next is decoded as the eighth value
    have hbest : |ax - 8 * w| = ax - 8 * w := abs_of_nonneg (by linarith)
    have hnext : |ax - 16 * w| = 16 * w - ax := by
      rw [abs_sub_comm, abs_of_nonneg (by linarith)]
    have htwo : ¬ ax ≤ 4 * w := by linarith
    rw [if_neg hfour, if_neg htwo]
    dsimp only
    rw [if_pos (by norm_num), c1, c2, h4, h8, hbest, hnext]
    by_cases hsix : ax < 12 * w
    · rw [if_neg (by rintro (h | h); exacts [by linarith, by linarith [h.1]]), if_pos hsix]
      exact c1
    · have htaken : 16 * w - ax < ax - 8 * w ∨
          (16 * w - ax = ax - 8 * w ∧ (1 + 1) % 2 = 0 ∧ 1 % 2 ≠ 0) := by
        rcases (not_lt.1 hsix).eq_or_lt with heq | hlt
        · exact Or.inr ⟨by linarith, by norm_num, by norm_num⟩
        · exact Or.inl (by linarith)
      rw [if_pos htaken, if_neg hsix]
      exact c2

/-- Which of them that is right for. -/
theorem e5m2_low_iff (hax : 0 ≤ ax) (hlow : ax < KvDtype.e5m2.value 7) :
    codedMag .e5m2 ax = nearestMag .e5m2 ax ↔ ¬ Misplaced .e5m2 ax := by
  have hiff : ∀ code ≤ 123, (KvDtype.e5m2.value code = nearestMag .e5m2 ax ↔
      IsNearest KvDtype.e5m2.value 123 ax code) := fun code hcode => nearestMag_eq_iff hax hcode
  have hmid : ∀ code, IsNearest KvDtype.e5m2.value 123 ax code ↔ _ := fun code =>
    isNearest_iff fun i j hij hj => e5m2_value_lt hij hj
  obtain ⟨h0, h1, h2, h3, h4, h5, h6, h7, h8⟩ := e5m2_values (R := R)
  have hunit : (0 : R) < 2 ^ (-17 : ℤ) := zpow_pos two_pos _
  rw [e5m2_low hax hlow]
  unfold Misplaced
  rw [h2, h6]
  rw [h7] at hlow
  by_cases htwo : ax ≤ 4 * 2 ^ (-17 : ℤ)
  · rw [if_pos htwo, hiff 0 (by norm_num), hmid]
    constructor
    · rintro ⟨-, -, hnext⟩ (⟨hgt, -⟩ | ⟨hgt, -⟩)
      · have hle := (hnext (by norm_num)).1
        rw [h0, Nat.zero_add, h1] at hle
        linarith
      · linarith
    · intro hno
      refine ⟨by norm_num, fun j hj => absurd hj (by omega), fun _ => ⟨?_, fun _ => rfl⟩⟩
      rw [h0, Nat.zero_add, h1]
      by_contra hgt
      exact hno (Or.inl ⟨by linarith, by linarith⟩)
  · rw [if_neg htwo]
    by_cases hsix : ax < 12 * 2 ^ (-17 : ℤ)
    · rw [if_pos hsix, hiff 4 (by norm_num), hmid]
      constructor
      · rintro ⟨-, hbefore, hnext⟩ (⟨-, hlt⟩ | ⟨hgt, -⟩)
        · have hge := (hbefore 3 rfl).1
          rw [h3, h4] at hge
          linarith
        · have hle := (hnext (by norm_num)).1
          rw [h4, h5] at hle
          linarith
      · intro hno
        refine ⟨by norm_num, fun j hj => ?_, fun _ => ⟨?_, fun _ => rfl⟩⟩
        · obtain rfl : j = 3 := by omega
          refine ⟨?_, fun _ => rfl⟩
          rw [h3, h4]
          by_contra hlt
          exact hno (Or.inl ⟨by linarith, by linarith⟩)
        · rw [h4, h5]
          by_contra hgt
          exact hno (Or.inr ⟨by linarith, by linarith⟩)
    · rw [if_neg hsix, hiff 8 (by norm_num), hmid]
      constructor
      · rintro ⟨-, hbefore, -⟩
        have hge := (hbefore 7 rfl).1
        rw [h7, h8] at hge
        linarith
      · exact fun hno => absurd (Or.inr ⟨by linarith, by linarith⟩) hno

end E5m2

/-- The magnitudes that are coded as their nearest. -/
theorem codedMag_eq_nearestMag_iff (hax : 0 ≤ ax) :
    codedMag dtype ax = nearestMag dtype ax ↔ ¬ Misplaced dtype ax := by
  cases dtype with
  | e4m3 =>
    refine iff_of_true ?_ fun h => h
    have hend : nearestEntry KvDtype.e4m3.value KvDtype.e4m3.top ax ≤ KvDtype.e4m3.top :=
      (value_isNearest hax).le_top
    unfold codedMag nearestMag
    rw [show KvDtype.e4m3.top = 126 from rfl, e4m3_nearestEntry]
    exact f8Value_eq hend trivial
  | e5m2 =>
    rcases lt_or_ge ax (KvDtype.e5m2.value 7) with hlow | hhigh
    · exact e5m2_low_iff hax hlow
    · refine iff_of_true (e5m2_high hhigh).2 ?_
      have h7 := (e5m2_values (R := R)).2.2.2.2.2.2.2.1
      have hunit : (0 : R) < 2 ^ (-17 : ℤ) := zpow_pos two_pos _
      rw [h7] at hhigh
      rintro (⟨-, hlt⟩ | ⟨-, hlt⟩)
      · linarith
      · linarith

/-- The codes that a magnitude is given. -/
def KvDtype.Given : KvDtype → ℕ → Prop
  | .e5m2, code => code = 0 ∨ code = 4 ∨ 7 ≤ code
  | .e4m3, _ => True

theorem given_double (hcode : code ≤ dtype.half) (hgiven : dtype.Given code) :
    dtype.Given (dtype.double code) := by
  cases dtype with
  | e4m3 => trivial
  | e5m2 =>
    rcases hgiven with rfl | rfl | hseven
    · exact Or.inl rfl
    · exact Or.inr (Or.inr (by decide))
    · refine Or.inr (Or.inr ?_)
      have hman : 2 ^ KvDtype.e5m2.manBits = 4 := rfl
      unfold KvDtype.double
      rw [hman]
      split_ifs <;> omega

/-- The magnitude that the search finds is that of a code it can give, and half the greatest value
is not brought below itself. -/
theorem codedMag_given (hax : 0 ≤ ax) : ∃ code ≤ dtype.top, dtype.Given code ∧
    codedMag dtype ax = dtype.value code ∧ (dtype.value dtype.half ≤ ax → dtype.half ≤ code) := by
  have hhalf : dtype.half ≤ dtype.top := by cases dtype <;> decide
  have hnear : IsNearest dtype.value dtype.top ax (nearestEntry dtype.value dtype.top ax) :=
    value_isNearest hax
  have hkeeps : dtype.value dtype.half ≤ ax → dtype.half ≤ nearestEntry dtype.value dtype.top ax :=
    fun h => le_value_nearestEntry (fun i j hij hj => value_lt hij hj) hhalf h
  cases dtype with
  | e4m3 => exact ⟨_, hnear.le_top, trivial, (codedMag_eq_nearestMag_iff hax).2 fun h => h, hkeeps⟩
  | e5m2 =>
    rcases lt_or_ge ax (KvDtype.e5m2.value 7) with hlow | hhigh
    · have hbelow : ¬ KvDtype.e5m2.value KvDtype.e5m2.half ≤ ax :=
        not_le.2 (hlow.trans_le (value_le (by decide) hhalf))
      refine ⟨_, ?_, ?_, e5m2_low hax hlow, fun h => absurd h hbelow⟩
      · split_ifs <;> decide
      · split_ifs
        · exact Or.inl rfl
        · exact Or.inr (Or.inl rfl)
        · exact Or.inr (Or.inr (by norm_num))
    · obtain ⟨hseven, heq⟩ := e5m2_high hhigh
      exact ⟨_, hnear.le_top, Or.inr (Or.inr hseven), heq, hkeeps⟩

/-- A value that has been given is coded without loss. -/
theorem codedMag_value (hcode : code ≤ dtype.top) (hgiven : dtype.Given code) :
    codedMag dtype (dtype.value code : R) = dtype.value code := by
  have hexact : nearestMag dtype (dtype.value code : R) = dtype.value code :=
    congrArg dtype.value (nearestEntry_value (fun i j hij hj => value_lt hij hj) hcode)
  rw [← hexact]
  nth_rewrite 1 [hexact]
  refine (codedMag_eq_nearestMag_iff (value_nonneg hcode)).2 ?_
  cases dtype with
  | e4m3 => exact fun h => h
  | e5m2 =>
    obtain ⟨h0, -, -, -, h4, -, -, h7, -⟩ := e5m2_values (R := R)
    have hunit : (0 : R) < 2 ^ (-17 : ℤ) := zpow_pos two_pos _
    rcases hgiven with rfl | rfl | hseven
    · rw [h0]
      rintro (⟨hgt, -⟩ | ⟨hgt, -⟩)
      · linarith
      · linarith
    · rw [h4]
      rintro (⟨-, hlt⟩ | ⟨hgt, -⟩)
      · linarith
      · linarith
    · have hle := value_le (R := R) hseven hcode
      rw [h7] at hle
      rintro (⟨-, hlt⟩ | ⟨-, hlt⟩)
      · linarith
      · linarith

/-- The values of a format, with their codes. -/
def Represents (dtype : KvDtype) (code : ℕ) (v : R) : Prop :=
  code ≤ dtype.top ∧ (v = dtype.value code ∨ v = -dtype.value code)

/-- A value brought to the range of the format. -/
def saturate (dtype : KvDtype) (x : R) : R := max (-f8KvMaxDev dtype) (min x (f8KvMaxDev dtype))

/-- The value that the format has for `x`: the nearest, of two the one whose code is even, and the
greatest beyond it. -/
structure Rounds (dtype : KvDtype) (x v : R) : Prop where
  representable : ∃ code, Represents dtype code v
  nearest : ∀ code w, Represents dtype code w → |saturate dtype x - v| ≤ |saturate dtype x - w|
  even : ∀ code code' w, Represents dtype code v → Represents dtype code' w → w ≠ v →
    |saturate dtype x - w| = |saturate dtype x - v| → code % 2 = 0

/-- The magnitude of a quotient, at most that of the greatest value. -/
def clampedMag (dtype : KvDtype) (x : R) : R := min |x| (f8KvMaxDev dtype)

theorem max_pos (dtype : KvDtype) : (0 : R) < f8KvMaxDev dtype := by
  cases dtype <;> norm_num [f8KvMaxDev]

theorem clampedMag_nonneg (dtype : KvDtype) (x : R) : 0 ≤ clampedMag dtype x :=
  le_min (abs_nonneg x) (max_pos dtype).le

theorem saturate_neg (dtype : KvDtype) (x : R) : saturate dtype (-x) = -saturate dtype x := by
  have hpos := max_pos (R := R) dtype
  unfold saturate
  simp only [max_def, min_def]
  split_ifs <;> linarith

theorem saturate_of_nonneg (hx : 0 ≤ x) : saturate dtype x = clampedMag dtype x := by
  have hpos := max_pos (R := R) dtype
  unfold saturate clampedMag
  rw [abs_of_nonneg hx]
  exact max_eq_right ((neg_nonpos.2 hpos.le).trans (le_min hx hpos.le))

omit [LinearOrder R] [IsStrictOrderedRing R] in
theorem Represents.neg (h : Represents dtype code v) : Represents dtype code (-v) :=
  ⟨h.1, h.2.elim (fun h => Or.inr (congrArg Neg.neg h)) fun h => Or.inl (neg_eq_iff_eq_neg.2 h)⟩

theorem Rounds.neg (h : Rounds dtype x v) : Rounds dtype (-x) (-v) := by
  have hdist : ∀ w, |saturate dtype (-x) - w| = |saturate dtype x - -w| := by
    intro w
    rw [saturate_neg, ← abs_neg]
    congr 1
    ring
  obtain ⟨⟨code, hcode⟩, hnearest, heven⟩ := h
  refine ⟨⟨code, hcode.neg⟩, fun j w hw => ?_, fun j j' w hv hw hne heq => ?_⟩
  · rw [hdist, hdist, neg_neg]
    exact hnearest j (-w) hw.neg
  · rw [hdist, hdist, neg_neg] at heq
    have hv' : Represents dtype j v := by
      have hback := hv.neg
      rwa [neg_neg] at hback
    exact heven j j' (-w) hv' hw.neg (fun h => hne (neg_eq_iff_eq_neg.1 h)) heq

theorem value_inj {i j : ℕ} (hi : i ≤ dtype.top) (hj : j ≤ dtype.top)
    (h : (dtype.value i : R) = dtype.value j) : i = j := by
  rcases lt_trichotomy i j with hlt | heq | hgt
  · exact absurd h (value_lt hlt hj).ne
  · exact heq
  · exact absurd h (value_lt hgt hi).ne'

/-- For a value that is not negative no value with a sign is nearer than zero. -/
theorem rounds_of_nonneg (hx : 0 ≤ x) :
    Rounds dtype x v ↔ v = nearestMag dtype (clampedMag dtype x) := by
  have hax := clampedMag_nonneg dtype x
  have hzero := value_zero (R := R) dtype
  constructor
  · rintro ⟨⟨code, hcode, hv⟩, hnearest, heven⟩
    rw [saturate_of_nonneg hx] at hnearest heven
    have hnonneg := value_nonneg (R := R) hcode
    have hvalue : v = dtype.value code := by
      rcases hv with hv | hv
      · exact hv
      · have hle := hnearest 0 0 ⟨Nat.zero_le _, Or.inl hzero.symm⟩
        rw [hv, sub_neg_eq_add, sub_zero, abs_of_nonneg hax, abs_of_nonneg (by linarith)] at hle
        have hnull : (dtype.value code : R) = 0 := by linarith
        rw [hv, hnull, neg_zero]
    subst hvalue
    rw [nearestMag_eq_iff hax hcode]
    exact ⟨hcode, fun j hj => hnearest j _ ⟨hj, Or.inl rfl⟩, fun j hj heq hne =>
      heven code j _ ⟨hcode, Or.inl rfl⟩ ⟨hj, Or.inl rfl⟩ (fun h => hne (value_inj hj hcode h)) heq⟩
  · intro hv
    have hnear : IsNearest dtype.value dtype.top (clampedMag dtype x)
        (nearestEntry dtype.value dtype.top (clampedMag dtype x)) := value_isNearest hax
    have hvalue : v = dtype.value (nearestEntry dtype.value dtype.top (clampedMag dtype x)) := hv
    generalize nearestEntry dtype.value dtype.top (clampedMag dtype x) = k at hnear hvalue
    obtain ⟨hk, hnearest, heven⟩ := hnear
    have hzeroDist := hnearest 0 (Nat.zero_le _)
    rw [hzero, sub_zero, abs_of_nonneg hax] at hzeroDist
    -- a value with a sign is as far as zero at least
    have hminus : ∀ j ≤ dtype.top, |clampedMag dtype x - -dtype.value j| =
        clampedMag dtype x + dtype.value j := by
      intro j hj
      have hnonneg := value_nonneg (R := R) hj
      rw [sub_neg_eq_add, abs_of_nonneg (by linarith)]
    subst hvalue
    refine ⟨⟨k, hk, Or.inl rfl⟩, fun j w hw => ?_, fun j j' w hv hw hne heq => ?_⟩
    · rw [saturate_of_nonneg hx]
      obtain ⟨hj, rfl | rfl⟩ := hw
      · exact hnearest j hj
      · have hnonneg := value_nonneg (R := R) hj
        rw [hminus j hj]
        linarith
    · rw [saturate_of_nonneg hx] at heq
      have hsame : j = k := by
        obtain ⟨hj, hv | hv⟩ := hv
        · exact (value_inj hk hj hv).symm
        · have hj0 := value_nonneg (R := R) hj
          have hk0 := value_nonneg (R := R) hk
          exact value_inj (R := R) hj hk (by linarith)
      subst hsame
      obtain ⟨hj', rfl | rfl⟩ := hw
      · exact heven j' hj' heq fun h => hne (congrArg dtype.value h)
      · have hj0 := value_nonneg (R := R) hj'
        rw [hminus j' hj'] at heq
        have hnull : (dtype.value j' : R) = 0 := by linarith
        refine heven 0 (Nat.zero_le _) ?_ fun h => hne ?_
        · rw [hzero, sub_zero, abs_of_nonneg hax]
          linarith
        · rw [← h, hzero, hnull, neg_zero]

/-- What is stored for a quotient and read again. -/
def coded (dtype : KvDtype) (x : R) : R := f8Value dtype (f8KvQuantByteDev x dtype)

omit [IsStrictOrderedRing R] in
theorem quantByte_eq (dtype : KvDtype) (x : R) : f8KvQuantByteDev x dtype =
    (if x < 0 then 0x80 else 0) ||| nearestEntry (f8Value dtype) dtype.top
      (clampedMag dtype x) := by
  cases dtype <;> rfl

omit [IsStrictOrderedRing R] in
/-- The sign is kept apart from the magnitude. -/
theorem coded_eq (dtype : KvDtype) (x : R) : coded dtype x =
    if x < 0 then -codedMag dtype (clampedMag dtype x)
    else codedMag dtype (clampedMag dtype x) := by
  unfold coded codedMag
  rw [quantByte_eq]
  split_ifs
  · exact f8Value_sign nearestEntry_le
  · rw [Nat.zero_or]

/-- Only magnitudes that are far below the greatest are out of place. -/
theorem misplaced_clampedMag : Misplaced dtype (clampedMag dtype x) ↔ Misplaced dtype |x| := by
  cases dtype with
  | e4m3 => exact Iff.rfl
  | e5m2 =>
    have hmax : (14 * 2 ^ (-17 : ℤ) : R) < f8KvMaxDev .e5m2 := by
      show (14 * 2 ^ (-17 : ℤ) : R) < 57344
      norm_num
    have hunit : (0 : R) < 2 ^ (-17 : ℤ) := zpow_pos two_pos _
    unfold clampedMag
    rcases le_total |x| (f8KvMaxDev .e5m2) with hle | hge
    · rw [min_eq_left hle]
    · rw [min_eq_right hge]
      refine iff_of_false ?_ ?_
      · rintro (⟨-, hlt⟩ | ⟨-, hlt⟩)
        · linarith
        · linarith
      · rintro (⟨-, hlt⟩ | ⟨-, hlt⟩)
        · linarith
        · linarith

/-- The quotients that are stored as their nearest value. -/
theorem rounds_coded_iff : Rounds dtype x (coded dtype x) ↔ ¬ Misplaced dtype |x| := by
  rw [← misplaced_clampedMag, ← codedMag_eq_nearestMag_iff (clampedMag_nonneg dtype x), coded_eq]
  rcases lt_or_ge x 0 with hneg | hnonneg
  · rw [if_pos hneg]
    have hclamped : clampedMag dtype (-x) = clampedMag dtype x := by
      unfold clampedMag
      rw [abs_neg]
    have hmirror : Rounds dtype x (-codedMag dtype (clampedMag dtype x)) ↔
        Rounds dtype (-x) (codedMag dtype (clampedMag dtype x)) := by
      constructor
      · intro h
        have hback := h.neg
        rwa [neg_neg] at hback
      · intro h
        have hback := h.neg
        rwa [neg_neg] at hback
    rw [hmirror, rounds_of_nonneg (neg_nonneg.2 hneg.le), hclamped]
  · rw [if_neg (not_lt.2 hnonneg), rounds_of_nonneg hnonneg]

/-- A value that has been given, with a sign. -/
def Given (dtype : KvDtype) (v : R) : Prop :=
  ∃ code ≤ dtype.top, dtype.Given code ∧ (v = dtype.value code ∨ v = -dtype.value code)

theorem coded_given (dtype : KvDtype) (x : R) : Given dtype (coded dtype x) := by
  obtain ⟨code, hcode, hgiven, hvalue, -⟩ := codedMag_given (clampedMag_nonneg dtype x)
  refine ⟨code, hcode, hgiven, ?_⟩
  rw [coded_eq, hvalue]
  split_ifs
  · exact Or.inr rfl
  · exact Or.inl rfl

theorem abs_le_max_of_given (h : Given dtype v) : |v| ≤ f8KvMaxDev dtype := by
  obtain ⟨code, hcode, -, rfl | rfl⟩ := h
  · rw [abs_of_nonneg (value_nonneg hcode), ← value_top]
    exact value_le hcode le_rfl
  · rw [abs_neg, abs_of_nonneg (value_nonneg hcode), ← value_top]
    exact value_le hcode le_rfl

/-- A value that has been given is coded without loss. -/
theorem coded_of_given (h : Given dtype v) : coded dtype v = v := by
  have habs := abs_le_max_of_given h
  obtain ⟨code, hcode, hgiven, hv⟩ := h
  have hnonneg := value_nonneg (R := R) hcode
  have hmag : clampedMag dtype v = dtype.value code := by
    unfold clampedMag
    rw [min_eq_left habs]
    obtain rfl | rfl := hv
    · exact abs_of_nonneg hnonneg
    · rw [abs_neg, abs_of_nonneg hnonneg]
  rw [coded_eq, hmag, codedMag_value hcode hgiven]
  obtain rfl | rfl := hv
  · exact if_neg (not_lt.2 hnonneg)
  · rcases hnonneg.eq_or_lt with hzero | hpos
    · rw [← hzero, neg_zero, if_neg (lt_irrefl 0)]
    · exact if_pos (neg_neg_of_pos hpos)

/-- Twice a value that has been given, where the format has it, is one that can be given too. -/
theorem Given.double (h : Given dtype v) (hle : 2 * |v| ≤ f8KvMaxDev dtype) :
    Given dtype (2 * v) := by
  obtain ⟨code, hcode, hgiven, hv⟩ := h
  have hnonneg := value_nonneg (R := R) hcode
  have habs : |v| = dtype.value code := by
    obtain rfl | rfl := hv
    · exact abs_of_nonneg hnonneg
    · rw [abs_neg, abs_of_nonneg hnonneg]
  have hhalf : code ≤ dtype.half := by
    by_contra hmore
    have hlt := value_lt (R := R) (not_le.1 hmore) hcode
    rw [habs, ← value_half] at hle
    linarith
  refine ⟨dtype.double code, (dtype.mag_double code (by omega)).2, given_double hhalf hgiven, ?_⟩
  rw [value_double hhalf]
  obtain rfl | rfl := hv
  · exact Or.inl rfl
  · exact Or.inr (by ring)

/-- A quotient of more than half the greatest value is not brought below that. -/
theorem le_abs_coded (h : f8KvMaxDev dtype ≤ 2 * |x|) :
    f8KvMaxDev dtype ≤ 2 * |coded dtype x| := by
  obtain ⟨code, hcode, -, hvalue, hhalf⟩ := codedMag_given (clampedMag_nonneg dtype x)
  have hpos := max_pos (R := R) dtype
  have htwice := value_half (R := R) dtype
  have hclamped : dtype.value dtype.half ≤ clampedMag dtype x := le_min (by linarith) (by linarith)
  have habs : |coded dtype x| = dtype.value code := by
    rw [coded_eq, hvalue]
    split_ifs
    · rw [abs_neg, abs_of_nonneg (value_nonneg hcode)]
    · exact abs_of_nonneg (value_nonneg hcode)
  have hle := value_le (R := R) (hhalf hclamped) hcode
  rw [habs]
  linarith

end Ds4.Tp.F8
