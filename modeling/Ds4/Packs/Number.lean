import Ds4.Bytes.Ascii

/-! The numeric fields of the pack indexes. -/
namespace Ds4.Packs

def digitsVal (s : Bytes) : ℕ := s.foldl (fun n c => 10 * n + (c.toNat - 48)) 0

/-- Blanks, a sign and digits, as `strtoull` and `strtoll` scan them. -/
structure Scanned where
  neg : Bool
  digits : Bytes
  rest : Bytes

def scanNumber (s : Bytes) : Option Scanned :=
  let t := s.dropWhile isSpace
  let u := if t.head? = some 45 ∨ t.head? = some 43 then t.tail else t
  if u.takeWhile isDigit = [] then none
  else some ⟨t.head? == some 45, u.takeWhile isDigit, u.dropWhile isDigit⟩

/-- A value, where the scan ended and whether `errno` was set. -/
structure Converted (α : Type) where
  value : α
  rest : Bytes
  erange : Bool

def strtoull (s : Bytes) : Converted ℕ :=
  match scanNumber s with
  | none => ⟨0, s, false⟩
  | some n =>
      if digitsVal n.digits < 2 ^ 64 then
        ⟨if n.neg then (2 ^ 64 - digitsVal n.digits) % 2 ^ 64 else digitsVal n.digits,
          n.rest, false⟩
      else ⟨2 ^ 64 - 1, n.rest, true⟩

def strtoll (s : Bytes) : Converted ℤ :=
  match scanNumber s with
  | none => ⟨0, s, false⟩
  | some n =>
      if n.neg then
        if digitsVal n.digits ≤ 2 ^ 63 then ⟨-(digitsVal n.digits), n.rest, false⟩
        else ⟨-2 ^ 63, n.rest, true⟩
      else if digitsVal n.digits < 2 ^ 63 then ⟨digitsVal n.digits, n.rest, false⟩
      else ⟨2 ^ 63 - 1, n.rest, true⟩

/-- Nothing may follow the number. -/
def Converted.whole {α : Type} (c : Converted α) : Option α :=
  if c.erange ∨ c.rest ≠ [] then none else some c.value

def parseU64Field (s : Bytes) : Option ℕ :=
  if s = [] ∨ s.head? = some 45 then none else (strtoull s).whole

def parseI64Field (s : Bytes) : Option ℤ := if s = [] then none else (strtoll s).whole

def parseI32Field (s : Bytes) : Option ℤ :=
  (parseI64Field s).filter fun v => -2 ^ 31 ≤ v ∧ v ≤ 2 ^ 31 - 1

def parseU32Field (s : Bytes) : Option ℕ := (parseU64Field s).filter fun v => v ≤ 2 ^ 32 - 1

/-- Digits only. -/
structure PlainDecimal (s : Bytes) (v : ℕ) : Prop where
  ne_nil : s ≠ []
  digits : ∀ c ∈ s, isDigit c = true
  val : digitsVal s = v

/-- Digits only, or a minus and digits. -/
inductive PlainInt : Bytes → ℤ → Prop
  | pos {s : Bytes} {n : ℕ} : PlainDecimal s n → PlainInt s n
  | neg {s : Bytes} {n : ℕ} : PlainDecimal s n → PlainInt (45 :: s) (-n)

/-- No blank and no plus in front. -/
def TidyNumber (s : Bytes) : Prop := ∀ c ∈ s.head?, isSpace c = false ∧ c ≠ 43

section Plain
variable {s : Bytes}

theorem digit_cases {c : UInt8} (h : isDigit c = true) :
    isSpace c = false ∧ c ≠ 45 ∧ c ≠ 43 := by
  revert h
  revert c
  decide +kernel

theorem scan_digits (h : ∀ c ∈ s, isDigit c = true) :
    s.takeWhile isDigit = s ∧ s.dropWhile isDigit = [] := by
  constructor
  · exact List.takeWhile_eq_self_iff.2 h
  · exact List.dropWhile_eq_nil_iff.2 h

theorem tidy_dropWhile (h : TidyNumber s) : s.dropWhile isSpace = s := by
  cases s with
  | nil => rfl
  | cons c s => rw [List.dropWhile_cons, (h c rfl).1, if_neg Bool.false_ne_true]

theorem tidy_not_plus (h : TidyNumber s) : s.head? ≠ some 43 := by
  intro hs
  exact (h 43 hs).2 rfl

/-- Without a minus the scan takes the digits in front. -/
theorem scanNumber_plain (h : TidyNumber s) (hm : s.head? ≠ some 45) :
    scanNumber s = if s.takeWhile isDigit = [] then none
      else some ⟨false, s.takeWhile isDigit, s.dropWhile isDigit⟩ := by
  have hneg : (s.head? == some 45) = false := beq_eq_false_iff_ne.2 hm
  rw [scanNumber, tidy_dropWhile h, if_neg (not_or.2 ⟨hm, tidy_not_plus h⟩), hneg]

theorem scanNumber_minus :
    scanNumber (45 :: s) = if s.takeWhile isDigit = [] then none
      else some ⟨true, s.takeWhile isDigit, s.dropWhile isDigit⟩ := by
  have hblank : isSpace 45 = false := by decide
  rw [scanNumber, List.dropWhile_cons, hblank]
  simp

/-- The digits in front are all of the field, and there are some. -/
theorem plain_iff_scan {v : ℕ} : PlainDecimal s v ↔
    s.takeWhile isDigit ≠ [] ∧ s.dropWhile isDigit = [] ∧ digitsVal (s.takeWhile isDigit) = v := by
  constructor
  · rintro ⟨hne, hd, hv⟩
    obtain ⟨htake, hdrop⟩ := scan_digits hd
    rw [htake]
    exact ⟨hne, hdrop, hv⟩
  · rintro ⟨hne, hdrop, hv⟩
    have hd := List.dropWhile_eq_nil_iff.1 hdrop
    rw [(scan_digits hd).1] at hne hv
    exact ⟨hne, hd, hv⟩

theorem parseU64Field_iff (h : TidyNumber s) {v : ℕ} :
    parseU64Field s = some v ↔ PlainDecimal s v ∧ v < 2 ^ 64 := by
  by_cases hs : s = [] ∨ s.head? = some 45
  · rw [parseU64Field, if_pos hs]
    apply iff_of_false (by simp)
    rintro ⟨⟨hne, hd, -⟩, -⟩
    rcases hs with rfl | hs
    · exact hne rfl
    · exact (digit_cases (hd 45 (List.mem_of_mem_head? hs))).2.1 rfl
  · rw [parseU64Field, if_neg hs, plain_iff_scan, strtoull,
      scanNumber_plain h fun hm => hs (Or.inr hm)]
    have hne : s ≠ [] := fun hnil => hs (Or.inl hnil)
    by_cases hd : s.takeWhile isDigit = []
    · simp [hd, Converted.whole, hne]
    · by_cases hlt : digitsVal (s.takeWhile isDigit) < 2 ^ 64
      · simp only [hd, if_false, hlt, if_true, Converted.whole, Bool.false_eq_true, false_or, ne_eq,
          not_false_eq_true, true_and]
        by_cases hr : s.dropWhile isDigit = []
        · simp only [hr, not_true_eq_false, if_false, Option.some.injEq, true_and]
          constructor
          · rintro rfl
            exact ⟨rfl, hlt⟩
          · exact fun hv => hv.1
        · simp [hr]
      · simp only [hd, if_false, hlt, Converted.whole, true_or, if_true, ne_eq, not_false_eq_true,
          true_and]
        apply iff_of_false (by simp)
        rintro ⟨⟨-, rfl⟩, hv⟩
        exact hlt hv

/-- What a signed number is, by its digits and its sign. -/
def signedOf (neg : Bool) (n : ℕ) : Option ℤ :=
  if neg then if n ≤ 2 ^ 63 then some (-n) else none else if n < 2 ^ 63 then some n else none

theorem strtoll_whole {neg : Bool} {t : Bytes} (hne : s ≠ [])
    (h : scanNumber s = if t.takeWhile isDigit = [] then none
      else some ⟨neg, t.takeWhile isDigit, t.dropWhile isDigit⟩) (v : ℤ) :
    (strtoll s).whole = some v ↔ ∃ n, PlainDecimal t n ∧ signedOf neg n = some v := by
  simp only [plain_iff_scan]
  rw [strtoll, h]
  generalize t.takeWhile isDigit = ds
  generalize t.dropWhile isDigit = rest
  by_cases hd : ds = []
  · simp [hd, Converted.whole, hne]
  · rw [if_neg hd]
    have hout : ∀ b : Bool, ∀ x : ℤ, (Converted.whole ⟨x, rest, b⟩ = some v ↔
        b = false ∧ rest = [] ∧ x = v) := by
      intro b x
      by_cases hr : rest = [] <;> cases b <;> simp [Converted.whole, hr]
    constructor
    · intro hv
      refine ⟨digitsVal ds, ?_⟩
      simp only at hv
      rw [signedOf]
      split_ifs at hv ⊢ <;> rw [hout] at hv <;> simp_all
    · rintro ⟨n, ⟨-, hr, rfl⟩, hv⟩
      rw [signedOf] at hv
      simp only
      split_ifs at hv ⊢ <;> rw [hout] <;> simp_all

theorem parseI64Field_iff (h : TidyNumber s) {v : ℤ} :
    parseI64Field s = some v ↔ PlainInt s v ∧ -2 ^ 63 ≤ v ∧ v ≤ 2 ^ 63 - 1 := by
  by_cases hs : s = []
  · rw [parseI64Field, if_pos hs]
    apply iff_of_false (by simp)
    rintro ⟨hint, -⟩
    subst hs
    cases hint with
    | pos hp => exact hp.ne_nil rfl
  rw [parseI64Field, if_neg hs]
  by_cases hm : s.head? = some 45
  · obtain ⟨t, rfl⟩ : ∃ t, s = 45 :: t := by
      cases s with
      | nil => cases hm
      | cons c t => exact ⟨t, by rw [Option.some.inj hm]⟩
    rw [strtoll_whole hs scanNumber_minus]
    constructor
    · rintro ⟨n, hp, hv⟩
      rw [signedOf, if_pos rfl] at hv
      split_ifs at hv with hle
      cases hv
      refine ⟨.neg hp, ?_⟩
      omega
    · rintro ⟨hint, hge, hle⟩
      cases hint with
      | pos hp => exact absurd rfl (digit_cases (hp.digits 45 List.mem_cons_self)).2.1
      | @neg _ n hp =>
        refine ⟨n, hp, ?_⟩
        rw [signedOf, if_pos rfl, if_pos (by omega)]
  · rw [strtoll_whole hs (scanNumber_plain h hm)]
    constructor
    · rintro ⟨n, hp, hv⟩
      rw [signedOf, if_neg Bool.false_ne_true] at hv
      split_ifs at hv with hlt
      cases hv
      refine ⟨.pos hp, ?_⟩
      omega
    · rintro ⟨hint, hge, hle⟩
      cases hint with
      | @pos _ n hp =>
        refine ⟨n, hp, ?_⟩
        rw [signedOf, if_neg Bool.false_ne_true, if_pos (by omega)]
      | neg hp => exact absurd rfl hm

theorem parseI32Field_iff (h : TidyNumber s) {v : ℤ} :
    parseI32Field s = some v ↔ PlainInt s v ∧ -2 ^ 31 ≤ v ∧ v ≤ 2 ^ 31 - 1 := by
  rw [parseI32Field, Option.filter_eq_some_iff, parseI64Field_iff h, and_assoc]
  simp only [decide_eq_true_eq]
  constructor
  · rintro ⟨hp, -, hv⟩
    exact ⟨hp, hv⟩
  · rintro ⟨hp, hv⟩
    exact ⟨hp, by omega, hv⟩

end Plain

end Ds4.Packs
