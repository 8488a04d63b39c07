import Ds4.Context.Policy
import Ds4.Packs.IndexFormat
import Mathlib.Algebra.Order.BigOperators.GroupWithZero.List
import Mathlib.Data.Nat.Digits.Lemmas

/-! The text of a shape: how the loader prints it and what the context reads of it. -/
namespace Ds4.Context
open Ds4.Packs (printDecimal digitsVal PlainDecimal)

/-- The loop of `tensor_shape_string` over the buffer of 128 bytes; without a result the text is
too long. -/
def shapeStringLoop : ℕ → List ℕ → Bytes → Option Bytes
  | _, [], tmp => if 128 < tmp.length + 2 then none else some (tmp ++ [93])
  | i, dim :: dims, tmp =>
      let piece := (if i = 0 then [] else [120]) ++ printDecimal dim
      if 128 - tmp.length ≤ piece.length then none else shapeStringLoop (i + 1) dims (tmp ++ piece)

/-- `tensor_shape_string`. -/
def tensorShapeString (dims : List ℕ) : Option Bytes := shapeStringLoop 0 dims [91]

/-- Numerals with an `x` between them and the bracket behind the last. -/
def joinNumerals : List Bytes → Bytes
  | [] => [93]
  | [numeral] => numeral ++ [93]
  | numeral :: rest => numeral ++ 120 :: joinNumerals rest

/-- Numerals with an `x` behind each. -/
def trailNumerals (numerals : List Bytes) : Bytes :=
  numerals.flatMap (fun numeral => numeral ++ [120]) ++ [93]

section Digits
variable {s rest : Bytes} {n : ℕ}

/-- The value of digits behind a number. -/
def digitsFrom (n : ℕ) (s : Bytes) : ℕ := s.foldl (fun n c => 10 * n + (c.toNat - 48)) n

theorem le_digitsFrom (s : Bytes) : ∀ n, n ≤ digitsFrom n s := by
  induction s with
  | nil => exact fun n => le_rfl
  | cons c s ih =>
    intro n
    have h := ih (10 * n + (c.toNat - 48))
    show n ≤ digitsFrom (10 * n + (c.toNat - 48)) s
    omega

theorem digit_le {c : UInt8} (h : isDigit c = true) : c.toNat - 48 ≤ 9 := by
  unfold isDigit at h
  rw [Bool.and_eq_true, decide_eq_true_iff, decide_eq_true_iff, UInt8.le_iff_toNat_le,
    UInt8.le_iff_toNat_le] at h
  have h57 : (57 : UInt8).toNat = 57 := rfl
  omega

/-- Digits that no digit follows are read to their end, unless their value leaves the 64 bits. -/
theorem readDim_digits (hrest : ∀ c ∈ rest.head?, isDigit c = false) (s : Bytes) :
    ∀ n ≤ maxU64, (∀ c ∈ s, isDigit c = true) → readDim n (s ++ rest) =
      if digitsFrom n s ≤ maxU64 then some (digitsFrom n s, rest) else none := by
  induction s with
  | nil =>
    intro n hn _
    rw [List.nil_append]
    show _ = if n ≤ maxU64 then some (n, rest) else none
    rw [if_pos hn]
    cases rest with
    | nil => rw [readDim]
    | cons c rest =>
      rw [readDim, hrest c rfl]
      rfl
  | cons c s ih =>
    intro n hn hs
    have hc := hs c List.mem_cons_self
    have hle := digit_le hc
    have hvalue : digitsFrom n (c :: s) = digitsFrom (10 * n + (c.toNat - 48)) s := rfl
    have hmax : maxU64 = 18446744073709551615 := rfl
    rw [List.cons_append, readDim, hc, if_pos rfl, hvalue]
    by_cases hover : (maxU64 - (c.toNat - 48)) / 10 < n
    · rw [if_pos hover, if_neg]
      have h := le_digitsFrom s (10 * n + (c.toNat - 48))
      omega
    · rw [if_neg hover, Nat.mul_comm n 10]
      exact ih _ (by omega) fun x hx => hs x (List.mem_cons_of_mem c hx)

/-- What was read of a dimension. -/
theorem readDim_some (s : Bytes) : ∀ n m, readDim n s = some (m, rest) →
    ∃ digits, s = digits ++ rest ∧ (∀ c ∈ digits, isDigit c = true) ∧ m = digitsFrom n digits ∧
      ∀ c ∈ rest.head?, isDigit c = false := by
  induction s with
  | nil =>
    intro n m h
    rw [readDim] at h
    cases h
    refine ⟨[], rfl, ?_, rfl, ?_⟩
    · intro c hc
      cases hc
    · intro c hc
      cases hc
  | cons c s ih =>
    intro n m h
    rw [readDim] at h
    by_cases hc : isDigit c = true
    · rw [if_pos hc] at h
      split_ifs at h
      obtain ⟨digits, rfl, hdigits, rfl, hrest⟩ := ih _ m h
      refine ⟨c :: digits, rfl, ?_, ?_, hrest⟩
      · intro x hx
        rcases List.mem_cons.1 hx with rfl | hx
        · exact hc
        · exact hdigits x hx
      · rw [Nat.mul_comm n 10]
        rfl
    · rw [if_neg hc] at h
      cases h
      refine ⟨[], rfl, ?_, rfl, ?_⟩
      · intro x hx
        cases hx
      · intro x hx
        cases hx
        exact Bool.eq_false_iff.2 hc

end Digits

section Shape
variable {numerals : List Bytes} {dims : List ℕ}

theorem length_joinNumerals (numerals : List Bytes) : 0 < (joinNumerals numerals).length := by
  cases numerals with
  | nil => exact Nat.one_pos
  | cons numeral rest =>
    cases rest with
    | nil =>
      rw [joinNumerals, List.length_append]
      exact Nat.succ_pos _
    | cons next rest =>
      have hjoin : joinNumerals (numeral :: next :: rest) =
          numeral ++ 120 :: joinNumerals (next :: rest) := rfl
      rw [hjoin, List.length_append, List.length_cons]
      omega

theorem prod_pos {dims : List ℕ} (h : 0 ∉ dims) : 0 < dims.prod :=
  List.prod_pos fun _ hd => Nat.pos_of_ne_zero fun h0 => h (h0 ▸ hd)

/-- The loop of `parse_shape_dims` behind a dimension. -/
def afterDim (fuel product : ℕ) (read : List ℕ) : Bytes → Option (List ℕ × ℕ)
  | 120 :: rest => shapeDims fuel rest product read
  | 93 :: rest => shapeDims fuel (93 :: rest) product read
  | _ => none

/-- One dimension, whose numeral is read. -/
theorem shapeDims_cons {numeral rest : Bytes} {dim : ℕ} (hnumeral : PlainDecimal numeral dim)
    (hdim : dim ≠ 0) (hrest : ∀ c ∈ rest.head?, isDigit c = false) (fuel product : ℕ)
    (read : List ℕ) :
    shapeDims (fuel + 1) (numeral ++ rest) product read =
      if product * dim ≤ maxU64 ∧ dim ≤ maxU64 ∧ read.length < maxShapeDims then
        afterDim fuel (product * dim) (read ++ [dim]) rest
      else none := by
  have hpos := Nat.pos_of_ne_zero hdim
  have hvalue : digitsFrom 0 numeral = dim := hnumeral.val
  obtain ⟨c, s, hcs⟩ := List.exists_cons_of_ne_nil hnumeral.ne_nil
  have hc : isDigit c = true := hnumeral.digits c (hcs ▸ List.mem_cons_self)
  have h93 : c ≠ 93 := by
    rintro rfl
    cases hc
  have hread := readDim_digits hrest numeral 0 (Nat.zero_le _) hnumeral.digits
  rw [hvalue] at hread
  have hcons : numeral ++ rest = c :: (s ++ rest) := by rw [hcs, List.cons_append]
  rw [hcons] at hread ⊢
  have hdiv : maxU64 / dim < product ↔ ¬ product * dim ≤ maxU64 := by
    rw [Nat.div_lt_iff_lt_mul hpos]
    omega
  rw [shapeDims, if_neg h93, if_neg (by rw [hc]; exact Bool.true_eq_false_eq_False), hread]
  by_cases hle : dim ≤ maxU64
  · rw [if_pos hle]
    simp only
    by_cases hprod : product * dim ≤ maxU64
    · rw [if_neg (not_or.2 ⟨hdim, fun h => hdiv.1 h hprod⟩)]
      by_cases hcap : maxShapeDims ≤ read.length
      · rw [if_pos hcap, if_neg]
        omega
      · rw [if_neg hcap, if_pos ⟨hprod, hle, not_le.1 hcap⟩]
        unfold afterDim
        split <;> simp_all
    · rw [if_pos (Or.inr (hdiv.2 hprod)), if_neg]
      exact fun h => hprod h.1
  · rw [if_neg hle, if_neg]
    exact fun h => hle h.2.1

/-- The dimensions of joined numerals are read, unless there are too many or their product leaves
the 64 bits. -/
theorem shapeDims_join (hplain : numerals.Forall₂ PlainDecimal dims) :
    ∀ (fuel product : ℕ) (read : List ℕ), (joinNumerals numerals).length ≤ fuel →
    0 < product → 0 ∉ dims → read ++ dims ≠ [] → product ≤ maxU64 → read.length ≤ maxShapeDims →
    shapeDims fuel (joinNumerals numerals) product read =
      if product * dims.prod ≤ maxU64 ∧ read.length + dims.length ≤ maxShapeDims then
        some (read ++ dims, product * dims.prod)
      else none := by
  induction hplain with
  | nil =>
    intro fuel product read hfuel _ _ hread hprod hcap
    obtain ⟨fuel, rfl⟩ := Nat.exists_eq_succ_of_ne_zero (Nat.pos_iff_ne_zero.1 hfuel)
    rw [List.append_nil] at hread ⊢
    rw [joinNumerals, shapeDims, if_pos rfl, if_pos ⟨rfl, hread⟩, List.prod_nil, Nat.mul_one,
      if_pos ⟨hprod, hcap⟩]
  | @cons numeral dim numerals dims hnumeral hplain ih =>
    intro fuel product read hfuel hpos hzero _ hprod hcap
    rw [List.mem_cons, not_or] at hzero
    have hdim : dim ≠ 0 := Ne.symm hzero.1
    have hdims := prod_pos hzero.2
    have hlen := length_joinNumerals numerals
    have hnil := List.length_pos_iff.2 hnumeral.ne_nil
    -- what follows the numeral: the bracket, or an x and the other numerals
    obtain ⟨rest, hjoin, hrest, hlenRest, hafter⟩ : ∃ rest, joinNumerals (numeral :: numerals) =
        numeral ++ rest ∧ (∀ c ∈ rest.head?, isDigit c = false) ∧
        (joinNumerals numerals).length ≤ rest.length ∧ ∀ fuel product read,
          afterDim fuel product read rest =
            shapeDims fuel (joinNumerals numerals) product read := by
      cases numerals with
      | nil =>
        refine ⟨[93], rfl, ?_, le_rfl, fun _ _ _ => rfl⟩
        intro c hc
        cases hc
        rfl
      | cons next numerals =>
        refine ⟨120 :: joinNumerals (next :: numerals), rfl, ?_, Nat.le_succ _, fun _ _ _ => rfl⟩
        intro c hc
        cases hc
        rfl
    rw [hjoin, List.length_append] at hfuel
    obtain ⟨fuel, rfl⟩ : ∃ k, fuel = k + 1 := Nat.exists_eq_succ_of_ne_zero (by omega)
    rw [hjoin, shapeDims_cons hnumeral hdim hrest, List.prod_cons, ← Nat.mul_assoc,
      List.length_cons, hafter]
    have hle : product * dim ≤ product * dim * dims.prod := Nat.le_mul_of_pos_right _ hdims
    have hdimle : dim ≤ product * dim := Nat.le_mul_of_pos_left _ hpos
    by_cases hstep : product * dim ≤ maxU64 ∧ read.length < maxShapeDims
    · rw [if_pos ⟨hstep.1, hdimle.trans hstep.1, hstep.2⟩, ih fuel (product * dim) (read ++ [dim])
        (by omega) (Nat.mul_pos hpos (Nat.pos_of_ne_zero hdim)) hzero.2 (by simp) hstep.1
        (by rw [List.length_append]; exact hstep.2)]
      simp only [List.length_append, List.length_cons, List.length_nil, List.append_assoc,
        List.singleton_append]
      congr 2
      rw [Nat.zero_add, Nat.add_right_comm, Nat.add_assoc]
    · rw [if_neg, if_neg]
      · rintro ⟨hall, hcount⟩
        exact hstep ⟨hle.trans hall, by omega⟩
      · rintro ⟨hall, -, hcount⟩
        exact hstep ⟨hall, hcount⟩

theorem trailNumerals_cons (numeral : Bytes) (numerals : List Bytes) :
    trailNumerals (numeral :: numerals) = numeral ++ 120 :: trailNumerals numerals := by
  unfold trailNumerals
  rw [List.flatMap_cons, List.append_assoc, List.append_assoc]
  rfl

theorem head_joinNumerals (c : UInt8) (s : Bytes) (numerals : List Bytes) :
    (joinNumerals ((c :: s) :: numerals)).head? = some c := by
  cases numerals <;> rfl

/-- What the loop has read: numerals, with an `x` between them or behind each. -/
structure ReadShape (s : Bytes) (product : ℕ) (read : List ℕ) (numerals : List Bytes)
    (dims : List ℕ) : Prop where
  plain : numerals.Forall₂ PlainDecimal dims
  text : s = joinNumerals numerals ∨ s = trailNumerals numerals
  nonzero : 0 ∉ dims
  product_le : product * dims.prod ≤ maxU64
  length_le : read.length + dims.length ≤ maxShapeDims

theorem shapeDims_some (fuel : ℕ) : ∀ (s : Bytes) (product : ℕ) (read all : List ℕ) (n : ℕ),
    product ≤ maxU64 → read.length ≤ maxShapeDims →
    shapeDims fuel s product read = some (all, n) →
    ∃ numerals dims, ReadShape s product read numerals dims ∧ all = read ++ dims ∧
      n = product * dims.prod ∧ all ≠ [] := by
  induction fuel with
  | zero =>
    intro s product read all n _ _ h
    rw [shapeDims] at h
    cases h
  | succ fuel ih =>
    intro s product read all n hprod hcap h
    cases s with
    | nil =>
      rw [shapeDims] at h
      cases h
    | cons c s =>
      rw [shapeDims] at h
      by_cases h93 : c = 93
      · rw [if_pos h93] at h
        split_ifs at h with hend
        cases h
        refine ⟨[], [], ⟨List.Forall₂.nil, Or.inl ?_, by simp, ?_, hcap⟩, ?_, ?_, hend.2⟩
        · rw [h93, hend.1]
          rfl
        · rwa [List.prod_nil, Nat.mul_one]
        · rw [List.append_nil]
        · rw [List.prod_nil, Nat.mul_one]
      · rw [if_neg h93] at h
        by_cases hc : isDigit c = false
        · rw [if_pos hc] at h
          cases h
        rw [if_neg hc] at h
        cases hread : readDim 0 (c :: s) with
        | none =>
          rw [hread] at h
          cases h
        | some r =>
          obtain ⟨dim, rest⟩ := r
          rw [hread] at h
          simp only at h
          obtain ⟨digits, hs, hdigits, hvalue, hrest⟩ := readDim_some _ _ _ hread
          have hne : digits ≠ [] := by
            rintro rfl
            rw [List.nil_append] at hs
            exact hc (hrest c (by rw [← hs]; rfl))
          have hplain : PlainDecimal digits dim := ⟨hne, hdigits, hvalue.symm⟩
          split_ifs at h with hdim hfull
          rw [not_or] at hdim
          have hpos := Nat.pos_of_ne_zero hdim.1
          have hstep : product * dim ≤ maxU64 := by
            by_contra hover
            exact hdim.2 ((Nat.div_lt_iff_lt_mul hpos).2 (by omega))
          have hlen : (read ++ [dim]).length ≤ maxShapeDims := by
            rw [List.length_append]
            exact not_le.1 hfull
          -- what was read behind the numeral
          have hafter : ∀ rest', shapeDims fuel rest' (product * dim) (read ++ [dim]) =
              some (all, n) → (∀ numerals dims, ReadShape rest' (product * dim) (read ++ [dim])
                numerals dims → c :: s = joinNumerals (digits :: numerals) ∨
                  c :: s = trailNumerals (digits :: numerals)) →
              ∃ numerals dims, ReadShape (c :: s) product read numerals dims ∧
                all = read ++ dims ∧ n = product * dims.prod ∧ all ≠ [] := by
            intro rest' h' htext
            obtain ⟨numerals, dims, hshape, hall, hn, hne'⟩ := ih rest' _ _ all n hstep hlen h'
            refine ⟨digits :: numerals, dim :: dims, ⟨List.Forall₂.cons hplain hshape.plain,
              htext numerals dims hshape, ?_, ?_, ?_⟩, ?_, ?_, hne'⟩
            · rw [List.mem_cons, not_or]
              exact ⟨Ne.symm hdim.1, hshape.nonzero⟩
            · rw [List.prod_cons, ← Nat.mul_assoc]
              exact hshape.product_le
            · have hle := hshape.length_le
              rw [List.length_append, List.length_singleton] at hle
              rw [List.length_cons]
              omega
            · rw [hall, List.append_assoc, List.singleton_append]
            · rw [hn, List.prod_cons, Nat.mul_assoc]
          split at h
          · -- an x
            rename_i rest'
            apply hafter rest' h
            intro numerals dims hshape
            rw [hs]
            rcases hshape.text with rfl | rfl
            · cases numerals with
              | nil => exact Or.inr (trailNumerals_cons digits []).symm
              | cons next numerals => exact Or.inl rfl
            · exact Or.inr (trailNumerals_cons digits numerals).symm
          · -- the bracket
            rename_i t
            apply hafter (93 :: t) h
            intro numerals dims hshape
            rw [hs]
            cases hshape.plain with
            | nil =>
              left
              have hend : 93 :: t = [93] := by
                rcases hshape.text with h' | h'
                · exact h'
                · exact h'
              rw [hend]
              rfl
            | cons hnumeral _ =>
              exfalso
              obtain ⟨x, u, hx⟩ := List.exists_cons_of_ne_nil hnumeral.ne_nil
              have hx93 : (93 :: t).head? = some x := by
                rcases hshape.text with h' | h'
                · rw [h', hx]
                  exact head_joinNumerals x u _
                · rw [h', hx]
                  rfl
              cases hx93
              have hdigit := hnumeral.digits 93 (hx ▸ List.mem_cons_self)
              cases hdigit
          · cases h

end Shape

section Printed

/-- The value of printed digits. -/
theorem digitsVal_reverse (l : List ℕ) (h : ∀ d ∈ l, d < 10) :
    digitsVal (l.reverse.map fun d => (48 + d).toUInt8) = Nat.ofDigits 10 l := by
  induction l with
  | nil => rfl
  | cons d l ih =>
    have hd := h d List.mem_cons_self
    have hbyte : (48 + d).toUInt8.toNat - 48 = d := by
      rw [UInt8.toNat_ofNat']
      omega
    rw [List.reverse_cons, List.map_append, List.map_singleton, Nat.ofDigits_cons,
      ← ih fun x hx => h x (List.mem_cons_of_mem d hx)]
    unfold digitsVal
    rw [List.foldl_append, List.foldl_cons, List.foldl_nil, hbyte]
    exact Nat.add_comm _ _

theorem printDecimal_plain (n : ℕ) : PlainDecimal (printDecimal n) n := by
  refine ⟨?_, fun c hc => Packs.printDecimal_digit hc, ?_⟩
  · unfold printDecimal
    split_ifs with h
    · simp
    · simp [Nat.digits_ne_nil_iff_ne_zero.2 h]
  · unfold printDecimal
    split_ifs with h
    · rw [h]
      rfl
    · rw [digitsVal_reverse _ fun d hd => Nat.digits_lt_base (by norm_num) hd, Nat.ofDigits_digits]

/-- A number of 64 bits has at most 20 digits. -/
theorem length_printDecimal {n : ℕ} (h : n ≤ maxU64) : (printDecimal n).length ≤ 20 := by
  unfold printDecimal
  split_ifs
  · simp
  · rw [List.length_map, List.length_reverse, Nat.digits_length_le_iff (by norm_num)]
    unfold maxU64 at h
    omega

end Printed

end Ds4.Context
