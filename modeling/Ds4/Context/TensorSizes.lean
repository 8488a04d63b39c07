import Ds4.Context.PackBind
import Ds4.Context.ShapeText
import Ds4.Gguf.Sizes

/-! The sizes of tensors as the loader and the context compute them. -/
namespace Ds4.Context
open Ds4.Packs (printDecimal PlainDecimal add64)
open Ds4.Gguf (tensorType tensorNbytes)

section Text
variable {numerals : List Bytes} {dims : List ℕ} {s : Bytes}

/-- What the parser makes of joined numerals. -/
theorem parseShapeDims_join (hplain : numerals.Forall₂ PlainDecimal dims) (hne : dims ≠ [])
    (hzero : 0 ∉ dims) : parseShapeDims (91 :: joinNumerals numerals) =
      if dims.prod ≤ maxU64 ∧ dims.length ≤ maxShapeDims then some (dims, dims.prod) else none := by
  have h := shapeDims_join hplain ((joinNumerals numerals).length + 1) 1 [] (Nat.le_succ _)
    Nat.one_pos hzero (by simpa using hne) (by decide) (Nat.zero_le _)
  rw [Nat.one_mul, List.length_nil, Nat.zero_add, List.nil_append] at h
  exact h

theorem trail_suffix (hne : numerals ≠ []) : [120, 93] <:+ trailNumerals numerals := by
  obtain ⟨init, last, rfl⟩ := (List.eq_nil_or_concat numerals).resolve_left hne
  refine ⟨init.flatMap (fun numeral => numeral ++ [120]) ++ last, ?_⟩
  unfold trailNumerals
  simp

/-- Without an `x` in front of the bracket, what is accepted is a bracketed list of one to four
numerals that are not zero, whose product fits. -/
theorem parseShapeDims_iff (hs : ¬ [120, 93] <:+ s) {n : ℕ} :
    parseShapeDims s = some (dims, n) ↔ ∃ numerals, numerals.Forall₂ PlainDecimal dims ∧
      s = 91 :: joinNumerals numerals ∧ (dims ≠ [] ∧ dims.length ≤ maxShapeDims ∧ 0 ∉ dims) ∧
      dims.prod ≤ maxU64 ∧ n = dims.prod := by
  constructor
  · intro h
    unfold parseShapeDims at h
    split at h
    · rename_i t
      obtain ⟨numerals, dims', hshape, rfl, hn, hne⟩ := shapeDims_some _ t 1 [] dims n (by decide)
        (Nat.zero_le _) h
      have hprod := hshape.product_le
      have hlen := hshape.length_le
      rw [Nat.one_mul] at hprod hn
      rw [List.length_nil, Nat.zero_add] at hlen
      refine ⟨numerals, hshape.plain, ?_, ⟨hne, hlen, hshape.nonzero⟩, hprod, hn⟩
      rcases hshape.text with rfl | rfl
      · rfl
      · have hnumerals : numerals ≠ [] := by
          rintro rfl
          exact hne (List.forall₂_nil_left_iff.1 hshape.plain)
        exact absurd ((trail_suffix hnumerals).trans (List.suffix_cons 91 _)) hs
    · cases h
  · rintro ⟨numerals, hplain, rfl, ⟨hne, hlen, hzero⟩, hprod, rfl⟩
    rw [parseShapeDims_join hplain hne hzero, if_pos ⟨hprod, hlen⟩]

theorem joinNumerals_cons (numeral : Bytes) (numerals : List Bytes) :
    joinNumerals (numeral :: numerals) =
      numeral ++ (numerals.flatMap (fun x => 120 :: x) ++ [93]) := by
  induction numerals generalizing numeral with
  | nil => rfl
  | cons next numerals ih =>
    have hjoin : joinNumerals (numeral :: next :: numerals) =
        numeral ++ 120 :: joinNumerals (next :: numerals) := rfl
    rw [hjoin, ih next, List.flatMap_cons]
    simp

/-- Dimensions that fit the buffer are printed behind each other. -/
theorem shapeStringLoop_some (dims : List ℕ) : ∀ (i : ℕ) (tmp : Bytes), i ≠ 0 →
    (∀ d ∈ dims, d ≤ maxU64) → tmp.length + 21 * dims.length + 2 ≤ 128 →
    shapeStringLoop i dims tmp =
      some (tmp ++ ((dims.map printDecimal).flatMap (fun x => 120 :: x) ++ [93])) := by
  induction dims with
  | nil =>
    intro i tmp _ _ hlen
    rw [shapeStringLoop, if_neg (by simpa using hlen)]
    rfl
  | cons d dims ih =>
    intro i tmp hi hd hlen
    have hprint := length_printDecimal (hd d List.mem_cons_self)
    rw [List.length_cons] at hlen
    rw [shapeStringLoop, if_neg hi, if_neg, ih (i + 1) _ (Nat.succ_ne_zero i)
      (fun x hx => hd x (List.mem_cons_of_mem d hx))]
    · simp
    · rw [List.length_append, List.length_append, List.length_singleton]
      omega
    · rw [List.length_append, List.length_singleton]
      omega

/-- One to four dimensions of 64 bits are printed. -/
theorem tensorShapeString_some (hne : dims ≠ []) (hlen : dims.length ≤ maxShapeDims)
    (hd : ∀ d ∈ dims, d ≤ maxU64) :
    tensorShapeString dims = some (91 :: joinNumerals (dims.map printDecimal)) := by
  obtain ⟨d, rest, rfl⟩ := List.exists_cons_of_ne_nil hne
  have hprint := length_printDecimal (hd d List.mem_cons_self)
  have hmax : maxShapeDims = 4 := rfl
  rw [List.length_cons] at hlen
  unfold tensorShapeString
  rw [shapeStringLoop, if_pos rfl, List.nil_append, if_neg,
    shapeStringLoop_some rest 1 _ Nat.one_ne_zero
    (fun x hx => hd x (List.mem_cons_of_mem d hx)), List.map_cons, joinNumerals_cons]
  · simp
  · rw [List.length_append, List.length_singleton]
    omega
  · rw [List.length_singleton]
    omega

theorem printed_plain (dims : List ℕ) :
    (dims.map printDecimal).Forall₂ PlainDecimal dims := by
  rw [List.forall₂_map_left_iff]
  exact List.forall₂_same.2 fun d _ => printDecimal_plain d

end Text

section Sizes
variable {n : ℕ}

/-- Elements that are no blocks have one size for both. -/
theorem sourceBytes_plain (hn : n ≤ maxU64) : sourceBytes .f32 n = tensorNbytes 0 n ∧
    sourceBytes .i32 n = tensorNbytes 26 n ∧ sourceBytes .bf16 n = tensorNbytes 30 n := by
  have hmax : maxU64 = 2 ^ 64 - 1 := rfl
  have hone : Gguf.u64 (n + 1 - 1) / 1 = n := by
    unfold Gguf.u64
    omega
  have hfour : (if maxU64 / 4 < n then none else some (n * 4)) =
      if maxU64 / 4 < n then none else some (Gguf.u64 (n * 4)) := by
    unfold Gguf.u64
    split_ifs
    · rfl
    · congr 1
      omega
  have htwo : (if maxU64 / 2 < n then none else some (n * 2)) =
      if maxU64 / 2 < n then none else some (Gguf.u64 (n * 2)) := by
    unfold Gguf.u64
    split_ifs
    · rfl
    · congr 1
      omega
  unfold sourceBytes tensorNbytes tensorType
  simp only [Nat.one_ne_zero, if_false]
  rw [hone]
  exact ⟨hfour, hfour, htwo⟩

/-- Whole blocks of the float format have one size for both. -/
theorem sourceBytes_f8 (hn : n ≤ maxU64) (hblock : n % 128 = 0) :
    sourceBytes .f8E4m3B128 n = tensorNbytes 42 n := by
  have hmax : maxU64 = 2 ^ 64 - 1 := rfl
  have hmod : (n + 127) % 2 ^ 64 = n + 127 := Nat.mod_eq_of_lt (by omega)
  have hblocks : (n + 128 - 1) % 2 ^ 64 / 128 = n / 128 := by
    rw [Nat.mod_eq_of_lt (by omega)]
    omega
  have hscales : (n + 127) % 2 ^ 64 / 128 = n / 128 := by
    rw [hmod]
    omega
  unfold sourceBytes tensorNbytes tensorType add64 Gguf.u64
  simp only [OfNat.ofNat_ne_zero, if_false]
  rw [hblocks, hscales]
  split_ifs
  · rfl
  · omega
  · omega
  · congr 1
    rw [Nat.mod_eq_of_lt (by omega)]
    omega

/-- Blocks of the microscaled format that are not whole, or that leave the 64 bits on the way to
their size, are rejected by the context. -/
theorem sourceBytes_mxfp4 (hn : n ≤ maxU64) : sourceBytes .mxfp4 n =
    if n % 32 = 0 ∧ n * 17 ≤ maxU64 then tensorNbytes 39 n else none := by
  have hmax : maxU64 = 2 ^ 64 - 1 := rfl
  by_cases hblock : n % 32 = 0
  · have hblocks : (n + 32 - 1) % 2 ^ 64 / 32 = n / 32 := by
      rw [Nat.mod_eq_of_lt (by omega)]
      omega
    unfold sourceBytes tensorNbytes tensorType Gguf.u64
    simp only [OfNat.ofNat_ne_zero, if_false]
    rw [hblocks, if_neg (not_not.2 hblock)]
    by_cases hle : n * 17 ≤ maxU64
    · rw [if_neg (show ¬ maxU64 / 17 < n by omega), if_pos ⟨hblock, hle⟩,
        if_neg (show ¬ maxU64 / 17 < n / 32 by omega)]
      congr 1
      rw [Nat.mod_eq_of_lt (by omega)]
      omega
    · rw [if_pos (show maxU64 / 17 < n by omega), if_neg fun h => hle h.2]
  · unfold sourceBytes
    simp only
    rw [if_pos hblock, if_neg fun h => hblock h.1]

end Sizes

/-- What the loader and the context make of a shape: it is printed and read back, and its bytes are
the same where the context takes it. Parts of blocks are no shape of the block formats here. -/
structure SizesAgree (dims : List ℕ) (s : Bytes) : Prop where
  printed : tensorShapeString dims = some s
  parsed : parseShapeDims s = if dims.prod ≤ maxU64 then some (dims, dims.prod) else none
  plain : ∀ type ∈ [0, 26, 30], ∀ info ∈ tensorType type, dims.prod ≤ maxU64 →
    expectedBytes (lit info.name) s = tensorNbytes type dims.prod
  f8 : ∀ info ∈ tensorType 42, dims.prod ≤ maxU64 → dims.prod % 128 = 0 →
    expectedBytes (lit info.name) s = tensorNbytes 42 dims.prod
  mxfp4 : ∀ info ∈ tensorType 39, dims.prod ≤ maxU64 → expectedBytes (lit info.name) s =
    if dims.prod % 32 = 0 ∧ dims.prod * 17 ≤ maxU64 then tensorNbytes 39 dims.prod else none
  overflow : maxU64 < dims.prod → ∀ dtype, expectedBytes dtype s = none

section Agree
variable {dims : List ℕ} {s : Bytes}

theorem expectedBytes_parsed (hparsed : parseShapeDims s = some (dims, dims.prod))
    (name : Bytes) :
    expectedBytes name s = sourceBytes (sourceDtypeParse name) dims.prod := by
  unfold expectedBytes
  rw [hparsed]
  rfl

theorem printed_agree (hne : dims ≠ []) (hlen : dims.length ≤ maxShapeDims) (hzero : 0 ∉ dims)
    (hd : ∀ d ∈ dims, d ≤ maxU64) :
    SizesAgree dims (91 :: joinNumerals (dims.map printDecimal)) := by
  have hparsed := parseShapeDims_join (printed_plain dims) hne hzero
  have hread : parseShapeDims (91 :: joinNumerals (dims.map printDecimal)) =
      if dims.prod ≤ maxU64 then some (dims, dims.prod) else none := by
    rw [hparsed]
    split_ifs with h₁ h₂ h₂
    · rfl
    · exact absurd h₁.1 h₂
    · exact absurd ⟨h₂, hlen⟩ h₁
    · rfl
  have hbytes : dims.prod ≤ maxU64 → ∀ name,
      expectedBytes name (91 :: joinNumerals (dims.map printDecimal)) =
        sourceBytes (sourceDtypeParse name) dims.prod := by
    intro hprod name
    apply expectedBytes_parsed
    rw [hread, if_pos hprod]
  constructor
  case printed => exact tensorShapeString_some hne hlen hd
  case parsed => exact hread
  case plain =>
    intro type htype info hinfo hprod
    obtain ⟨hf32, hi32, hbf16⟩ := sourceBytes_plain hprod
    rw [hbytes hprod]
    simp only [List.mem_cons, List.not_mem_nil, or_false] at htype
    rcases htype with rfl | rfl | rfl
    · cases hinfo
      exact hf32
    · cases hinfo
      exact hi32
    · cases hinfo
      exact hbf16
  case f8 =>
    intro info hinfo hprod hblock
    rw [hbytes hprod]
    cases hinfo
    exact sourceBytes_f8 hprod hblock
  case mxfp4 =>
    intro info hinfo hprod
    rw [hbytes hprod]
    cases hinfo
    exact sourceBytes_mxfp4 hprod
  case overflow =>
    intro hover dtype
    unfold expectedBytes
    rw [hread, if_neg (by omega)]
    rfl

/-- Every shape of one to four dimensions is printed, read back and sized alike, and without an `x`
in front of the bracket nothing else is read than such a shape, with its numerals in any length. -/
theorem shapeSizes_agree :
    (∀ dims : List ℕ, dims ≠ [] → dims.length ≤ maxShapeDims → 0 ∉ dims →
      (∀ d ∈ dims, d ≤ maxU64) → ∃ s, SizesAgree dims s) ∧
    ∀ (s : Bytes) (dims : List ℕ) (n : ℕ), ¬ lit "x]" <:+ s →
      (parseShapeDims s = some (dims, n) ↔ ∃ numerals, numerals.Forall₂ PlainDecimal dims ∧
        s = 91 :: joinNumerals numerals ∧
        (dims ≠ [] ∧ dims.length ≤ maxShapeDims ∧ 0 ∉ dims) ∧ dims.prod ≤ maxU64 ∧
        n = dims.prod) := by
  constructor
  · intro dims hne hlen hzero hd
    exact ⟨_, printed_agree hne hlen hzero hd⟩
  · intro s dims n hs
    exact parseShapeDims_iff hs

theorem sampleShape_agrees : (∃ s, SizesAgree [64, 2] s) ∧
    ∃ numerals, numerals.Forall₂ PlainDecimal [64, 2] ∧
      lit "[64x2]" = 91 :: joinNumerals numerals := by
  have hmax : ∀ d ∈ [64, 2], d ≤ maxU64 := by decide
  have hread : parseShapeDims (lit "[64x2]") = some ([64, 2], 128) := by decide
  obtain ⟨numerals, hplain, htext, -⟩ :=
    (shapeSizes_agree.2 (lit "[64x2]") [64, 2] 128 (by decide)).1 hread
  exact ⟨shapeSizes_agree.1 [64, 2] (by decide) (by decide) (by decide) hmax, numerals, hplain,
    htext⟩

/-- Part of a block has a size for the loader only, and a shape that the loader does not print is
read. -/
theorem partialBlock_differs :
    tensorShapeString [1] = some (lit "[1]") ∧ expectedBytes (lit "mxfp4") (lit "[1]") = none ∧
      tensorNbytes 39 1 = some 17 ∧ parseShapeDims (lit "[01]") = some ([1], 1) := by
  decide

end Agree

end Ds4.Context
