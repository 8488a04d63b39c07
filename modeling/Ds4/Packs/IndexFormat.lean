import Ds4.Packs.Index
import Mathlib.Tactic.IntervalCases

/-! The format of a pack index, and that the reader takes exactly it. -/
namespace Ds4.Packs

/-- `gpu%d.weights`. -/
def shardName (gpu : ℤ) : Bytes := lit "gpu" ++ printDecimal gpu.toNat ++ lit ".weights"

def column (line : Bytes) (i : ℕ) : Bytes := (line.splitOn 9).getD i []

/-- The columns with numbers in them. -/
def numericColumns : List ℕ := [5, 6, 8, 9, 11, 12]

/-- The shard column, and whether it may stay empty. -/
def ShardFormat (optional : Prop) (e : PackEntry) : Prop :=
  e.shardFile = shardName e.owningGpu ∨ optional ∧ e.shardFile = []

/-- A row and the entry it stands for. -/
structure RowFormat (optional : Prop) (line : Bytes) (e : PackEntry) : Prop where
  columns : (line.splitOn 9).length = packCols
  semanticTensorId : e.semanticTensorId = column line 0
  sourceName : e.sourceName = column line 1
  sourceDtype : e.sourceDtype = column line 2
  sourceShape : e.sourceShape = column line 3
  runtimeLayout : e.runtimeLayout = column line 4
  owningGpu : PlainInt (column line 5) e.owningGpu
  owningGpu_range : 0 ≤ e.owningGpu ∧ e.owningGpu ≤ 2 ^ 31 - 1
  layerId : PlainInt (column line 6) e.layerId
  layerId_range : -2 ^ 31 ≤ e.layerId ∧ e.layerId ≤ 2 ^ 31 - 1
  kernelFamily : e.kernelFamily = column line 7
  sourceOffset : PlainDecimal (column line 8) e.sourceOffset
  byteLength : PlainDecimal (column line 9) e.byteLength
  byteLength_pos : 0 < e.byteLength
  shardFile : e.shardFile = column line 10
  shard : ShardFormat optional e
  shardOffset : PlainDecimal (column line 11) e.shardOffset
  scaleOffset : PlainInt (column line 12) e.scaleOffset
  scaleOffset_range : -2 ^ 63 ≤ e.scaleOffset ∧ e.scaleOffset ≤ 2 ^ 63 - 1
  source_end : e.sourceOffset + e.byteLength < 2 ^ 64
  shard_end : e.shardOffset + e.byteLength < 2 ^ 64

/-- The rows of an index in order, one entry each, no id and no source name twice. -/
structure RowsFormat (optional : Prop) (lines : List Bytes) (es : List PackEntry) : Prop where
  rows : List.Forall₂ (RowFormat optional) (lines.filter (· ≠ [])) es
  ids : (es.map PackEntry.semanticTensorId).Nodup
  names : (es.map PackEntry.sourceName).Nodup

/-- The schema header and rows below it, with the shard named in every row. -/
def NamedFormat (content : Bytes) (es : List PackEntry) : Prop :=
  ∃ lines, content.splitOn 10 = packHeader :: lines ∧ RowsFormat False lines es

/-- What the reader takes: LF line ends, a bounded size, a row at least; the shard column may
stay empty. -/
structure PackFormat (content : Bytes) (es : List PackEntry) : Prop where
  size : content.length ≤ 64 * 1024 * 1024
  lf : 13 ∉ content
  rows : ∃ lines, content.splitOn 10 = packHeader :: lines ∧ RowsFormat True lines es
  some_row : es ≠ []

/-- No NUL, something on the first line, no blank and no plus in front of a number of a row. -/
structure Tidy (content : Bytes) : Prop where
  nul : 0 ∉ content
  first : ∀ l ∈ (content.splitOn 10).head?, l ≠ []
  numbers : ∀ line ∈ (content.splitOn 10).tail, ∀ i ∈ numericColumns, TidyNumber (column line i)

section Shard

theorem printDecimal_digit {n : ℕ} {c : UInt8} (h : c ∈ printDecimal n) : isDigit c = true := by
  rw [printDecimal] at h
  split_ifs at h with hn
  · rw [List.mem_singleton.1 h]
    decide
  · obtain ⟨d, hd, rfl⟩ := List.mem_map.1 h
    have hlt : d < 10 := Nat.digits_lt_base (by norm_num) (List.mem_reverse.1 hd)
    interval_cases d <;> decide

theorem not_mem_shardName {gpu : ℤ} {c : UInt8} (hc : isDigit c = false) (hgpu : c ∉ lit "gpu")
    (hw : c ∉ lit ".weights") : c ∉ shardName gpu := by
  rw [shardName, List.mem_append, List.mem_append]
  rintro ((h | h) | h)
  · exact hgpu h
  · rw [printDecimal_digit h] at hc
    cases hc
  · exact hw h

theorem shardName_ne_nil {gpu : ℤ} : shardName gpu ≠ [] := by
  rw [shardName, show lit "gpu" = [103, 112, 117] by decide]
  intro h
  cases h

theorem validShardName_iff {name : Bytes} {gpu : ℤ} :
    validShardName name gpu = true ↔ name = shardName gpu := by
  have hslash : ∀ {c : UInt8}, c = 47 ∨ c = 92 → c ∉ shardName gpu := by
    rintro c (rfl | rfl)
    · apply not_mem_shardName <;> decide
    · apply not_mem_shardName <;> decide
  rw [validShardName, ← shardName]
  constructor
  · intro h
    split_ifs at h
    exact beq_iff_eq.1 h
  · rintro rfl
    rw [if_neg shardName_ne_nil, if_neg (not_or.2 ⟨hslash (Or.inl rfl), hslash (Or.inr rfl)⟩),
      beq_self_eq_true]

theorem shardFormat_iff {e : PackEntry} : ShardFormat True e ↔
    ¬ (e.shardFile ≠ [] ∧ validShardName e.shardFile e.owningGpu = false) := by
  rw [ShardFormat, ← validShardName_iff]
  cases validShardName e.shardFile e.owningGpu <;> simp

end Shard

section Rows
variable {p q : Pack} {e : PackEntry} {line : Bytes} {f : List Bytes} {m : ℕ}

theorem Pack.eq_of_entries (h : p.entries = q.entries) : p = q := by
  cases p
  cases q
  cases h
  rfl

/-- The checks of a row behind its numbers, whatever its line. -/
theorem admitPackRow_iff : admitPackRow p e m = .ok q ↔
    (0 < e.byteLength ∧ e.sourceOffset ≤ maxU64 - e.byteLength ∧
      e.shardOffset ≤ maxU64 - e.byteLength ∧ ShardFormat True e) ∧
    q.entries = p.entries ++ [e] := by
  have hpos : e.byteLength = 0 ↔ ¬ 0 < e.byteLength := by omega
  constructor
  · intro h
    rw [admitPackRow] at h
    split_ifs at h with hlen hend hid hname hshard
    cases h
    push Not at hend
    exact ⟨⟨not_not.1 fun hp => hlen (hpos.2 hp), hend.1, hend.2, shardFormat_iff.2 hshard⟩, rfl⟩
  · rintro ⟨⟨hlen, hsrc, hshd, hshard⟩, hq⟩
    have hid : p.findSemantic e.semanticTensorId = none := by
      rw [Pack.findSemantic_eq_none]
      have h := q.ids_nodup
      rw [hq, List.map_append, List.nodup_append] at h
      intro hmem
      exact h.2.2 _ hmem _ (List.mem_map_of_mem (List.mem_singleton.2 rfl)) rfl
    have hname : p.findSourceName e.sourceName = none := by
      rw [Pack.findSourceName_eq_none]
      have h := q.names_nodup
      rw [hq, List.map_append, List.nodup_append] at h
      intro hmem
      exact h.2.2 _ hmem _ (List.mem_map_of_mem (List.mem_singleton.2 rfl)) rfl
    rw [admitPackRow, if_neg (by omega), if_neg (by omega), dif_pos hid, dif_pos hname,
      if_neg (shardFormat_iff.1 hshard)]
    congr 1
    apply Pack.eq_of_entries
    rw [hq]
    rfl

theorem parsePackNumbers_iff {n : PackNumbers} : parsePackNumbers f m = .ok n ↔
    (parseI32Field (f.getD 5 []) = some n.owningGpu ∧ 0 ≤ n.owningGpu) ∧
    parseI32Field (f.getD 6 []) = some n.layerId ∧
    parseU64Field (f.getD 8 []) = some n.sourceOffset ∧
    parseU64Field (f.getD 9 []) = some n.byteLength ∧
    parseU64Field (f.getD 11 []) = some n.shardOffset ∧
    parseI64Field (f.getD 12 []) = some n.scaleOffset := by
  have hgpu : ∀ g, (parseI32Field (f.getD 5 [])).filter (0 ≤ ·) = some g ↔
      parseI32Field (f.getD 5 []) = some g ∧ 0 ≤ g := by
    intro g
    rw [Option.filter_eq_some_iff]
    simp
  rw [← hgpu, parsePackNumbers]
  cases (parseI32Field (f.getD 5 [])).filter (0 ≤ ·) with
  | none => simp
  | some g =>
    cases parseI32Field (f.getD 6 []) with
    | none => simp
    | some l =>
      cases parseU64Field (f.getD 8 []) <;> cases parseU64Field (f.getD 9 []) <;>
        cases parseU64Field (f.getD 11 []) <;> cases parseI64Field (f.getD 12 []) <;>
        cases n <;> simp

theorem parsePackRow_iff : parsePackRow p line m = .ok q ↔
    (line.splitOn 9).length = packCols ∧
      ∃ n, parsePackNumbers (line.splitOn 9) m = .ok n ∧
        admitPackRow p (packEntry (line.splitOn 9) n) m = .ok q := by
  rw [parsePackRow]
  by_cases hmany : packCols < (line.splitOn 9).length
  · have hsplit : splitTabs line packCols = ([], packCols + 1) := if_pos hmany
    simp only [hsplit]
    rw [if_pos (by decide)]
    apply iff_of_false
    · intro h
      cases h
    · rintro ⟨h, -⟩
      omega
  · have hsplit : splitTabs line packCols = (line.splitOn 9, (line.splitOn 9).length) :=
      if_neg hmany
    simp only [hsplit]
    by_cases hcols : (line.splitOn 9).length = packCols
    · rw [if_neg (not_not.2 hcols)]
      cases parsePackNumbers (line.splitOn 9) m with
      | error e => simp
      | ok n => simp [hcols]
    · rw [if_pos hcols]
      simp [hcols]

/-- The number of a line is for its error only. -/
theorem packKind_lineFree : packKind.LineFree := by
  intro p line m n q h
  obtain ⟨hcols, k, hk, hadmit⟩ := parsePackRow_iff.1 h
  apply parsePackRow_iff.2
  exact ⟨hcols, k, parsePackNumbers_iff.2 (parsePackNumbers_iff.1 hk),
    admitPackRow_iff.2 (admitPackRow_iff.1 hadmit)⟩

/-- A row is taken for the entry it stands for, and nothing else. -/
theorem parsePackRow_format (ht : ∀ i ∈ numericColumns, TidyNumber (column line i)) :
    parsePackRow p line m = .ok q ↔
      ∃ e, RowFormat True line e ∧ q.entries = p.entries ++ [e] := by
  have t5 := ht 5 (by decide)
  have t6 := ht 6 (by decide)
  have t8 := ht 8 (by decide)
  have t9 := ht 9 (by decide)
  have t11 := ht 11 (by decide)
  have t12 := ht 12 (by decide)
  unfold column at t5 t6 t8 t9 t11 t12
  rw [parsePackRow_iff]
  simp only [parsePackNumbers_iff, admitPackRow_iff, parseI32Field_iff t5, parseI32Field_iff t6,
    parseU64Field_iff t8, parseU64Field_iff t9, parseU64Field_iff t11, parseI64Field_iff t12]
  constructor
  · rintro ⟨hcols, n, ⟨⟨⟨h5, hg⟩, hg0⟩, ⟨h6, hl⟩, ⟨h8, -⟩, ⟨h9, hlen⟩, ⟨h11, -⟩, h12, hs⟩,
      ⟨hpos, hsrc, hshd, hshard⟩, hq⟩
    refine ⟨packEntry (line.splitOn 9) n, ?_, hq⟩
    rw [maxU64] at hsrc hshd
    have hbl : (packEntry (line.splitOn 9) n).byteLength = n.byteLength := rfl
    exact
      { columns := hcols
        semanticTensorId := rfl
        sourceName := rfl
        sourceDtype := rfl
        sourceShape := rfl
        runtimeLayout := rfl
        owningGpu := h5
        owningGpu_range := ⟨hg0, hg.2⟩
        layerId := h6
        layerId_range := hl
        kernelFamily := rfl
        sourceOffset := h8
        byteLength := h9
        byteLength_pos := hpos
        shardFile := rfl
        shard := hshard
        shardOffset := h11
        scaleOffset := h12
        scaleOffset_range := hs
        source_end := by omega
        shard_end := by omega }
  · rintro ⟨e, h, hq⟩
    have hsrc := h.source_end
    have hshd := h.shard_end
    have hpos := h.byteLength_pos
    have hent : packEntry (line.splitOn 9) ⟨e.owningGpu, e.layerId, e.sourceOffset, e.byteLength,
        e.shardOffset, e.scaleOffset⟩ = e := by
      cases e
      simp only [packEntry, PackEntry.mk.injEq]
      exact ⟨h.semanticTensorId.symm, h.sourceName.symm, h.sourceDtype.symm, h.sourceShape.symm,
        h.runtimeLayout.symm, h.kernelFamily.symm, h.shardFile.symm, by trivial⟩
    have hgpu := h.owningGpu_range
    have hlow : -2 ^ 31 ≤ e.owningGpu := by omega
    have hoff : e.sourceOffset < 2 ^ 64 ∧ e.byteLength < 2 ^ 64 ∧ e.shardOffset < 2 ^ 64 := by omega
    refine ⟨h.columns, ⟨e.owningGpu, e.layerId, e.sourceOffset, e.byteLength, e.shardOffset,
      e.scaleOffset⟩, ⟨⟨⟨h.owningGpu, hlow, hgpu.2⟩, hgpu.1⟩, ⟨h.layerId, h.layerId_range⟩,
      ⟨h.sourceOffset, hoff.1⟩, ⟨h.byteLength, hoff.2.1⟩, ⟨h.shardOffset, hoff.2.2⟩,
      h.scaleOffset, h.scaleOffset_range⟩, ?_⟩
    rw [hent, maxU64]
    exact ⟨⟨hpos, by omega, by omega, h.shard⟩, hq⟩

end Rows

section Open

theorem packKind_header : packKind.header = packHeader := by
  simp only [packKind]

theorem packHeader_start : ∃ rest, packHeader = 115 :: 101 :: 109 :: rest := by
  have h : lit "semantic_tensor_id\t" = 115 :: 101 :: 109 :: lit "antic_tensor_id\t" := by
    simp [lit, String.utf8EncodeChar]
  simp only [packHeader, h, List.cons_append]
  exact ⟨_, rfl⟩

theorem packHeader_bom : ¬ [0xef, 0xbb, 0xbf] <+: packHeader := by
  obtain ⟨rest, h⟩ := packHeader_start
  rw [h]
  intro hpre
  cases (List.cons_prefix_cons.1 hpre).1

theorem packHeader_length : 3 ≤ packHeader.length := by
  obtain ⟨rest, h⟩ := packHeader_start
  rw [h]
  simp

/-- The rows of a tidy file, one entry for each of them behind what was there. -/
theorem rows_format (lines : List Bytes) : ∀ p q : Pack,
    (∀ line ∈ lines, ∀ i ∈ numericColumns, TidyNumber (column line i)) →
    (packKind.Rows p lines q ↔
      ∃ es, List.Forall₂ (RowFormat True) lines es ∧ q.entries = p.entries ++ es) := by
  induction lines with
  | nil =>
    intro p q _
    constructor
    · intro h
      cases h
      exact ⟨[], .nil, (List.append_nil _).symm⟩
    · rintro ⟨es, hes, hq⟩
      cases hes
      rw [List.append_nil] at hq
      rw [Pack.eq_of_entries hq]
      exact .nil
  | cons line lines ih =>
    intro p q ht
    have hline := ht line List.mem_cons_self
    have hrest : ∀ l ∈ lines, ∀ i ∈ numericColumns, TidyNumber (column l i) :=
      fun l hl => ht l (List.mem_cons_of_mem line hl)
    constructor
    · intro h
      cases h with
      | cons n hrow hrows =>
        obtain ⟨e, he, hp⟩ := (parsePackRow_format hline).1 hrow
        obtain ⟨es, hes, hq⟩ := (ih _ q hrest).1 hrows
        refine ⟨e :: es, .cons he hes, ?_⟩
        rw [hq, hp, List.append_assoc, List.singleton_append]
    · rintro ⟨es, hes, hq⟩
      cases hes with
      | @cons _ e _ es he hes =>
        have hsub : (p.entries ++ [e]).Sublist q.entries := by
          rw [hq, ← List.singleton_append (l := es), ← List.append_assoc]
          exact List.sublist_append_left _ _
        have hids := q.ids_nodup.sublist (hsub.map PackEntry.semanticTensorId)
        have hnames := q.names_nodup.sublist (hsub.map PackEntry.sourceName)
        apply IndexKind.Rows.cons 1 ((parsePackRow_format hline).2 ⟨e, he, rfl⟩ :
          parsePackRow p line 1 = .ok ⟨p.entries ++ [e], hids, hnames⟩)
        apply (ih _ q hrest).2
        exact ⟨es, hes, by rw [hq, List.append_assoc, List.singleton_append]⟩

/-- A tidy file opens exactly when it has the format, with the entries of its rows in order. -/
theorem packOpen_format {path : String} {content : Bytes} (hpath : path ≠ "") (ht : Tidy content)
    (es : List PackEntry) :
    (∃ p, packOpen path content = .ok p ∧ p.entries = es) ↔ PackFormat content es := by
  obtain ⟨first, lines, hlines⟩ : ∃ first lines, content.splitOn 10 = first :: lines :=
    List.exists_cons_of_ne_nil (List.splitOn_ne_nil 10 content)
  have hfirst : first ≠ [] := ht.first first (by rw [hlines]; rfl)
  have hmem : ∀ line ∈ lines.filter (· ≠ []), ∀ i ∈ numericColumns, TidyNumber (column line i) := by
    intro line hline
    apply ht.numbers line
    rw [hlines]
    exact (List.mem_filter.1 hline).1
  have hopen := IndexKind.openIndex_iff packKind_lineFree hpath ht.nul hlines hfirst
    (packKind_header ▸ packHeader_bom) (packKind_header ▸ packHeader_length)
  simp only [packKind_header] at hopen
  have hrows := fun q => rows_format (lines.filter (· ≠ [])) Pack.empty q hmem
  constructor
  · rintro ⟨p, hp, rfl⟩
    obtain ⟨hsize, hlf, hhead, hp, hempty⟩ := (hopen p).1 hp
    rw [hhead] at hlines
    obtain ⟨es, hes, hp⟩ := (hrows p).1 hp
    have hes' : p.entries = es := hp
    refine ⟨hsize, hlf, ⟨lines, hlines, ?_⟩, ?_⟩
    · exact ⟨hes' ▸ hes, p.ids_nodup, p.names_nodup⟩
    · exact ne_of_beq_false hempty
  · rintro ⟨hsize, hlf, ⟨lines', hlines', hr⟩, hne⟩
    rw [hlines] at hlines'
    obtain ⟨hhead, htail⟩ := List.cons.inj hlines'
    refine ⟨⟨es, hr.ids, hr.names⟩, (hopen _).2 ⟨hsize, hlf, hhead, ?_, ?_⟩, rfl⟩
    · exact (hrows _).2 ⟨es, htail ▸ hr.rows, rfl⟩
    · exact beq_eq_false_iff_ne.2 hne

/-- A row of one GPU, with the shard column as given. -/
def sampleRow (shard : String) : Bytes :=
  lit "e\tt\tf32\t[2]\trow\t0\t-1\tk\t16\t8\t" ++ lit shard ++ lit "\t0\t-1\t-"

def sampleEntry (shard : String) : PackEntry :=
  { semanticTensorId := lit "e"
    sourceName := lit "t"
    sourceDtype := lit "f32"
    sourceShape := lit "[2]"
    runtimeLayout := lit "row"
    kernelFamily := lit "k"
    shardFile := lit shard
    owningGpu := 0
    layerId := -1
    scaleOffset := -1
    sourceOffset := 16
    byteLength := 8
    shardOffset := 0 }

def sampleIndex (shard : String) : Bytes := packHeader ++ [10] ++ sampleRow shard ++ [10]

/-- Its columns. -/
def sampleColumns : List Bytes :=
  [lit "e", lit "t", lit "f32", lit "[2]", lit "row", [48], [45, 49], lit "k", [49, 54], [56],
    lit "gpu0.weights", [48], [45, 49], [45]]

theorem sampleRow_columns : (sampleRow "gpu0.weights").splitOn 9 = sampleColumns := by
  decide

theorem sampleRow_column (i : ℕ) :
    column (sampleRow "gpu0.weights") i = sampleColumns.getD i [] := by
  rw [column, sampleRow_columns]

theorem sampleRow_format :
    RowFormat True (sampleRow "gpu0.weights") (sampleEntry "gpu0.weights") := by
  have hzero : PlainDecimal [48] 0 := ⟨by decide, by decide +kernel, by decide⟩
  have hone : PlainDecimal [49] 1 := ⟨by decide, by decide +kernel, by decide⟩
  have hoffset : PlainDecimal [49, 54] 16 := ⟨by decide, by decide +kernel, by decide⟩
  have hlength : PlainDecimal [56] 8 := ⟨by decide, by decide +kernel, by decide⟩
  have hname : lit "gpu0.weights" = shardName 0 := by decide
  constructor
  case columns => exact congrArg List.length sampleRow_columns
  case shard => exact Or.inl hname
  case owningGpu_range | layerId_range | byteLength_pos | scaleOffset_range | source_end |
      shard_end => decide
  all_goals rw [sampleRow_column]
  case owningGpu => exact .pos hzero
  case layerId | scaleOffset => exact .neg hone
  case sourceOffset => exact hoffset
  case byteLength => exact hlength
  case shardOffset => exact hzero
  all_goals rfl

theorem sampleIndex_lines :
    (sampleIndex "gpu0.weights").splitOn 10 = [packHeader, sampleRow "gpu0.weights", []] := by
  decide +kernel

theorem sampleIndex_tidy : Tidy (sampleIndex "gpu0.weights") where
  nul := by decide
  first := by decide
  numbers := by
    have hrow : ∀ i ∈ numericColumns, TidyNumber (sampleColumns.getD i []) := by
      simp only [TidyNumber]
      decide +kernel
    have hempty : ∀ i ∈ numericColumns, TidyNumber (column [] i) := by
      simp only [TidyNumber]
      decide +kernel
    rw [sampleIndex_lines]
    intro line hline i hi
    obtain rfl | hline := List.mem_cons.1 hline
    · rw [sampleRow_column]
      exact hrow i hi
    · rw [List.mem_singleton.1 hline]
      exact hempty i hi

theorem sampleIndex_rows : RowsFormat True [sampleRow "gpu0.weights", []]
    [sampleEntry "gpu0.weights"] where
  rows := by
    have h : [sampleRow "gpu0.weights", []].filter (· ≠ []) = [sampleRow "gpu0.weights"] := by
      decide
    rw [h]
    exact .cons sampleRow_format .nil
  ids := List.nodup_singleton _
  names := List.nodup_singleton _

theorem sampleIndex_opens : ∃ p, packOpen "pack_index.tsv" (sampleIndex "gpu0.weights") = .ok p ∧
    p.entries = [sampleEntry "gpu0.weights"] := by
  apply (packOpen_format (by decide) sampleIndex_tidy _).2
  exact
    { size := by decide +kernel
      lf := by decide
      rows := ⟨_, sampleIndex_lines, sampleIndex_rows⟩
      some_row := List.cons_ne_nil _ _ }

/-- A header alone does not open; a row without its shard does. -/
theorem namedFormat_inexact :
    (NamedFormat packHeader [] ∧ (packOpen "pack_index.tsv" packHeader).isOk = false) ∧
      (packOpen "pack_index.tsv" (sampleIndex "")).isOk = true ∧
        ¬ ∃ es, NamedFormat (sampleIndex "") es := by
  refine ⟨⟨⟨[], by decide +kernel, ?_⟩, by decide +kernel⟩, by decide +kernel, ?_⟩
  · exact ⟨.nil, List.nodup_nil, List.nodup_nil⟩
  · rintro ⟨es, lines, hlines, hrows⟩
    have hsample : (sampleIndex "").splitOn 10 = packHeader :: [sampleRow "", []] := by
      decide +kernel
    have hcol : column (sampleRow "") 10 = [] := by decide
    have hfilter : [sampleRow "", []].filter (· ≠ []) = [sampleRow ""] := by decide
    obtain ⟨-, htail⟩ := List.cons.inj (hsample.symm.trans hlines)
    have h := hrows.rows
    rw [← htail, hfilter] at h
    cases h with
    | cons he _ =>
      have hshard := he.shardFile.trans hcol
      rcases he.shard with hname | ⟨hno, -⟩
      · exact shardName_ne_nil (hname.symm.trans hshard)
      · exact hno

end Open

end Ds4.Packs
