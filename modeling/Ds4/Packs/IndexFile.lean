import Ds4.Bytes.Ascii
import Mathlib.Tactic.NormNum

/-! The lines of an index file. The two pack indexes differ in their header, their texts and
their rows. -/
namespace Ds4.Packs

/-- The lines of a file, each cut at its first NUL. -/
def indexLines (content : Bytes) : List Bytes := (content.splitOn 10).map cstr

/-- `split_tabs` and the count of its fields; one more than the expected number stands for
all that are too many. -/
def splitTabs (line : Bytes) (n : ℕ) : List Bytes × ℕ :=
  let fields := line.splitOn 9
  if n < fields.length then ([], n + 1) else (fields, fields.length)

/-- What sets an index apart. -/
structure IndexKind (P : Type) where
  noun : String
  header : Bytes
  empty : P
  isEmpty : P → Bool
  parseRow : P → Bytes → ℕ → Except String P

section Pieces
variable {x : UInt8}

theorem first_intercalate (l : Bytes) (ls : List Bytes) : l <+: [x].intercalate (l :: ls) := by
  cases ls with
  | nil =>
    rw [List.intercalate_singleton]
  | cons l' ls =>
    rw [List.intercalate_cons_cons, List.append_assoc]
    exact List.prefix_append l _

theorem subset_intercalate (ls : List Bytes) : ∀ l ∈ ls, l ⊆ [x].intercalate ls := by
  induction ls with
  | nil =>
    intro l hl
    cases hl
  | cons l' ls ih =>
    intro l hl
    rcases List.mem_cons.1 hl with rfl | hl
    · exact (first_intercalate l ls).subset
    · rw [List.intercalate_cons_of_ne_nil (List.ne_nil_of_mem hl)]
      exact fun c hc => List.subset_append_right _ _ (ih l hl hc)

/-- A piece has no bytes of its own. -/
theorem mem_splitOn {s l : Bytes} (hl : l ∈ s.splitOn x) {c : UInt8} (hc : c ∈ l) : c ∈ s := by
  have h := subset_intercalate (x := x) _ l hl hc
  rwa [List.intercalate_splitOn] at h

/-- Lines without a NUL are read whole. -/
theorem indexLines_eq {content : Bytes} (h : 0 ∉ content) :
    indexLines content = content.splitOn 10 := by
  rw [indexLines]
  have hid : (content.splitOn 10).map cstr = (content.splitOn 10).map id := by
    apply List.map_congr_left
    intro l hl
    exact cstr_eq_self fun h0 => h (mem_splitOn hl h0)
  rw [hid, List.map_id]

end Pieces

namespace IndexKind
variable {P : Type} (k : IndexKind P)

/-- The loop over the lines. Only the line with the number 1 is compared with the header. -/
def readLines : ℕ → List Bytes → P → Except String P
  | _, [], p => .ok p
  | lineNo, line :: rest, p =>
      if line = [] then readLines (lineNo + 1) rest p
      else if lineNo = 1 then
        if line ≠ k.header then .error (k.noun ++ " header does not match expected schema")
        else readLines (lineNo + 1) rest p
      else
        match k.parseRow p line lineNo with
        | .error e => .error e
        | .ok p' => readLines (lineNo + 1) rest p'

def openIndex (path : String) (content : Bytes) : Except String P :=
  if path = "" then .error ("missing " ++ k.noun ++ " path")
  else if 64 * 1024 * 1024 < content.length then
    .error (k.noun ++ " is unexpectedly large: " ++ path)
  else if content.take 3 = [0xef, 0xbb, 0xbf] then .error (k.noun ++ " has a UTF-8 BOM")
  else if 13 ∈ content then .error (k.noun ++ " must use LF line endings")
  else
    match k.readLines 1 (indexLines content) k.empty with
    | .error e => .error e
    | .ok p => if k.isEmpty p then .error (k.noun ++ " has no tensor rows") else .ok p

/-- The rows of a file one after the other, whatever the numbers of their lines. -/
inductive Rows : P → List Bytes → P → Prop
  | nil {p : P} : Rows p [] p
  | cons {p p' q : P} {line : Bytes} {rest : List Bytes} (n : ℕ) :
      k.parseRow p line n = .ok p' → Rows p' rest q → Rows p (line :: rest) q

/-- The number of a line matters for the text of its error only. -/
def LineFree : Prop := ∀ p line m n q, k.parseRow p line m = .ok q → k.parseRow p line n = .ok q

variable {k}

theorem readLines_rows (hfree : k.LineFree) (lines : List Bytes) : ∀ (n : ℕ) (p q : P), 1 < n →
    (k.readLines n lines p = .ok q ↔ k.Rows p (lines.filter (· ≠ [])) q) := by
  induction lines with
  | nil =>
    intro n p q _
    constructor
    · intro h
      cases h
      exact .nil
    · intro h
      cases h
      rfl
  | cons line lines ih =>
    intro n p q hn
    by_cases hline : line = []
    · rw [readLines, if_pos hline, ih _ _ _ (by omega)]
      simp [hline]
    · have hfilter : (line :: lines).filter (· ≠ []) = line :: lines.filter (· ≠ []) := by
        simp [hline]
      rw [readLines, if_neg hline, if_neg (by omega), hfilter]
      cases hrow : k.parseRow p line n with
      | error e =>
        apply iff_of_false
        · intro h
          cases h
        · intro h
          cases h with
          | cons m hm _ =>
            rw [hfree _ _ _ n _ hm] at hrow
            cases hrow
      | ok p' =>
        rw [ih _ _ _ (by omega)]
        constructor
        · exact fun h => .cons n hrow h
        · intro h
          cases h with
          | cons m hm hrest =>
            rw [hfree _ _ _ n _ hm] at hrow
            cases hrow
            exact hrest

/-- A NUL-free file with a first line: its header, its rows, nothing else. -/
theorem openIndex_iff (hfree : k.LineFree) {path : String} {content first : Bytes}
    {lines : List Bytes} (hpath : path ≠ "") (hnul : 0 ∉ content)
    (hlines : content.splitOn 10 = first :: lines) (hfirst : first ≠ [])
    (hbom : ¬ [0xef, 0xbb, 0xbf] <+: k.header) (hshort : 3 ≤ k.header.length) (q : P) :
    k.openIndex path content = .ok q ↔
      content.length ≤ 64 * 1024 * 1024 ∧ 13 ∉ content ∧ first = k.header ∧
        k.Rows k.empty (lines.filter (· ≠ [])) q ∧ k.isEmpty q = false := by
  rw [openIndex, if_neg hpath, indexLines_eq hnul, hlines]
  by_cases hsize : 64 * 1024 * 1024 < content.length
  · rw [if_pos hsize]
    apply iff_of_false nofun
    rintro ⟨hle, -⟩
    omega
  rw [if_neg hsize]
  by_cases hcr : 13 ∈ content
  · rw [if_pos hcr]
    apply iff_of_false
    · split <;> intro h <;> cases h
    · rintro ⟨-, hno, -⟩
      exact hno hcr
  rw [if_neg hcr]
  by_cases hhead : first = k.header
  · have hne : content.take 3 ≠ [0xef, 0xbb, 0xbf] := by
      intro h
      apply hbom
      have hfull : first <+: content := by
        have h := first_intercalate (x := 10) first lines
        rwa [← hlines, List.intercalate_splitOn] at h
      rw [← h, ← hhead]
      apply List.prefix_of_prefix_length_le (List.take_prefix 3 content) hfull
      rw [List.length_take, hhead]
      omega
    have hrows := readLines_rows hfree lines 2 k.empty
    rw [if_neg hne, readLines, if_neg hfirst, if_pos rfl, if_neg (not_not.2 hhead)]
    cases hread : k.readLines 2 lines k.empty with
    | error e =>
      apply iff_of_false nofun
      rintro ⟨-, -, -, hq, -⟩
      rw [(hrows q (by norm_num)).2 hq] at hread
      cases hread
    | ok p =>
      have hp := (hrows p (by norm_num)).1 hread
      simp only
      constructor
      · intro h
        split_ifs at h with hempty
        cases h
        exact ⟨not_lt.1 hsize, hcr, hhead, hp, Bool.not_eq_true _ ▸ hempty⟩
      · rintro ⟨-, -, -, hq, hempty⟩
        have hpq := (hrows q (by norm_num)).2 hq
        rw [hread] at hpq
        cases hpq
        rw [hempty, if_neg Bool.false_ne_true]
  · have hfail : ∀ p, (match k.readLines 1 (first :: lines) k.empty with
        | .error e => Except.error e
        | .ok p => if k.isEmpty p then .error (k.noun ++ " has no tensor rows") else .ok p) ≠
          .ok p := by
      intro p
      rw [readLines, if_neg hfirst, if_pos rfl, if_pos hhead]
      nofun
    apply iff_of_false
    · split_ifs
      · nofun
      · exact hfail q
    · rintro ⟨-, -, h, -⟩
      exact hhead h

end IndexKind

end Ds4.Packs
