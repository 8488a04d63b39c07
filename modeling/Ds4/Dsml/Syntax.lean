import Ds4.Bytes.Ascii
import Ds4.Bytes.Guard

/-! The three spellings of the tool-call markup, its entities and its attributes. -/
namespace Ds4.Dsml
open Ds4.Search

/-- A tag opens with its only `<`, a `>` can only end it, and it holds no quote. -/
def IsTag (t : Bytes) : Prop :=
  t.head? = some 60 ∧ 60 ∉ t.tail ∧ 2 < t.length ∧ 62 ∉ t.dropLast ∧ 34 ∉ t

instance (t : Bytes) : Decidable (IsTag t) := inferInstanceAs (Decidable (_ ∧ _))

/-- The tags of one syntax. No tag that can follow inside a block begins another one. -/
structure DsmlSyntax where
  toolCallsStart : Bytes
  toolCallsEnd : Bytes
  invokeStart : Bytes
  invokeEnd : Bytes
  paramStart : Bytes
  paramEnd : Bytes
  tags : ∀ t ∈ [toolCallsStart, toolCallsEnd, invokeStart, invokeEnd, paramStart, paramEnd],
    IsTag t
  apart : [toolCallsEnd, invokeEnd, invokeStart, paramStart].Pairwise
    fun a b => ¬ a <+: b ∧ ¬ b <+: a
  deriving DecidableEq

section Tags
variable {t : Bytes}

theorem IsTag.ne_nil (h : IsTag t) : t ≠ [] := by
  rintro rfl
  exact absurd h.2.2.1 (by decide)

theorem IsTag.cons (h : IsTag t) : ∃ u, t = 60 :: u ∧ 60 ∉ u := by
  obtain ⟨hhead, htail, -⟩ := h
  cases t with
  | nil => simp at hhead
  | cons c u =>
    obtain rfl : c = 60 := by simpa using hhead
    exact ⟨u, rfl, htail⟩

theorem IsTag.unique (h : IsTag t) : HeadUnique t := by
  obtain ⟨u, rfl, hu⟩ := h.cons
  exact hu

end Tags

namespace DsmlSyntax
variable (syn : DsmlSyntax)

theorem toolCallsStart_tag : IsTag syn.toolCallsStart := syn.tags _ (by simp)
theorem toolCallsEnd_tag : IsTag syn.toolCallsEnd := syn.tags _ (by simp)
theorem invokeEnd_tag : IsTag syn.invokeEnd := syn.tags _ (by simp)
theorem paramEnd_tag : IsTag syn.paramEnd := syn.tags _ (by simp)

end DsmlSyntax

def dsmlLong : DsmlSyntax where
  toolCallsStart := lit "<｜DSML｜tool_calls>"
  toolCallsEnd := lit "</｜DSML｜tool_calls>"
  invokeStart := lit "<｜DSML｜invoke"
  invokeEnd := lit "</｜DSML｜invoke>"
  paramStart := lit "<｜DSML｜parameter"
  paramEnd := lit "</｜DSML｜parameter>"
  tags := by decide
  apart := by decide

def dsmlShort : DsmlSyntax where
  toolCallsStart := lit "<DSML｜tool_calls>"
  toolCallsEnd := lit "</DSML｜tool_calls>"
  invokeStart := lit "<DSML｜invoke"
  invokeEnd := lit "</DSML｜invoke>"
  paramStart := lit "<DSML｜parameter"
  paramEnd := lit "</DSML｜parameter>"
  tags := by decide
  apart := by decide

def dsmlPlain : DsmlSyntax where
  toolCallsStart := lit "<tool_calls>"
  toolCallsEnd := lit "</tool_calls>"
  invokeStart := lit "<invoke"
  invokeEnd := lit "</invoke>"
  paramStart := lit "<parameter"
  paramEnd := lit "</parameter>"
  tags := by decide
  apart := by decide

def dsmlSyntaxes : List DsmlSyntax := [dsmlLong, dsmlShort, dsmlPlain]

def skipAsciiWs (s : Bytes) : Bytes := s.dropWhile isSpace

/-- The entities `dsml_unescape_text` knows, in the order it tries them. -/
def entities : List (Bytes × UInt8) :=
  [(lit "&amp;", 38), (lit "&lt;", 60), (lit "&gt;", 62), (lit "&quot;", 34), (lit "&apos;", 39)]

def entityAt (s : Bytes) : Option (Bytes × UInt8) := entities.find? fun e => decide (e.1 <+: s)

/-- The loop of `dsml_unescape_text`; the first `skip` bytes belong to an entity already
replaced. -/
def unescapeLoop : ℕ → Bytes → Bytes
  | _, [] => []
  | skip + 1, _ :: s => unescapeLoop skip s
  | 0, c :: s =>
      match entityAt (c :: s) with
      | some e => e.2 :: unescapeLoop (e.1.length - 1) s
      | none => c :: unescapeLoop 0 s

def dsmlUnescapeText (s : Bytes) : Bytes := unescapeLoop 0 s

def dsmlAttr (tag name : Bytes) : Option Bytes :=
  let pat := name ++ lit "=\""
  match find pat tag with
  | none => none
  | some i =>
      let p := tag.drop (i + pat.length)
      (find [34] p).map fun q => dsmlUnescapeText (p.take q)

def dsmlAttrEscapedChar (c : UInt8) : Bytes :=
  if c = 38 then lit "&amp;"
  else if c = 60 then lit "&lt;"
  else if c = 62 then lit "&gt;"
  else if c = 34 then lit "&quot;"
  else [c]

/-- `append_dsml_attr_escaped`. -/
def dsmlAttrEscaped (s : Bytes) : Bytes := s.flatMap dsmlAttrEscapedChar

/-- `append_dsml_parameter_text`. -/
def dsmlParameterText (s : Bytes) : Bytes := guarded dsmlLong.paramEnd (lit "&lt;") s

/-- `append_dsml_json_literal`. -/
def dsmlJsonLiteral (s : Bytes) : Bytes := guarded dsmlLong.paramEnd (lit "\\u003c") s

section Entities

theorem entityAt_cons_ne {c : UInt8} {s : Bytes} (h : c ≠ 38) : entityAt (c :: s) = none := by
  refine List.find?_eq_none.mpr fun e he => ?_
  have hhead : ∀ e ∈ entities, e.1.head? = some 38 := by decide
  have := hhead e he
  simp only [decide_eq_true_eq]
  intro hp
  cases h1 : e.1 with
  | nil => simp [h1] at this
  | cons a t =>
    rw [h1] at this hp
    obtain ⟨rfl, -⟩ := List.cons_prefix_cons.mp hp
    exact h (by simpa using this)

theorem entityAt_some {s : Bytes} {e : Bytes × UInt8} (h : entityAt s = some e) :
    e ∈ entities ∧ e.1 <+: s := by
  have hp := List.find?_some h
  exact ⟨List.mem_of_find?_eq_some h, by simpa using hp⟩

theorem unescapeLoop_skip (k : ℕ) (s : Bytes) : unescapeLoop k s = unescapeLoop 0 (s.drop k) := by
  induction s generalizing k with
  | nil => cases k <;> simp [unescapeLoop]
  | cons c s ih =>
    cases k with
    | zero => rfl
    | succ k => simpa [unescapeLoop] using ih k

theorem unescape_cons {c : UInt8} {s : Bytes} (h : entityAt (c :: s) = none) :
    dsmlUnescapeText (c :: s) = c :: dsmlUnescapeText s := by
  simp [dsmlUnescapeText, unescapeLoop, h]

theorem unescape_cons_ne {c : UInt8} {s : Bytes} (h : c ≠ 38) :
    dsmlUnescapeText (c :: s) = c :: dsmlUnescapeText s := unescape_cons (entityAt_cons_ne h)

/-- An entity in front is replaced by its character. -/
theorem unescape_entity {e : Bytes × UInt8} {t s : Bytes} (h : entityAt (38 :: (t ++ s)) = some e)
    (ht : e.1 = 38 :: t) : dsmlUnescapeText (38 :: (t ++ s)) = e.2 :: dsmlUnescapeText s := by
  simp only [dsmlUnescapeText, unescapeLoop, h, ht, List.length_cons, Nat.add_sub_cancel]
  rw [unescapeLoop_skip, List.drop_left]

end Entities

end Ds4.Dsml
