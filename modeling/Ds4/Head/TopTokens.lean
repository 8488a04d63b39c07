import Ds4.Parts.TopK
import Mathlib.Algebra.Group.Nat.Defs
import Mathlib.Order.WithBot

/-! The output head's insertion of logits into the top tokens. -/
namespace Ds4.Head

open Parts

/-- A float as the comparisons of the head see it; `⊥` of the finite ones is `-FLT_MAX`. -/
inductive Logit (F : Type)
  | finite (x : F)
  | posInf
  | negInf
  | nan
  deriving DecidableEq

def uint32Max : ℕ := 2 ^ 32 - 1

namespace Logit
variable {F : Type}

def isFinite : Logit F → Bool
  | finite _ => true
  | _ => false

section Order
variable [LinearOrder F]

/-- The comparison `>` of two floats. -/
def gt : Logit F → Logit F → Bool
  | finite x, finite y => y < x
  | finite _, negInf => true
  | posInf, finite _ => true
  | posInf, negInf => true
  | _, _ => false

variable [OrderBot F]

/-- Where a logit stands; what is never taken stands with `-FLT_MAX`. -/
def key : Logit F → WithTop F
  | finite x => x
  | posInf => ⊤
  | negInf => (⊥ : F)
  | nan => (⊥ : F)

theorem bot_le_key (v : Logit F) : ((⊥ : F) : WithTop F) ≤ v.key := by
  cases v with
  | finite x => exact WithTop.coe_le_coe.2 bot_le
  | posInf => exact le_top
  | negInf | nan => exact le_rfl

/-- Against a value that can be kept, the comparison is that of the keys. -/
theorem gt_eq_key {v best : Logit F} (hbest : best = posInf ∨ best.isFinite = true) :
    v.gt best = decide (best.key < v.key) := by
  rcases hbest with rfl | hfinite
  · cases v <;> simp [gt, key]
  · cases best with
    | finite y => cases v <;> simp [gt, key]
    | posInf | negInf | nan => cases hfinite

/-- Finite logits of one key are one. -/
theorem eq_of_key {v w : Logit F} (hv : v.isFinite = true) (hw : w.isFinite = true)
    (h : v.key = w.key) : v = w := by
  cases v with
  | finite x =>
    cases w with
    | finite y => exact congrArg finite (WithTop.coe_inj.1 h)
    | posInf | negInf | nan => cases hw
  | posInf | negInf | nan => cases hv

end Order

end Logit

/-- The logits of a vocabulary whose tokens are numbered in 32 bits. -/
structure LogitRow (F : Type) where
  vocab : ℕ
  logit : ℕ → Logit F
  vocab_lt : vocab < 2 ^ 32

/-- The two arrays of the selection. -/
structure TopTokens (F : Type) where
  tokens : ℕ → ℕ
  logits : ℕ → Logit F

section Selection
variable {F : Type} [LinearOrder F] [OrderBot F]

def TopTokens.init : TopTokens F := ⟨fun _ => uint32Max, fun _ => .finite ⊥⟩

def insertTopk (k : ℕ) (st : TopTokens F) (token : ℕ) (logit : Logit F) : TopTokens F :=
  match placeFirst k fun i => st.tokens i == uint32Max || logit.gt (st.logits i) with
  | none => st
  | some i => ⟨place k st.tokens i token, place k st.logits i logit⟩

namespace LogitRow
variable (row : LogitRow F) (k : ℕ)

/-- Non-finite logits are left out. -/
def topkFromLogits : TopTokens F :=
  (List.range row.vocab).foldl (fun st i =>
    if (row.logit i).isFinite then insertTopk k st i (row.logit i) else st) .init

/-- The loop of `ds4_stage_scheduler_select_topk_slot`, which a non-finite logit ends. -/
def selectTopk : Except String (TopTokens F) :=
  (List.range row.vocab).foldlM (fun st i =>
    if (row.logit i).isFinite then .ok (insertTopk k st i (row.logit i))
    else .error "output-head logits contained non-finite values") .init

/-- The tokens with finite logits. -/
def admissible : List ℕ := (List.range row.vocab).filter fun i => (row.logit i).isFinite

/-- The greater logit is first, and the lower token of two equal ones. -/
def Precedes (i j : ℕ) : Prop :=
  (row.logit j).key < (row.logit i).key ∨ (row.logit j).key = (row.logit i).key ∧ i < j

/-- The arrays hold the `k` first admissible tokens in order, each with its logit. -/
structure IsTopk (out : TopTokens F) : Prop where
  admitted : ∀ j < min k row.admissible.length, out.tokens j ∈ row.admissible
  logits : ∀ j < min k row.admissible.length, out.logits j = row.logit (out.tokens j)
  sorted : ∀ i j, i < j → j < min k row.admissible.length →
    row.Precedes (out.tokens i) (out.tokens j)
  ahead : ∀ x ∈ row.admissible, (∀ j < min k row.admissible.length, out.tokens j ≠ x) →
    ∀ j < min k row.admissible.length, row.Precedes (out.tokens j) x
  rest : ∀ j < k, row.admissible.length ≤ j → out.tokens j = uint32Max ∧ out.logits j = .finite ⊥

end LogitRow

/-- A cell of the two arrays. -/
abbrev Cell (F : Type) : Type := ℕ × Logit F

def TopTokens.cell (st : TopTokens F) (i : ℕ) : Cell F := (st.tokens i, st.logits i)

def goesBefore (x y : Cell F) : Bool := y.1 == uint32Max || x.2.gt y.2

omit [OrderBot F] in
theorem insertTopk_cell (k : ℕ) (st : TopTokens F) (token : ℕ) (logit : Logit F) :
    (insertTopk k st token logit).cell =
      match placeFirst k fun i => goesBefore (token, logit) (st.cell i) with
      | none => st.cell
      | some i => place k st.cell i (token, logit) := by
  have hsame : (fun i => goesBefore (token, logit) (st.cell i)) =
      fun i => st.tokens i == uint32Max || logit.gt (st.logits i) := rfl
  rw [hsame]
  unfold insertTopk
  cases placeFirst k fun i => st.tokens i == uint32Max || logit.gt (st.logits i) with
  | none => rfl
  | some i => exact place_pair k i st.tokens st.logits token logit

variable {row : LogitRow F} {k : ℕ}

omit [OrderBot F] in
/-- The two arrays stay aligned. -/
theorem foldl_cell (k : ℕ) (is : List ℕ) (logit : ℕ → Logit F) (st : TopTokens F) :
    (is.foldl (fun st i => insertTopk k st i (logit i)) st).cell =
      insertAll k goesBefore st.cell (is.map fun i => (i, logit i)) := by
  induction is generalizing st with
  | nil => rfl
  | cons i is ih =>
    rw [List.foldl_cons, ih, insertTopk_cell]
    rfl

theorem topkFromLogits_eq : row.topkFromLogits k =
    row.admissible.foldl (fun st i => insertTopk k st i (row.logit i)) .init := by
  unfold LogitRow.topkFromLogits LogitRow.admissible
  rw [List.foldl_filter]

omit [LinearOrder F] [OrderBot F] in
theorem mem_admissible {i : ℕ} :
    i ∈ row.admissible ↔ i < row.vocab ∧ (row.logit i).isFinite = true := by
  simp only [LogitRow.admissible, List.mem_filter, List.mem_range]

/-- Both loops hold the first of the admissible tokens, in their order. -/
theorem topk_holdsFirst (row : LogitRow F) (k : ℕ) :
    HoldsFirst (Ahead (fun x : Cell F => x.2.key) Prod.fst) k
    (uint32Max, .finite ⊥) (row.admissible.map fun i => (i, row.logit i))
    (row.topkFromLogits k).cell := by
  have hinit : (TopTokens.init : TopTokens F).cell = fun _ => (uint32Max, .finite ⊥) := rfl
  rw [topkFromLogits_eq, foldl_cell, hinit]
  refine insertAll_holdsFirst (fun x _ => rfl) ?_ ?_
  · rw [List.pairwise_map]
    have hlt : row.admissible.Pairwise (· < ·) := List.pairwise_lt_range.filter _
    refine hlt.imp_of_mem fun {i j} hi hj hij => ?_
    obtain ⟨hvocab, hfinite⟩ := mem_admissible.1 hi
    have hne : (i == uint32Max) = false := by
      have := row.vocab_lt
      rw [beq_eq_false_iff_ne]
      unfold uint32Max
      omega
    have hlater : ((i, row.logit i) : Cell F).1 < ((j, row.logit j) : Cell F).1 := hij
    rw [ahead_later (fun x : Cell F => x.2.key) Prod.fst hlater]
    unfold goesBefore
    rw [hne, Bool.false_or, Logit.gt_eq_key (Or.inr hfinite)]
    exact decide_eq_true_iff
  · exact (List.nodup_range.filter _).map fun i j h => congrArg Prod.fst h

/-- The insertion returns the top tokens, whatever the logits are. -/
theorem topkFromLogits_isTopk (row : LogitRow F) (k : ℕ) : row.IsTopk k (row.topkFromLogits k) := by
  obtain ⟨hmem, hdistinct, hsorted, hahead, hrest⟩ := topk_holdsFirst row k
  rw [List.length_map] at hmem hdistinct hsorted hahead hrest
  have hcell : ∀ j < min k row.admissible.length, (row.topkFromLogits k).tokens j ∈ row.admissible ∧
      (row.topkFromLogits k).logits j = row.logit ((row.topkFromLogits k).tokens j) := by
    intro j hj
    obtain ⟨i, hi, heq⟩ := List.mem_map.1 (hmem j hj)
    obtain ⟨htoken, hlogit⟩ := Prod.mk.inj heq
    rw [← hlogit, ← htoken]
    exact ⟨hi, rfl⟩
  refine ⟨fun j hj => (hcell j hj).1, fun j hj => (hcell j hj).2, fun i j hij hj => ?_,
    fun x hx hnone j hj => ?_, fun j hjk hj => ?_⟩
  · have hi := hij.trans hj
    have hne : ((row.topkFromLogits k).cell i).1 ≠ ((row.topkFromLogits k).cell j).1 := by
      intro hsame
      have hcells : (row.topkFromLogits k).cell i = (row.topkFromLogits k).cell j := by
        unfold TopTokens.cell
        rw [(hcell i hi).2, (hcell j hj).2]
        exact congrArg (fun t => (t, row.logit t)) hsame
      exact hij.ne (hdistinct i hi j hj hcells)
    have h := (hsorted i j hij hj).strict _ _ hne
    unfold TopTokens.cell at h
    simp only [(hcell i hi).2, (hcell j hj).2] at h
    exact h
  · have hout : ∀ j < min k row.admissible.length,
        (row.topkFromLogits k).cell j ≠ (x, row.logit x) :=
      fun j hj hsame => hnone j hj (congrArg Prod.fst hsame)
    have h := (hahead _ (List.mem_map_of_mem hx) hout j hj).strict _ _ (hnone j hj)
    unfold TopTokens.cell at h
    simp only [(hcell j hj).2] at h
    exact h
  · exact Prod.mk.inj (hrest j hjk (by omega))

/-- The scheduler's loop refuses a row with a logit that is not finite, and else is the other. -/
theorem selectTopk_eq (row : LogitRow F) (k : ℕ) : row.selectTopk k =
    if ∀ i < row.vocab, (row.logit i).isFinite = true then .ok (row.topkFromLogits k)
    else .error "output-head logits contained non-finite values" := by
  have hgen : ∀ (is : List ℕ) (st : TopTokens F), is.foldlM (fun st i =>
      if (row.logit i).isFinite then .ok (insertTopk k st i (row.logit i))
      else .error "output-head logits contained non-finite values") st =
        if ∀ i ∈ is, (row.logit i).isFinite = true then (.ok (is.foldl (fun st i =>
          if (row.logit i).isFinite then insertTopk k st i (row.logit i) else st) st) :
            Except String (TopTokens F))
        else .error "output-head logits contained non-finite values" := by
    intro is
    induction is with
    | nil =>
      intro st
      rw [if_pos (fun i hi => absurd hi List.not_mem_nil)]
      rfl
    | cons i is ih =>
      intro st
      rw [List.foldlM_cons, List.foldl_cons]
      by_cases hi : (row.logit i).isFinite = true
      · rw [if_pos hi, if_pos hi]
        refine (ih _).trans (if_congr ?_ rfl rfl)
        rw [List.forall_mem_cons]
        exact (and_iff_right hi).symm
      · rw [if_neg hi, if_neg fun h => hi (h i List.mem_cons_self)]
        rfl
  refine (hgen _ _).trans (if_congr ?_ rfl rfl)
  simp only [List.mem_range]

end Selection

end Ds4.Head
