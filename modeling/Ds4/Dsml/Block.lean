import Ds4.Dsml.Tracker

/-! The decode state of a text as a walk over its tool block. The reference recognizer
follows this walk when no JSON value hides a closing tag in a string. -/
namespace Ds4.Dsml
open Ds4.Search

section Walk
variable (syn : DsmlSyntax)

/-- What stands next in a block, behind white space. -/
inductive Item where
  | stop (state : DsmlDecodeState)
  | tag (rest : Bytes)
  | text (value : Bytes)
  | json (value : Bytes)

def blockItem (t : Bytes) : Item :=
  let t := skipAsciiWs t
  if t = [] then .stop .structural
  else if syn.toolCallsEnd <+: t then .stop .outside
  else if syn.invokeEnd <+: t then .tag (t.drop syn.invokeEnd.length)
  else if syn.invokeStart <+: t then
    match find [62] t with
    | none => .stop .structural
    | some i => .tag (t.drop (i + 1))
  else if syn.paramStart <+: t then
    match find [62] t with
    | none => .stop .structural
    | some i =>
        if dsmlAttrIsStringTrue (t.take (i + 1)) then .text (t.drop (i + 1))
        else .json (t.drop (i + 1))
  else .stop .structural

/-- The rest is the beginning of a closing tag, more than its `<`. -/
def Held (rest : Bytes) : Prop :=
  2 ≤ rest.length ∧ rest.length < syn.paramEnd.length ∧ rest <+: syn.paramEnd

instance (rest : Bytes) : Decidable (Held syn rest) := inferInstanceAs (Decidable (_ ∧ _))

/-- A value whose last bytes begin a closing tag. -/
def tailHeld : Bytes → Bool
  | [] => false
  | c :: t => decide (Held syn (c :: t)) || tailHeld t

inductive JsonEnd where
  | closed
  | held
  | cut (inString : Bool)
  deriving DecidableEq

/-- How far a JSON value reaches and what ends it, strings respected. -/
def jsonScan : Bool → Bool → Bytes → ℕ × JsonEnd
  | inString, _, [] => (0, .cut inString)
  | inString, escaped, c :: t =>
      if inString = false ∧ syn.paramEnd <+: c :: t then (0, .closed)
      else if inString = false ∧ Held syn (c :: t) then (0, .held)
      else
        let r := jsonScan (jsonAdvance inString escaped c).1 (jsonAdvance inString escaped c).2 t
        (r.1 + 1, r.2)

/-- The decode state that a block's text leads to, with at most `n` items. -/
def blockState : ℕ → Bytes → DsmlDecodeState
  | 0, _ => .structural
  | n + 1, t =>
      match blockItem syn t with
      | .stop state => state
      | .tag rest => blockState n rest
      | .text v =>
          match find syn.paramEnd v with
          | some k => blockState n (v.drop (k + syn.paramEnd.length))
          | none => if tailHeld syn v then .structural else .stringBody
      | .json v =>
          match jsonScan syn false false v with
          | (k, .closed) => blockState n (v.drop (k + syn.paramEnd.length))
          | (_, .held) => .structural
          | (_, .cut inString) => if inString then .jsonString else .jsonStructural

/-- The JSON values of a block, each with everything behind it. -/
def jsonValues : ℕ → Bytes → List Bytes
  | 0, _ => []
  | n + 1, t =>
      match blockItem syn t with
      | .stop _ => []
      | .tag rest => jsonValues n rest
      | .text v =>
          match find syn.paramEnd v with
          | some k => jsonValues n (v.drop (k + syn.paramEnd.length))
          | none => []
      | .json v =>
          v :: match jsonScan syn false false v with
            | (k, .closed) => jsonValues n (v.drop (k + syn.paramEnd.length))
            | _ => []

def JsonEnd.isCut : JsonEnd → Bool
  | .cut _ => true
  | _ => false

/-- Where the value's closing tag has come, or begun, none stands in its strings. -/
def ClosesFirst (v : Bytes) : Prop :=
  (jsonScan syn false false v).2.isCut = true ∨
    ∀ j < (jsonScan syn false false v).1, ¬ syn.paramEnd <+: v.drop j

instance (v : Bytes) : Decidable (ClosesFirst syn v) := inferInstanceAs (Decidable (_ ∨ _))

end Walk

section Values
variable {syn : DsmlSyntax}

/-- What follows the `<` of a held tail is not held and closes nothing. -/
theorem not_prefix_behind_held {rest : Bytes} (h : Held syn rest) :
    ∀ j, ¬ syn.paramEnd <+: rest.drop j := by
  intro j hp
  have h1 := hp.length_le
  have h2 := h.2.1
  simp only [List.length_drop] at h1
  omega

theorem quote_notMem_held {rest : Bytes} (h : Held syn rest) : 34 ∉ rest :=
  fun hm => syn.paramEnd_tag.2.2.2.2 (h.2.2.subset hm)

theorem jsonAdvance_inString {c : UInt8} (hc : c ≠ 34) (escaped : Bool) :
    (jsonAdvance true escaped c).1 = true := by
  unfold jsonAdvance
  split_ifs <;> simp_all

theorem jsonScan_inString {v : Bytes} (h : 34 ∉ v) (escaped : Bool) :
    (jsonScan syn true escaped v).2 = .cut true := by
  induction v generalizing escaped with
  | nil => rfl
  | cons c v ih =>
    have hc : c ≠ 34 := fun hc => h (hc ▸ List.mem_cons_self)
    simp only [jsonScan, Bool.true_eq_false, false_and, ↓reduceIte, jsonAdvance_inString hc]
    exact ih (fun hm => h (List.mem_cons_of_mem _ hm)) _

/-- A scan that ends outside strings has met every held tail. -/
theorem tailHeld_of_cut {v : Bytes} {inString escaped : Bool}
    (h : (jsonScan syn inString escaped v).2 = .cut false) : tailHeld syn v = false := by
  induction v generalizing inString escaped with
  | nil => rfl
  | cons c v ih =>
    simp only [jsonScan] at h
    split_ifs at h with h1 h2
    simp only [tailHeld, Bool.or_eq_false_iff, decide_eq_false_iff_not]
    refine ⟨fun hh => ?_, ih h⟩
    cases inString with
    | false => exact h2 ⟨rfl, hh⟩
    | true =>
      have hq := quote_notMem_held hh
      have hc : c ≠ 34 := fun hc => hq (hc ▸ List.mem_cons_self)
      rw [jsonAdvance_inString hc, jsonScan_inString fun hm => hq (List.mem_cons_of_mem _ hm)] at h
      simp at h

end Values

end Ds4.Dsml
