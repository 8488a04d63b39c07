import Ds4.Dsml.Render
import Ds4.Json.Rewrite

/-! The arguments of a call as the renderer reads them. -/
namespace Ds4.Dsml
open Ds4.Json

/-- A member of an arguments object. -/
abbrev Member := List StrElem × Syn

/-- What the renderer keeps of a member. -/
def ArgOf (m : Member) (a : JsonArg) : Prop :=
  a.key = cstr (written m.1) ∧
    match m.2 with
    | .str es => a.isString = true ∧ a.value = cstr (written es)
    | v => a.isString = false ∧ ValueText a.value v

theorem argOf_value {k : List StrElem} {v : Syn} {a : JsonArg} (hk : a.key = cstr (written k))
    (hv : ∀ es, v ≠ .str es) (hs : a.isString = false) (ht : ValueText a.value v) :
    ArgOf (k, v) a := by
  refine ⟨hk, ?_⟩
  cases v with
  | str es => exact absurd rfl (hv es)
  | null | bool | num | arr | obj => exact ⟨hs, ht⟩

theorem valueText_str {t : Bytes} {es : List StrElem} (h : ValueText t (.str es)) :
    StringText t es := by
  cases h with
  | str h => exact h

/-- Only a string begins with a quote. -/
theorem valueText_quote {t : Bytes} {v : Syn} (h : ValueText t v) (hv : ∀ es, v ≠ .str es) :
    ∃ c u, t = c :: u ∧ c ≠ 34 := by
  cases h with
  | null => exact ⟨110, _, rfl, by decide⟩
  | true => exact ⟨116, _, rfl, by decide⟩
  | false => exact ⟨102, _, rfl, by decide⟩
  | num h =>
    obtain ⟨c, u, rfl, hc⟩ := numberText_head h
    exact ⟨c, u, rfl, by rintro rfl; exact absurd hc (by decide)⟩
  | str h => exact absurd rfl (hv _)
  | arrNil | arr => exact ⟨91, _, rfl, by decide⟩
  | objNil | obj => exact ⟨123, _, rfl, by decide⟩

theorem jsonArgValue_text {k : List StrElem} {c t r : Bytes} {v : Syn} (hc : Ws c)
    (h : ValueText t v) (hr : NumEnd r) :
    if v.depth ≤ jsonMaxNesting then
      ∃ a, jsonArgValue (written k) (c ++ (t ++ r)) = some (a, r) ∧ ArgOf (k, v) a
    else jsonArgValue (written k) (c ++ (t ++ r)) = none := by
  by_cases hs : ∃ es, v = .str es
  · obtain ⟨es, rfl⟩ := hs
    rw [if_pos (by simp [Value.depth])]
    have hstr := valueText_str h
    have hread := jsonString_text (a := []) (r := r) (by simp [Ws]) hstr
    obtain ⟨_⟩ := hstr
    refine ⟨⟨cstr (written k), cstr (written es), true⟩, ?_, rfl, rfl, rfl⟩
    simp only [List.nil_append, List.cons_append] at hread
    simp only [jsonArgValue, jsonWs_value hc h]
    simp only [List.cons_append, hread, Option.map_some]
  · have hv : ∀ es, v ≠ .str es := fun es he => hs ⟨es, he⟩
    obtain ⟨q, u, hq, hne⟩ := valueText_quote h hv
    have hraw := jsonRawValue_text (a := []) (by simp [Ws]) h hr
    have hread : jsonArgValue (written k) (c ++ (t ++ r)) = (jsonRawValue (t ++ r)).map fun q =>
        (JsonArg.mk (cstr (written k)) (jsonMinifyRawValue q.1) false, q.2) := by
      unfold jsonArgValue
      rw [jsonWs_value hc h]
      split
      · next heq =>
        rw [hq] at heq
        exact absurd (List.cons.inj heq).1 hne
      · rfl
    simp only [List.nil_append] at hraw
    rw [hread, hraw]
    split_ifs with hd
    · refine ⟨_, rfl, argOf_value rfl hv rfl ?_⟩
      rw [jsonMinifyRawValue_text h hd]
      exact minifyLoop_text h
    · rfl

theorem jsonArgsLoop_quote (n : ℕ) (s : Bytes) :
    jsonArgsLoop (n + 1) (34 :: s) =
      match jsonString (34 :: s) with
      | none => none
      | some (key, p) =>
          match jsonWs p with
          | 58 :: p =>
              match jsonArgValue key p with
              | none => none
              | some (arg, p) => (jsonArgsLoop n (skipComma p)).map (arg :: ·)
          | _ => none := rfl

theorem jsonArgsLoop_step {n : ℕ} {a k b s : Bytes} {es : List StrElem} (ha : Ws a)
    (hk : StringText k es) (hb : Ws b) :
    jsonArgsLoop (n + 1) (jsonWs (a ++ (k ++ (b ++ 58 :: s)))) =
      match jsonArgValue (written es) s with
      | none => none
      | some (arg, p) => (jsonArgsLoop n (skipComma p)).map (arg :: ·) := by
  have hread := jsonString_text (a := []) (r := b ++ 58 :: s) (by simp [Ws]) hk
  obtain ⟨_⟩ := hk
  simp only [List.nil_append, List.cons_append] at hread
  rw [List.cons_append, jsonWs_mark ha (by decide)]
  simp only [jsonArgsLoop_quote, hread, jsonWs_mark hb (by decide : isSpace 58 = false)]

theorem skipComma_close {d r : Bytes} (hd : Ws d) : skipComma (d ++ 125 :: r) = 125 :: r := by
  rw [skipComma, jsonWs_mark hd (by decide)]
  rfl

theorem skipComma_comma {d r : Bytes} (hd : Ws d) : skipComma (d ++ 44 :: r) = jsonWs r := by
  rw [skipComma, jsonWs_mark hd (by decide)]
  rfl

/-- The loop reads the members unless one of them is nested too deeply. -/
theorem jsonArgsLoop_text {t r : Bytes} {l : List Member} : ∀ {n : ℕ}, MembersText t l →
    t.length + 1 < n →
    if depthMembers l ≤ jsonMaxNesting then
      ∃ args, jsonArgsLoop n (jsonWs (t ++ 125 :: r)) = some args ∧ List.Forall₂ ArgOf l args
    else jsonArgsLoop n (jsonWs (t ++ 125 :: r)) = none
  | 0, _, hn => absurd hn (by omega)
  | n + 1, @MembersText.one a k b c t d es v ha hk hb hc hv hd, hn => by
      have hval := jsonArgValue_text (k := es) (r := d ++ 125 :: r) hc hv
        (numEnd_ws hd (numEnd_cons (by decide)))
      simp only [List.append_assoc, List.cons_append, jsonArgsLoop_step ha hk hb, depthMembers,
        Nat.max_zero]
      split_ifs at hval ⊢ with hdep
      · obtain ⟨arg, harg, hof⟩ := hval
        obtain ⟨n, rfl⟩ : ∃ m, n = m + 1 := ⟨n - 1, by omega⟩
        refine ⟨[arg], ?_, .cons hof .nil⟩
        simp only [harg, skipComma_close hd, jsonArgsLoop, Option.map_some]
      · simp only [hval]
  | n + 1, @MembersText.cons a k b c t d s es v l ha hk hb hc hv hd hs, hn => by
      have hval := jsonArgValue_text (k := es) (r := d ++ 44 :: (s ++ 125 :: r)) hc hv
        (numEnd_ws hd (numEnd_cons (by decide)))
      have hrest := jsonArgsLoop_text (r := r) (n := n) hs (by simp at hn; omega)
      simp only [List.append_assoc, List.cons_append, jsonArgsLoop_step ha hk hb, depthMembers,
        Nat.max_le]
      by_cases hdep : v.depth ≤ jsonMaxNesting
      · rw [if_pos hdep] at hval
        obtain ⟨arg, harg, hof⟩ := hval
        simp only [harg, skipComma_comma hd, hdep, true_and]
        split_ifs at hrest ⊢ with hl
        · obtain ⟨args, hargs, hall⟩ := hrest
          exact ⟨arg :: args, by rw [hargs]; rfl, .cons hof hall⟩
        · rw [hrest]
          rfl
      · rw [if_neg hdep] at hval
        simp only [hval, hdep, false_and, ↓reduceIte]

theorem jsonArgsParse_text {t : Bytes} {l : List Member} (h : ObjectText t l) :
    if depthMembers l ≤ jsonMaxNesting then
      ∃ args, jsonArgsParse t = some args ∧ List.Forall₂ ArgOf l args
    else jsonArgsParse t = none := by
  obtain ⟨ha, ht, _⟩ := h
  next a t b _ =>
  have hws := jsonWs_value (r := b) ha ht
  cases ht with
  | @objNil w hw =>
    simp only [List.cons_append, List.append_assoc, List.nil_append] at hws
    rw [if_pos (by simp [depthMembers])]
    refine ⟨[], ?_, .nil⟩
    simp only [jsonArgsParse, List.cons_append, List.append_assoc, List.nil_append, hws,
      jsonWs_mark hw (by decide : isSpace 125 = false), jsonArgsLoop]
  | @obj u _ hm =>
    simp only [List.cons_append, List.append_assoc, List.nil_append] at hws
    have := jsonArgsLoop_text (r := b) (n := (u ++ 125 :: b).length + 1) hm (by simp)
    simp only [jsonArgsParse, List.cons_append, List.append_assoc, List.nil_append, hws]
    exact this

end Ds4.Dsml
