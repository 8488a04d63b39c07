import Ds4.Memory.ToolMap

/-! The blocks that the tool map finds in a transcript: every tool block that stands in it, closed
where it ends and not before, and nothing that does not occur in it. -/
namespace Ds4.Memory
open Dsml (DsmlSyntax dsmlSyntaxes)

/-- A tool block: an opening tag, behind two newlines or not, and the closing tag at its end and
nowhere before. -/
def IsToolBlock (t : Bytes) : Prop :=
  ∃ syn ∈ dsmlSyntaxes, ∃ lead body, (lead = [] ∨ lead = [10, 10]) ∧
    t = lead ++ (syn.toolCallsStart ++ body ++ syn.toolCallsEnd) ∧
    ∀ i < (syn.toolCallsStart ++ body).length,
      ¬ syn.toolCallsEnd <+: (syn.toolCallsStart ++ body ++ syn.toolCallsEnd).drop i

/-- No block starts in the first bytes of the text: what opens there is never closed. -/
def NoBlockBefore (n : ℕ) (text : Bytes) : Prop :=
  ∀ syn ∈ dsmlSyntaxes, ∀ i < n, syn.toolCallsStart <+: text.drop i →
    ¬ syn.toolCallsEnd <:+: text.drop i

/-- The block stands in the text, behind other blocks that are closed; two newlines in front of
its tag are a part of it. -/
inductive StandsIn (t : Bytes) : Bytes → Prop
  | here {s rest : Bytes} (hs : NoBlockBefore s.length (s ++ (t ++ rest))) (ht : IsToolBlock t)
      (hlead : t.head? = some 60 → ¬ [10, 10] <:+ s) : StandsIn t (s ++ (t ++ rest))
  | behind {s b rest : Bytes} (hs : NoBlockBefore s.length (s ++ (b ++ rest)))
      (hb : IsToolBlock b) (h : StandsIn t rest) : StandsIn t (s ++ (b ++ rest))

section Forms
variable {p : Bytes}

theorem mem_blockForms {form : Bytes × Bytes} (h : form ∈ blockForms) :
    ∃ syn ∈ dsmlSyntaxes, ∃ lead, (lead = [] ∨ lead = [10, 10]) ∧
      form = (lead ++ syn.toolCallsStart, syn.toolCallsEnd) := by
  obtain ⟨syn, hsyn, hform⟩ := List.mem_flatMap.1 h
  rcases List.mem_pair.1 hform with rfl | rfl
  · exact ⟨syn, hsyn, [10, 10], Or.inr rfl, rfl⟩
  · exact ⟨syn, hsyn, [], Or.inl rfl, rfl⟩

theorem form_mem {syn : DsmlSyntax} (hsyn : syn ∈ dsmlSyntaxes) {lead : Bytes}
    (hlead : lead = [] ∨ lead = [10, 10]) :
    (lead ++ syn.toolCallsStart, syn.toolCallsEnd) ∈ blockForms := by
  refine List.mem_flatMap.2 ⟨syn, hsyn, List.mem_pair.2 ?_⟩
  rcases hlead with rfl | rfl
  · exact Or.inr rfl
  · exact Or.inl rfl

/-- No form starts another one. -/
theorem blockForms_apart : ∀ f ∈ blockForms, ∀ g ∈ blockForms, f.1 <+: g.1 → f = g := by
  decide

theorem blockForms_ne : ∀ form ∈ blockForms, form.1 ≠ [] ∧ 0 < form.2.length := by
  decide

/-- The form is closed: where it starts first, and how far behind that its end starts. -/
def Closed (p : Bytes) (form : Bytes × Bytes) (s e : ℕ) : Prop :=
  Search.find form.1 p = some s ∧ Search.find form.2 (p.drop s) = some e

theorem betterBlock_closed {form : Bytes × Bytes} {s e : ℕ} (h : Closed p form s e)
    (best : Option (ℕ × ℕ)) : betterBlock p best form =
      if best.any fun b => b.1 ≤ s then best else some (s, s + e + form.2.length) := by
  unfold betterBlock
  rw [h.1]
  simp only
  rw [h.2]

/-- A form that is not closed changes nothing. -/
theorem betterBlock_cases (p : Bytes) (form : Bytes × Bytes) :
    (∃ s e, Closed p form s e) ∨ ∀ best, betterBlock p best form = best := by
  unfold betterBlock Closed
  cases Search.find form.1 p with
  | none => exact Or.inr fun _ => rfl
  | some s =>
    cases hend : Search.find form.2 (p.drop s) with
    | none => exact Or.inr fun best => by simp only [hend, ite_self]
    | some e => exact Or.inl ⟨s, e, rfl, hend⟩

/-- A form starts where no other one does. -/
theorem form_unique {f g : Bytes × Bytes} {q : ℕ} (hf : f ∈ blockForms) (hg : g ∈ blockForms)
    (hfs : Search.find f.1 p = some q) (hgs : Search.find g.1 p = some q) : g = f := by
  rcases List.prefix_or_prefix_of_prefix (Search.find_some hgs).1 (Search.find_some hfs).1 with
    hpre | hpre
  · exact blockForms_apart g hg f hf hpre
  · exact (blockForms_apart f hf g hg hpre).symm

/-- The earliest form that is closed is the one found. -/
theorem findNext_least {q k : ℕ} {f : Bytes × Bytes} (hf : f ∈ blockForms)
    (hclosed : Closed p f q k) (hleast : ∀ g ∈ blockForms, ∀ s e, Closed p g s e → q ≤ s) :
    findNextDsmlToolBlock p = some (q, q + k + f.2.length) := by
  -- the best so far is the one or, before its form is tried, a later one
  have hfold : ∀ forms : List (Bytes × Bytes), (∀ g ∈ forms, g ∈ blockForms) →
      ∀ best : Option (ℕ × ℕ),
        (best = some (q, q + k + f.2.length) ∨ f ∈ forms ∧ ∀ b ∈ best, q < b.1) →
        forms.foldl (betterBlock p) best = some (q, q + k + f.2.length) := by
    intro forms
    induction forms with
    | nil =>
      intro _ best hbest
      exact hbest.resolve_right (by simp)
    | cons g forms ih =>
      intro hforms best hbest
      have hg := hforms g List.mem_cons_self
      rw [List.foldl_cons]
      apply ih fun f hf => hforms f (List.mem_cons_of_mem g hf)
      by_cases hgf : g = f
      · subst hgf
        left
        rw [betterBlock_closed hclosed]
        rcases hbest with rfl | ⟨-, hlater⟩
        · exact if_pos (by simp)
        · cases best with
          | none => rfl
          | some b => exact if_neg (by simpa using hlater b rfl)
      · have hrest : f ∈ g :: forms → f ∈ forms :=
          fun hmem => (List.mem_cons.1 hmem).resolve_left (Ne.symm hgf)
        obtain ⟨s, e, hse⟩ | hsame := betterBlock_cases p g
        · have hle := hleast g hg s e hse
          have hne : q ≠ s := by
            rintro rfl
            exact hgf (form_unique hf hg hclosed.1 hse.1)
          rw [betterBlock_closed hse]
          rcases hbest with rfl | ⟨hmem, hlater⟩
          · left
            exact if_pos (by simpa using hle)
          · refine Or.inr ⟨hrest hmem, ?_⟩
            intro b hb
            split_ifs at hb
            · exact hlater b hb
            · obtain rfl := Option.some.inj hb
              exact lt_of_le_of_ne hle hne
        · rw [hsame]
          exact hbest.imp_right fun h => ⟨hrest h.1, h.2⟩
  exact hfold blockForms (fun _ h => h) none (Or.inr ⟨hf, by simp⟩)

/-- A block ends behind the first byte of what it was looked for in. -/
theorem findNext_pos {s e : ℕ} (h : findNextDsmlToolBlock p = some (s, e)) : 0 < e ∧ p ≠ [] := by
  have hfold : ∀ forms : List (Bytes × Bytes), (∀ f ∈ forms, f.1 ≠ [] ∧ 0 < f.2.length) →
      ∀ best : Option (ℕ × ℕ), (∀ b ∈ best, 0 < b.2 ∧ p ≠ []) →
        ∀ b ∈ forms.foldl (betterBlock p) best, 0 < b.2 ∧ p ≠ [] := by
    intro forms
    induction forms with
    | nil => exact fun _ best hbest => hbest
    | cons form forms ih =>
      intro hforms best hbest
      rw [List.foldl_cons]
      apply ih fun f hf => hforms f (List.mem_cons_of_mem form hf)
      obtain ⟨hne, hpos⟩ := hforms form List.mem_cons_self
      obtain ⟨s, e, hse⟩ | hsame := betterBlock_cases p form
      · intro b hb
        rw [betterBlock_closed hse] at hb
        split_ifs at hb
        · exact hbest b hb
        · obtain rfl := Option.some.inj hb
          refine ⟨by omega, ?_⟩
          rintro rfl
          have hpre := (Search.find_some hse.1).1
          rw [List.drop_nil] at hpre
          exact hne (List.prefix_nil.1 hpre)
      · rwa [hsame]
  exact hfold blockForms blockForms_ne none (fun b hb => by cases hb) (s, e) h

/-- More rounds find nothing more. -/
theorem blocksFrom_stable (n : ℕ) : ∀ (k : ℕ) (p : Bytes), p.length < n → p.length < k →
    blocksFrom n p = blocksFrom k p := by
  induction n with
  | zero =>
    intro k p hn
    omega
  | succ n ih =>
    intro k p hn hk
    cases k with
    | zero => omega
    | succ k =>
      rw [blocksFrom, blocksFrom]
      cases hfind : findNextDsmlToolBlock p with
      | none => rfl
      | some se =>
        obtain ⟨hpos, hne⟩ := findNext_pos (s := se.1) (e := se.2) hfind
        have hlen := List.length_pos_iff.2 hne
        have hdrop : (p.drop se.2).length < p.length := by
          rw [List.length_drop]
          omega
        simp only
        rw [ih k (p.drop se.2) (by omega) (by omega)]

/-- The loop over the blocks of a text. -/
theorem toolBlocks_eq (p : Bytes) : toolBlocks p =
    match findNextDsmlToolBlock p with
    | none => []
    | some (s, e) => (p.take e).drop s :: toolBlocks (p.drop e) := by
  have hstart : toolBlocks p = blocksFrom (p.length + 1) p := rfl
  rw [hstart, blocksFrom]
  cases hfind : findNextDsmlToolBlock p with
  | none => rfl
  | some se =>
    obtain ⟨hpos, hne⟩ := findNext_pos (s := se.1) (e := se.2) hfind
    have hlen := List.length_pos_iff.2 hne
    have hdrop : (p.drop se.2).length < p.length := by
      rw [List.length_drop]
      omega
    simp only
    rw [blocksFrom_stable p.length _ (p.drop se.2) hdrop (Nat.lt_succ_self _)]
    rfl

end Forms

section Found
variable {syn : DsmlSyntax} {a body rest pre lead : Bytes}

theorem start_head (syn : DsmlSyntax) : ∃ u, syn.toolCallsStart = 60 :: u := by
  obtain ⟨u, hu, -⟩ := syn.toolCallsStart_tag.cons
  exact ⟨u, hu⟩

theorem end_head (syn : DsmlSyntax) : ∃ u, syn.toolCallsEnd = 60 :: u := by
  obtain ⟨u, hu, -⟩ := syn.toolCallsEnd_tag.cons
  exact ⟨u, hu⟩

theorem head_of_prefix {c : UInt8} {u s : Bytes} {i : ℕ} (h : c :: u <+: s.drop i) :
    s[i]? = some c := by
  obtain ⟨v, hv⟩ := h
  rw [← List.head?_drop, ← hv]
  rfl

/-- A closing tag lies behind newlines that are skipped. -/
theorem end_infix_drop {s : Bytes} (hlead : lead = [] ∨ lead = [10, 10]) (hpre : lead <+: s)
    (h : syn.toolCallsEnd <:+: s) : syn.toolCallsEnd <:+: s.drop lead.length := by
  rcases hlead with rfl | rfl
  · exact h
  · obtain ⟨t, rfl⟩ := hpre
    obtain ⟨u, hu⟩ := end_head syn
    rw [hu] at h ⊢
    have hstep : ∀ r : Bytes, 60 :: u <:+: 10 :: r → 60 :: u <:+: r := by
      intro r hr
      refine (List.infix_cons_iff.1 hr).resolve_left ?_
      intro hp
      exact absurd (List.cons_prefix_cons.1 hp).1 (by decide)
    exact hstep _ (hstep _ h)

/-- The form with the newlines starts where they do, since no block starts before the tag. -/
theorem find_start (hsyn : syn ∈ dsmlSyntaxes) (hs : NoBlockBefore (pre ++ lead).length
      (pre ++ lead ++ (syn.toolCallsStart ++ body ++ syn.toolCallsEnd ++ rest))) :
    Search.find (lead ++ syn.toolCallsStart)
      (pre ++ lead ++ (syn.toolCallsStart ++ body ++ syn.toolCallsEnd ++ rest)) =
      some pre.length := by
  generalize htext : pre ++ lead ++ (syn.toolCallsStart ++ body ++ syn.toolCallsEnd ++ rest) =
    text at *
  rw [Search.find_eq_some_iff]
  refine ⟨⟨?_, ?_⟩, ?_⟩
  · rw [← htext, List.append_assoc, List.drop_left]
    exact ⟨body ++ syn.toolCallsEnd ++ rest, by simp⟩
  · rw [← htext, List.length_append, List.length_append]
    omega
  · intro j hj hpre
    obtain ⟨t, ht⟩ := hpre
    have hopen : syn.toolCallsStart <+: text.drop (j + lead.length) := by
      rw [← List.drop_drop, ← ht, List.append_assoc, List.drop_left]
      exact List.prefix_append _ _
    have hlt : j + lead.length < (pre ++ lead).length := by
      rw [List.length_append]
      omega
    refine hs syn hsyn _ hlt hopen ?_
    rw [← htext, List.drop_append_of_le_length hlt.le]
    exact ⟨(pre ++ lead).drop (j + lead.length) ++ (syn.toolCallsStart ++ body), rest, by simp⟩

/-- The closing tag lies at the end of the block. -/
theorem find_end (hlead : lead = [] ∨ lead = [10, 10])
    (hend : ∀ i < (syn.toolCallsStart ++ body).length,
      ¬ syn.toolCallsEnd <+: (syn.toolCallsStart ++ body ++ syn.toolCallsEnd).drop i) :
    Search.find syn.toolCallsEnd
      (lead ++ (syn.toolCallsStart ++ body ++ syn.toolCallsEnd ++ rest)) =
      some (lead.length + (syn.toolCallsStart ++ body).length) := by
  obtain ⟨v, hv⟩ := end_head syn
  rw [Search.find_eq_some_iff]
  refine ⟨⟨?_, ?_⟩, ?_⟩
  · rw [← List.drop_drop, List.drop_left, List.append_assoc, List.drop_left]
    exact List.prefix_append _ _
  · simp only [List.length_append]
    omega
  · intro j hj hpre
    by_cases hjlead : j < lead.length
    · rw [hv] at hpre
      have hhead := head_of_prefix hpre
      rw [List.getElem?_append_left hjlead] at hhead
      rcases hlead with rfl | rfl
      · exact absurd hjlead (Nat.not_lt_zero j)
      · have hmem := List.mem_of_getElem? hhead
        exact absurd hmem (by decide)
    · obtain ⟨i, rfl⟩ := Nat.exists_eq_add_of_le (Nat.le_of_not_lt hjlead)
      have hi : i < (syn.toolCallsStart ++ body).length := by omega
      have hle : i + syn.toolCallsEnd.length ≤
          (syn.toolCallsStart ++ body ++ syn.toolCallsEnd).length := by
        rw [List.length_append]
        omega
      rw [← List.drop_drop, List.drop_left, List.drop_append_of_le_length (by omega)] at hpre
      refine hend i hi (List.prefix_of_prefix_length_le hpre (List.prefix_append _ _) ?_)
      rw [List.length_drop]
      omega

theorem suffix_pair {c d : UInt8} {j : ℕ} (h0 : a[j]? = some c) (h1 : a[j + 1]? = some d)
    (hlen : a.length = j + 2) : [c, d] <:+ a := by
  refine ⟨a.take j, ?_⟩
  conv_rhs => rw [← List.take_append_drop j a]
  congr 1
  rw [List.drop_eq_getElem?_toList_append, List.drop_eq_getElem?_toList_append, h0, h1,
    List.drop_of_length_le (by omega)]
  rfl

/-- A closed form starts no earlier than the newlines in front of the tag: it would open a block
before the tag, or lie across the newlines. -/
theorem closed_least {t : Bytes} (hs : NoBlockBefore (pre ++ lead).length (pre ++ lead ++ 60 :: t))
    (hlead : lead = [] ∨ lead = [10, 10]) (hmost : lead = [] → ¬ [10, 10] <:+ pre) :
    ∀ g ∈ blockForms, ∀ j e, Closed (pre ++ lead ++ 60 :: t) g j e → pre.length ≤ j := by
  rintro g hg j e ⟨hj, he⟩
  obtain ⟨syn, hsyn, lead', hlead', rfl⟩ := mem_blockForms hg
  have halen : (pre ++ lead).length = pre.length + lead.length := List.length_append
  have hpre := (Search.find_some hj).1
  have hopen : syn.toolCallsStart <+: (pre ++ lead ++ 60 :: t).drop (j + lead'.length) := by
    obtain ⟨u, hu⟩ := hpre
    rw [← List.drop_drop, ← hu, List.append_assoc, List.drop_left]
    exact List.prefix_append _ _
  have hclose : syn.toolCallsEnd <:+: (pre ++ lead ++ 60 :: t).drop (j + lead'.length) := by
    rw [← List.drop_drop]
    refine end_infix_drop hlead' ((List.prefix_append _ _).trans hpre) ?_
    exact (Search.find_some he).1.isInfix.trans (List.drop_suffix _ _).isInfix
  have hfar : (pre ++ lead).length ≤ j + lead'.length := by
    by_contra hlt
    exact hs syn hsyn _ (Nat.lt_of_not_le hlt) hopen hclose
  by_contra hlt
  rcases hlead' with rfl | rfl
  · rw [List.length_nil] at hfar
    omega
  · have hfar : (pre ++ lead).length ≤ j + 2 := hfar
    rcases hlead with rfl | rfl
    · rw [List.append_nil] at hfar hpre
      obtain ⟨u, hu⟩ := hpre
      have h0 : (pre ++ 60 :: t)[j]? = some 10 := by
        rw [← List.head?_drop, ← hu]
        rfl
      have h1 : (pre ++ 60 :: t)[j + 1]? = some 10 := by
        rw [← List.head?_drop, ← List.drop_drop, ← hu]
        rfl
      have hj2 : pre.length = j + 2 ∨ pre.length = j + 1 := by omega
      rcases hj2 with hj2 | hj2
      · rw [List.getElem?_append_left (by omega)] at h0 h1
        exact hmost rfl (suffix_pair h0 h1 hj2)
      · rw [List.getElem?_append_right hj2.le, hj2, Nat.sub_self] at h1
        cases h1
    · have hlen2 : ([10, 10] : Bytes).length = 2 := rfl
      omega

/-- The tag behind the newlines, if any, opens the first block of the text. -/
theorem findNext_tag (hsyn : syn ∈ dsmlSyntaxes)
    (hend : ∀ i < (syn.toolCallsStart ++ body).length,
      ¬ syn.toolCallsEnd <+: (syn.toolCallsStart ++ body ++ syn.toolCallsEnd).drop i)
    (hs : NoBlockBefore (pre ++ lead).length
      (pre ++ lead ++ (syn.toolCallsStart ++ body ++ syn.toolCallsEnd ++ rest)))
    (hlead : lead = [] ∨ lead = [10, 10]) (hmost : lead = [] → ¬ [10, 10] <:+ pre) :
    findNextDsmlToolBlock
        (pre ++ lead ++ (syn.toolCallsStart ++ body ++ syn.toolCallsEnd ++ rest)) =
      some (pre.length,
        (pre ++ lead).length + (syn.toolCallsStart ++ body ++ syn.toolCallsEnd).length) := by
  have hclosed : Closed
      (pre ++ lead ++ (syn.toolCallsStart ++ body ++ syn.toolCallsEnd ++ rest))
      (lead ++ syn.toolCallsStart, syn.toolCallsEnd) pre.length
      (lead.length + (syn.toolCallsStart ++ body).length) := by
    refine ⟨find_start hsyn hs, ?_⟩
    rw [List.append_assoc, List.drop_left]
    exact find_end hlead hend
  obtain ⟨u, hu⟩ := start_head syn
  rw [findNext_least (form_mem hsyn hlead) hclosed ?_]
  · simp only [List.length_append, Option.some.injEq, Prod.mk.injEq, true_and]
    omega
  · rw [hu] at hs ⊢
    exact closed_least hs hlead hmost

/-- A block behind text without blocks is found up to its end, from its first byte on where two
newlines in front of its tag are its own. -/
theorem findNext_block {s t : Bytes} (hs : NoBlockBefore s.length (s ++ (t ++ rest)))
    (ht : IsToolBlock t) : ∃ q, findNextDsmlToolBlock (s ++ (t ++ rest)) =
      some (q, s.length + t.length) ∧ ((t.head? = some 60 → ¬ [10, 10] <:+ s) → q = s.length) := by
  obtain ⟨syn, hsyn, lead, body, hlead, rfl, hend⟩ := ht
  generalize hcore : syn.toolCallsStart ++ body ++ syn.toolCallsEnd = core at *
  have htext : s ++ (lead ++ core ++ rest) = s ++ lead ++ (core ++ rest) := by simp
  have hlen : s.length + (lead ++ core).length = (s ++ lead).length + core.length := by
    rw [List.length_append, List.length_append, Nat.add_assoc]
  have hnone : NoBlockBefore (s ++ lead).length (s ++ lead ++ (core ++ rest)) := by
    intro syn' hsyn' i hi hopen
    rw [htext] at hs
    by_cases his : i < s.length
    · exact hs syn' hsyn' i his hopen
    · exfalso
      obtain ⟨u, hu⟩ := start_head syn'
      rw [hu] at hopen
      have hhead := head_of_prefix hopen
      rw [List.getElem?_append_left hi, List.getElem?_append_right (Nat.le_of_not_lt his)] at hhead
      have hmem := List.mem_of_getElem? hhead
      rcases hlead with rfl | rfl
      · cases hmem
      · exact absurd hmem (by decide)
  rw [htext, hlen]
  subst hcore
  by_cases hsuffix : [10, 10] <:+ s ++ lead
  · obtain ⟨pre, hpre⟩ := hsuffix
    rw [← hpre] at hnone ⊢
    refine ⟨pre.length, findNext_tag hsyn hend hnone (Or.inr rfl) (by simp), ?_⟩
    intro hmine
    rcases hlead with rfl | rfl
    · obtain ⟨u, hu⟩ := start_head syn
      rw [List.append_nil] at hpre
      rw [hu] at hmine
      exact absurd ⟨pre, hpre⟩ (hmine rfl)
    · exact congrArg List.length (List.append_cancel_right hpre)
  · rw [← List.append_nil (s ++ lead)] at hnone ⊢
    refine ⟨(s ++ lead).length,
      findNext_tag hsyn hend hnone (Or.inl rfl) fun _ => hsuffix, ?_⟩
    intro _
    rcases hlead with rfl | rfl
    · rw [List.append_nil]
    · exact absurd (List.suffix_append s [10, 10]) hsuffix

/-- A block that stands in the text is one of those found. -/
theorem standsIn_found {t text : Bytes} (h : StandsIn t text) : t ∈ toolBlocks text := by
  induction h with
  | @here s rest hs ht hlead =>
    obtain ⟨q, hfind, hq⟩ := findNext_block hs ht
    obtain rfl := hq hlead
    rw [toolBlocks_eq, hfind]
    simp only
    apply List.mem_cons.2
    left
    rw [← List.append_assoc, ← List.length_append, List.take_left, List.drop_left]
  | @behind s b rest hs hb _ ih =>
    obtain ⟨q, hfind, -⟩ := findNext_block hs hb
    rw [toolBlocks_eq, hfind]
    simp only
    apply List.mem_cons_of_mem
    rwa [← List.append_assoc, ← List.length_append, List.drop_left]

/-- What is found occurs in the text. -/
theorem blocksFrom_occur (rounds : ℕ) : ∀ (p : Bytes), ∀ t ∈ blocksFrom rounds p, t <:+: p := by
  induction rounds with
  | zero =>
    intro p t ht
    cases ht
  | succ rounds ih =>
    intro p t ht
    rw [blocksFrom] at ht
    cases hfind : findNextDsmlToolBlock p with
    | none =>
      rw [hfind] at ht
      cases ht
    | some se =>
      rw [hfind] at ht
      rcases List.mem_cons.1 ht with rfl | ht
      · exact (List.drop_suffix _ _).isInfix.trans (List.take_prefix _ _).isInfix
      · exact (ih _ t ht).trans (List.drop_suffix _ _).isInfix

end Found

end Ds4.Memory
