import Ds4.Tokenizer.RoundTrip

/-! A rendered chat falls apart at its special markers: each marker goes to its own token, and
each text between them is tokenized on its own. -/
namespace Ds4.Tokenizer

section Parts

/-- The texts of the special tokens. -/
def markers : List Bytes :=
  [lit "<｜begin▁of▁sentence｜>", lit "<｜end▁of▁sentence｜>", lit "<｜User｜>",
    lit "<｜Assistant｜>", lit "<think>", lit "</think>", lit "｜DSML｜"]

/-- A marker starts at the place. -/
def MarkerAt (s : Bytes) (i : ℕ) : Prop := ∃ m ∈ markers, m <+: s.drop i

inductive ChatPart
  | text (span : Bytes)
  | marker (m : Bytes)

def ChatPart.bytes : ChatPart → Bytes
  | .text span => span
  | .marker m => m

/-- The parts of a chat, cut at its first marker and on behind it. -/
inductive ChatParts : Bytes → List ChatPart → Prop
  | last {span : Bytes} (hnone : ∀ i, ¬ MarkerAt span i) : ChatParts span [.text span]
  | marker {span m rest : Bytes} {parts : List ChatPart} (hm : m ∈ markers)
      (hnone : ∀ i < span.length, ¬ MarkerAt (span ++ (m ++ rest)) i)
      (hrest : ChatParts rest parts) :
      ChatParts (span ++ (m ++ rest)) (.text span :: .marker m :: parts)

/-- The tokens of a part: those of a text spell it, and a marker has the one token that the
vocabulary keeps for it, whose text it is. -/
inductive PartTokens (vocab : Vocab) : ChatPart → List ℕ → Prop
  | text {span : Bytes} (htext : (tokenizeSpan vocab span).flatMap (tokenText vocab) = span) :
      PartTokens vocab (.text span) (tokenizeSpan vocab span)
  | marker {m : Bytes} {token : ℕ} (hspecial : (m, token) ∈ specials vocab)
      (htoken : vocab.token[token]? = some m) (htext : tokenText vocab token = m) :
      PartTokens vocab (.marker m) [token]

/-- Every marker is kept literally or decodes to itself. -/
theorem markers_decode : ∀ m ∈ markers,
    m ≠ [] ∧ (isLiteralSpecial m = true ∨ decodeLoop m.length m = m) := by
  decide

/-- No marker starts another one. -/
theorem markers_apart : ∀ m ∈ markers, ∀ m' ∈ markers, m.isPrefixOf m' = true → m = m' := by
  decide

theorem marker_eq {m m' s : Bytes} (hm : m ∈ markers) (hm' : m' ∈ markers) (h : m <+: s)
    (h' : m' <+: s) : m = m' := by
  rcases List.prefix_or_prefix_of_prefix h h' with hpre | hpre
  · exact markers_apart m hm m' hm' (List.isPrefixOf_iff_prefix.2 hpre)
  · exact (markers_apart m' hm' m hm (List.isPrefixOf_iff_prefix.2 hpre)).symm

/-- A text has parts: either it holds no marker or it is cut at the first one. -/
theorem chatParts_exist (n : ℕ) : ∀ s : Bytes, s.length ≤ n → ∃ parts, ChatParts s parts := by
  induction n with
  | zero =>
    intro s hs
    rw [List.length_eq_zero_iff.1 (Nat.le_zero.1 hs)]
    refine ⟨_, ChatParts.last ?_⟩
    rintro i ⟨m, hm, hpre⟩
    rw [List.drop_nil, List.prefix_nil] at hpre
    exact (markers_decode m hm).1 hpre
  | succ n ih =>
    intro s hs
    classical
    by_cases hany : ∃ i, MarkerAt s i
    · obtain ⟨m, hm, rest, hrest⟩ := Nat.find_spec hany
      have hpos : 0 < m.length := List.length_pos_iff.2 (markers_decode m hm).1
      have hsplit : s.take (Nat.find hany) ++ (m ++ rest) = s := by
        rw [hrest, List.take_append_drop]
      have hlen := congrArg List.length hrest
      rw [List.length_append, List.length_drop] at hlen
      obtain ⟨parts, hparts⟩ := ih rest (by omega)
      rw [← hsplit]
      refine ⟨_, ChatParts.marker hm ?_ hparts⟩
      intro i hi
      rw [hsplit]
      exact Nat.find_min hany (hi.trans_le (List.length_take_le _ _))
    · exact ⟨_, ChatParts.last (not_exists.1 hany)⟩

/-- The parts hold all of the text. -/
theorem chatParts_bytes {s : Bytes} {parts : List ChatPart} (h : ChatParts s parts) :
    parts.flatMap ChatPart.bytes = s := by
  induction h with
  | last _ => simp [ChatPart.bytes]
  | marker _ _ _ ih => simp [ChatPart.bytes, ih]

end Parts

section Specials
variable {vocab : Vocab}

theorem specials_markers (vocab : Vocab) : (specials vocab).map Prod.fst = markers := rfl

/-- The special tokens are the tokens of their markers. -/
def SpecialsLoaded (vocab : Vocab) : Prop :=
  ∀ e ∈ specials vocab, tableGet vocab.token e.1 = some e.2

theorem vocabLoad_specials {tokens merges : List Bytes}
    (h : vocabLoad tokens merges = some vocab) :
    (vocab.token = tokens ∧ vocab.merges = merges) ∧ SpecialsLoaded vocab := by
  unfold vocabLoad at h
  split at h
  · cases h
  simp only [Option.bind_eq_bind, Option.bind_eq_some_iff] at h
  obtain ⟨bos, hbos, eos, heos, user, huser, assistant, hassistant, start, hstart,
    stop, hstop, dsml, hdsml, hv⟩ := h
  cases hv
  refine ⟨⟨rfl, rfl⟩, ?_⟩
  intro e he
  simp only [specials, List.mem_cons, List.not_mem_nil, or_false] at he
  rcases he with rfl | rfl | rfl | rfl | rfl | rfl | rfl
  · exact hbos
  · exact heos
  · exact huser
  · exact hassistant
  · exact hstart
  · exact hstop
  · exact hdsml

theorem marker_text {token : ℕ} {m : Bytes} (h : tableGet vocab.token m = some token)
    (hm : m ∈ markers) : tokenText vocab token = m := by
  obtain ⟨-, hdecode⟩ := markers_decode m hm
  simp only [tokenText, tableGet_some h]
  cases hs : isLiteralSpecial m with
  | true => rfl
  | false =>
    rw [hs] at hdecode
    exact hdecode.resolve_left (by simp)

theorem mem_markers {e : Bytes × ℕ} (h : e ∈ specials vocab) : e.1 ∈ markers := by
  rw [← specials_markers vocab]
  exact List.mem_map_of_mem h

/-- The search at a marker finds the token of this marker. -/
theorem specialTokenAt_marker (hv : SpecialsLoaded vocab) {m s : Bytes} (hm : m ∈ markers)
    (hpre : m <+: s) : ∃ token, specialTokenAt vocab s = some (token, m.length) ∧
      PartTokens vocab (.marker m) [token] := by
  obtain ⟨own, hown, heq⟩ : ∃ e ∈ specials vocab, e.1 = m := by
    rw [← specials_markers vocab] at hm
    exact List.mem_map.1 hm
  have hsome : ((specials vocab).find? fun e => e.1.isPrefixOf s).isSome := by
    refine List.find?_isSome.2 ⟨own, hown, ?_⟩
    rw [heq]
    exact List.isPrefixOf_iff_prefix.2 hpre
  obtain ⟨⟨m', token⟩, hfind⟩ := Option.isSome_iff_exists.1 hsome
  have hmem := List.mem_of_find?_eq_some hfind
  have hget := hv _ hmem
  have hpre' : m'.isPrefixOf s = true := by
    have hfound := List.find?_some hfind
    exact hfound
  obtain rfl := marker_eq (mem_markers hmem) hm (List.isPrefixOf_iff_prefix.1 hpre') hpre
  refine ⟨token, ?_, PartTokens.marker hmem (tableGet_some hget) (marker_text hget hm)⟩
  rw [specialTokenAt, hfind]
  rfl

theorem specialTokenAt_none {s : Bytes} (h : ¬ MarkerAt s 0) :
    specialTokenAt vocab s = none := by
  rw [specialTokenAt, Option.map_eq_none_iff, List.find?_eq_none]
  intro e he hpre
  exact h ⟨e.1, mem_markers he, List.isPrefixOf_iff_prefix.1 hpre⟩

/-- The loop reads on over a text in which no marker starts. -/
theorem renderedLoop_skip (vocab : Vocab) (p : Bytes) : ∀ (s span : Bytes) (n : ℕ),
    (∀ i < s.length, ¬ MarkerAt (s ++ p) i) →
    renderedLoop vocab (s.length + n) span (s ++ p) = renderedLoop vocab n (span ++ s) p := by
  intro s
  induction s with
  | nil =>
    intro span n _
    simp
  | cons c s ih =>
    intro span n hnone
    have hhead : ¬ MarkerAt (c :: (s ++ p)) 0 := hnone 0 (Nat.succ_pos _)
    have htail : ∀ i < s.length, ¬ MarkerAt (s ++ p) i :=
      fun i hi => hnone (i + 1) (Nat.succ_lt_succ hi)
    rw [List.length_cons, Nat.add_right_comm, List.cons_append, renderedLoop,
      specialTokenAt_none hhead]
    simp only
    rw [ih (span ++ [c]) n htail, List.append_assoc, List.singleton_append]

end Specials

section Text
variable {vocab : Vocab}

/-- The tokens of a chat are those of its parts. -/
theorem renderedLoop_parts (hc : Covers vocab.token vocab.merges) (hv : SpecialsLoaded vocab)
    {s : Bytes} {parts : List ChatPart} (h : ChatParts s parts) : ∀ n, s.length ≤ n →
    ∃ toks, List.Forall₂ (PartTokens vocab) parts toks ∧
      renderedLoop vocab n [] s = toks.flatten := by
  induction h with
  | @last span hnone =>
    intro n hn
    obtain ⟨k, rfl⟩ := Nat.exists_eq_add_of_le hn
    refine ⟨[tokenizeSpan vocab span],
      List.Forall₂.cons (PartTokens.text (tokenizeSpan_text hc span)) List.Forall₂.nil, ?_⟩
    have hskip := renderedLoop_skip vocab [] span [] k fun i _ => by
      rw [List.append_nil]
      exact hnone i
    rw [List.append_nil, List.nil_append] at hskip
    rw [hskip, List.flatten_singleton]
    cases k <;> rfl
  | @marker span m rest parts hm hnone _ ih =>
    intro n hn
    obtain ⟨token, hat, htoken⟩ := specialTokenAt_marker hv hm (List.prefix_append m rest)
    have hpos : 0 < m.length := List.length_pos_iff.2 (markers_decode m hm).1
    rw [List.length_append, List.length_append] at hn
    obtain ⟨k, rfl⟩ : ∃ k, n = span.length + (k + 1) := ⟨n - span.length - 1, by omega⟩
    obtain ⟨toks, htoks, hrest⟩ := ih k (by omega)
    refine ⟨tokenizeSpan vocab span :: [token] :: toks,
      List.Forall₂.cons (PartTokens.text (tokenizeSpan_text hc span))
        (List.Forall₂.cons htoken htoks), ?_⟩
    rw [renderedLoop_skip vocab _ _ _ _ hnone, List.nil_append]
    obtain ⟨c, t, hct⟩ := List.exists_cons_of_ne_nil
      (List.append_ne_nil_of_left_ne_nil (markers_decode m hm).1 rest)
    have hdrop : (m ++ rest).drop m.length = rest := List.drop_left
    rw [hct] at hat hdrop ⊢
    simp only [renderedLoop, hat, hdrop, hrest, List.flatten_cons, List.singleton_append]

/-- The tokens of the parts spell the parts. -/
theorem partTokens_text {parts : List ChatPart} {toks : List (List ℕ)}
    (h : List.Forall₂ (PartTokens vocab) parts toks) :
    toks.flatten.flatMap (tokenText vocab) = parts.flatMap ChatPart.bytes := by
  induction h with
  | nil => rfl
  | cons hpart _ ih =>
    rw [List.flatten_cons, List.flatMap_append, List.flatMap_cons, ih]
    congr 1
    cases hpart with
    | text htext => exact htext
    | marker _ _ htext => simpa [ChatPart.bytes] using htext

/-- Tokenizing a rendered chat and decoding its tokens gives the chat back, whatever markers
and whatever bytes it holds; each marker at which it is cut goes to its own token and back. -/
theorem tokenizeRenderedChat_text (tokens merges : List Bytes) (vocab : Vocab)
    (hload : vocabLoad tokens merges = some vocab) (hc : Covers tokens merges) (text : Bytes) :
    (tokenizeRenderedChat vocab text).flatMap (tokenText vocab) = text ∧
      (∃ parts, ChatParts text parts) ∧
      ∀ parts, ChatParts text parts → ∃ toks, List.Forall₂ (PartTokens vocab) parts toks ∧
        tokenizeRenderedChat vocab text = toks.flatten := by
  obtain ⟨⟨ht, hmg⟩, hv⟩ := vocabLoad_specials hload
  rw [← ht, ← hmg] at hc
  have hparts := chatParts_exist text.length text le_rfl
  refine ⟨?_, hparts, fun parts h => renderedLoop_parts hc hv h _ le_rfl⟩
  obtain ⟨parts, h⟩ := hparts
  obtain ⟨toks, htoks, heq⟩ := renderedLoop_parts hc hv h text.length le_rfl
  rw [tokenizeRenderedChat, heq, partTokens_text htoks, chatParts_bytes h]

end Text

/-- The byte symbols, the special tokens and one merged token. -/
def smallTokens : List Bytes :=
  (List.range 256).map (fun b => byteSymbol b.toUInt8) ++ markers ++ [lit "hi"]

theorem smallTokens_covers : Covers smallTokens [lit "h i"] := by
  constructor
  · intro b
    apply List.mem_append_left
    apply List.mem_append_left
    exact List.mem_map.2 ⟨b.toNat, List.mem_range.2 b.toNat_lt, by simp⟩
  · intro a b _ _ h
    have h : a ++ 32 :: b = [104, 32, 105] := List.mem_singleton.1 h
    obtain ⟨rfl, rfl⟩ : a = [104] ∧ b = [105] := by
      match a, h with
      | [], h => simp at h
      | [x], h => simpa using h
      | [x, y], h => simp at h
      | x :: y :: z :: a, h => simp at h
    exact List.mem_append_right _ List.mem_cons_self

/-- The tokens of the vocabulary above, with the places of its special tokens. -/
def smallVocab : Vocab := ⟨smallTokens, [lit "h i"], 256, 257, 258, 259, 260, 261, 262⟩

/-- A text with a merge, a marker and a byte that is no UTF-8. -/
theorem smallTokens_text :
    (tokenizeRenderedChat smallVocab (lit "<｜User｜>hi\n" ++ [0xff])).flatMap
        (tokenText smallVocab) = lit "<｜User｜>hi\n" ++ [0xff] ∧
      (∃ parts, ChatParts (lit "<｜User｜>hi\n" ++ [0xff]) parts) ∧
      ∀ parts, ChatParts (lit "<｜User｜>hi\n" ++ [0xff]) parts →
        ∃ toks, List.Forall₂ (PartTokens smallVocab) parts toks ∧
          tokenizeRenderedChat smallVocab (lit "<｜User｜>hi\n" ++ [0xff]) = toks.flatten :=
  tokenizeRenderedChat_text smallTokens [lit "h i"] _ (by decide +kernel) smallTokens_covers _

end Ds4.Tokenizer
