import Ds4.Tokenizer.Bpe

/-! Tokenizing a text and decoding its tokens gives the text back. -/
namespace Ds4.Tokenizer
open Parts

section Symbols

/-- The bytes are one character of one or two bytes that stands for `cp`. -/
def spells (cp : ℕ) : Bytes → Bool
  | [x] => decide (x < 0x80) && x.toNat == cp
  | [x, y] => !decide (x < 0x80) && x &&& 0xe0 == 0xc0 &&
      (x &&& 0x1f).toNat <<< 6 ||| (y &&& 0x3f).toNat == cp
  | _ => false

/-- The symbols of the bytes, all checked. -/
theorem byteSymbol_spells : ∀ b : UInt8,
    spells (gpt2ByteToCodepoint b) (byteSymbol b) = true ∧
      gpt2CodepointToByte (gpt2ByteToCodepoint b) = some b ∧
      (0xef : UInt8) ∉ byteSymbol b ∧ 32 ∉ byteSymbol b := by
  decide +kernel

theorem spells_cases {cp : ℕ} {s : Bytes} (h : spells cp s = true) :
    (∃ x, s = [x] ∧ x < 0x80 ∧ x.toNat = cp) ∨
    ∃ x y, s = [x, y] ∧ ¬x < 0x80 ∧ x &&& 0xe0 = 0xc0 ∧
      (x &&& 0x1f).toNat <<< 6 ||| (y &&& 0x3f).toNat = cp := by
  unfold spells at h
  split at h
  · rename_i x
    simp only [Bool.and_eq_true, decide_eq_true_eq, beq_iff_eq] at h
    exact Or.inl ⟨x, rfl, h⟩
  · rename_i x y
    simp only [Bool.and_eq_true, Bool.not_eq_true', decide_eq_false_iff_not, beq_iff_eq] at h
    exact Or.inr ⟨x, y, rfl, h.1.1, h.1.2, h.2⟩
  · cases h

theorem nextUtf8Char_spells {cp : ℕ} {s rest : Bytes} (h : spells cp s = true) :
    nextUtf8Char (s ++ rest) = s.length := by
  rcases spells_cases h with ⟨x, rfl, hx, -⟩ | ⟨x, y, rfl, hx, hlead, -⟩
  · simp [nextUtf8Char, byteAt, utf8LenFromFirstByte, hx]
  · simp [nextUtf8Char, byteAt, utf8LenFromFirstByte, hx, hlead]

theorem utf8DecodeOne_spells {cp : ℕ} {s rest : Bytes} (h : spells cp s = true) :
    utf8DecodeOne (s ++ rest) = (cp, s.length) := by
  rcases spells_cases h with ⟨x, rfl, hx, hcp⟩ | ⟨x, y, rfl, hx, hlead, hcp⟩
  · simp [utf8DecodeOne, byteAt, hx, hcp]
  · simp [utf8DecodeOne, byteAt, hx, hlead, ← hcp]

theorem spells_ne_nil {cp : ℕ} {s : Bytes} (h : spells cp s = true) : s ≠ [] := by
  rcases spells_cases h with ⟨x, rfl, -⟩ | ⟨x, y, rfl, -⟩ <;> simp

theorem byteEncode_cons (b : UInt8) (s : Bytes) :
    byteEncode (b :: s) = byteSymbol b ++ byteEncode s := List.flatMap_cons

theorem byteEncode_append (s t : Bytes) : byteEncode (s ++ t) = byteEncode s ++ byteEncode t :=
  List.flatMap_append

/-- An encoded piece falls into the symbols of its bytes. -/
theorem encodedSymbols_byteEncode (s : Bytes) :
    encodedSymbols (byteEncode s) = s.map byteSymbol := by
  induction s with
  | nil => rfl
  | cons b s ih =>
    have hs := (byteSymbol_spells b).1
    rw [byteEncode_cons, encodedSymbols,
      cut_append (fun _ _ => nextUtf8Char_pos _) (spells_ne_nil hs) (nextUtf8Char_spells hs)]
    exact congrArg _ ih

theorem decodeLoop_byteEncode (s : Bytes) : ∀ n, (byteEncode s).length ≤ n →
    decodeLoop n (byteEncode s) = s := by
  induction s with
  | nil =>
    intro n _
    cases n <;> rfl
  | cons b s ih =>
    intro n hn
    obtain ⟨hs, hb, -⟩ := byteSymbol_spells b
    have hdec : utf8DecodeOne (byteSymbol b ++ byteEncode s) =
        (gpt2ByteToCodepoint b, (byteSymbol b).length) := utf8DecodeOne_spells hs
    rw [byteEncode_cons, List.length_append] at hn
    have hpos := List.length_pos_iff.2 (spells_ne_nil hs)
    obtain ⟨x, t, ht⟩ := List.exists_cons_of_ne_nil (spells_ne_nil hs)
    obtain ⟨m, rfl⟩ : ∃ m, n = m + 1 := ⟨n - 1, by omega⟩
    have hrest : (byteSymbol b ++ byteEncode s).drop (byteSymbol b).length = byteEncode s :=
      List.drop_left
    rw [byteEncode_cons]
    rw [ht, List.cons_append] at hdec hrest ⊢
    simp only [decodeLoop, hdec, hrest, hb, ih m (by omega)]
    rfl

theorem space_not_mem_byteEncode (s : Bytes) : 32 ∉ byteEncode s := by
  intro h
  obtain ⟨b, -, hb⟩ := List.mem_flatMap.1 h
  exact (byteSymbol_spells b).2.2.2 hb

theorem isLiteralSpecial_of_not_mem {s : Bytes} (h : (0xef : UInt8) ∉ s) :
    isLiteralSpecial s = false := by
  induction s with
  | nil => rfl
  | cons c s ih =>
    rw [List.mem_cons, not_or] at h
    have hc : (0xef == c) = false := beq_false_of_ne h.1
    simp only [isLiteralSpecial, List.isPrefixOf, hc, Bool.false_and, Bool.false_or]
    exact ih h.2

theorem isLiteralSpecial_byteEncode (s : Bytes) : isLiteralSpecial (byteEncode s) = false := by
  apply isLiteralSpecial_of_not_mem
  intro h
  obtain ⟨b, -, hb⟩ := List.mem_flatMap.1 h
  exact (byteSymbol_spells b).2.2.1 hb

end Symbols

section Tables

/-- The scan of a table from any entries on: what it finds is an index of the key, and
nothing found is lost. -/
theorem tableScan (key : Bytes) (P : ℕ → Prop) : ∀ (entries : List (Bytes × ℕ)) (found : Option ℕ),
    (∀ e ∈ entries, e.1 = key → P e.2) → (∀ i ∈ found, P i) →
    (∀ i ∈ entries.foldl (fun found e => if e.1 = key then some e.2 else found) found, P i) ∧
    ((found.isSome ∨ ∃ e ∈ entries, e.1 = key) →
      (entries.foldl (fun found e => if e.1 = key then some e.2 else found) found).isSome) := by
  intro entries
  induction entries with
  | nil =>
    intro found _ hfound
    exact ⟨hfound, fun h => h.resolve_right (by simp)⟩
  | cons e entries ih =>
    intro found hall hfound
    rw [List.foldl_cons]
    have hrest : ∀ e ∈ entries, e.1 = key → P e.2 :=
      fun e' he' => hall e' (List.mem_cons_of_mem _ he')
    by_cases he : e.1 = key
    · rw [if_pos he]
      have hstep := ih (some e.2) hrest fun i hi => by
        rw [← Option.some.inj hi]
        exact hall e List.mem_cons_self he
      exact ⟨hstep.1, fun _ => hstep.2 (Or.inl rfl)⟩
    · rw [if_neg he]
      have hstep := ih found hrest hfound
      refine ⟨hstep.1, ?_⟩
      rintro (hsome | ⟨e', he', hkey⟩)
      · exact hstep.2 (Or.inl hsome)
      · rcases List.mem_cons.1 he' with rfl | he'
        · exact absurd hkey he
        · exact hstep.2 (Or.inr ⟨e', he', hkey⟩)

/-- A found index holds the key. -/
theorem tableGet_some {keys : List Bytes} {key : Bytes} {i : ℕ} (h : tableGet keys key = some i) :
    keys[i]? = some key := by
  refine (tableScan key (fun i => keys[i]? = some key) keys.zipIdx none ?_ (by simp)).1 i h
  rintro ⟨k, i⟩ he rfl
  exact List.mem_zipIdx_iff_getElem?.1 he

theorem tableGet_of_mem {keys : List Bytes} {key : Bytes} (h : key ∈ keys) :
    ∃ i, tableGet keys key = some i := by
  apply Option.isSome_iff_exists.1
  refine (tableScan key (fun _ => True) keys.zipIdx none (by simp) (by simp)).2 (Or.inr ?_)
  obtain ⟨i, hi⟩ := List.mem_iff_getElem?.1 h
  exact ⟨(key, i), List.mem_zipIdx_iff_getElem?.2 hi, rfl⟩

end Tables

/-- The vocabularies of a round trip: a token for the symbol of each byte and for the result
of each merge, whose two sides stand around its only space. -/
structure Covers (tokens merges : List Bytes) : Prop where
  symbol : ∀ b, byteSymbol b ∈ tokens
  merged : ∀ a b, 32 ∉ a → 32 ∉ b → a ++ 32 :: b ∈ merges → a ++ b ∈ tokens

section Merges
variable {vocab : Vocab}

theorem bpeRank_listed {a b : Bytes} (h : 0 ≤ bpeRank vocab a b) : a ++ 32 :: b ∈ vocab.merges := by
  unfold bpeRank at h
  cases hget : tableGet vocab.merges (a ++ 32 :: b) with
  | none => simp [hget] at h
  | some i => exact List.mem_of_getElem? (tableGet_some hget)

/-- Two adjacent symbols whose merge is listed stand at the index. -/
def MergeListed (vocab : Vocab) (sym : List Bytes) (i : ℕ) : Prop :=
  ∃ a b, sym[i]? = some a ∧ sym[i + 1]? = some b ∧ a ++ 32 :: b ∈ vocab.merges

theorem bestPair_listed (sym all : List Bytes) : ∀ (i : ℕ) (bestI : Option ℕ) (bestRank : ℤ),
    all.drop i = sym → (∀ j ∈ bestI, MergeListed vocab all j) →
    ∀ j ∈ bestPair vocab sym i bestI bestRank, MergeListed vocab all j := by
  induction sym with
  | nil =>
    intro i bestI bestRank _ hbest
    exact hbest
  | cons a sym ih =>
    intro i bestI bestRank hdrop hbest
    cases sym with
    | nil => exact hbest
    | cons b rest =>
      have hnext : all.drop (i + 1) = b :: rest := by
        rw [← List.tail_drop, hdrop, List.tail_cons]
      simp only [bestPair]
      split
      · rename_i hrank
        apply ih (i + 1) _ _ hnext
        intro j hj
        rw [← Option.some.inj hj]
        refine ⟨a, b, ?_, ?_, bpeRank_listed hrank.1⟩
        · rw [← List.head?_drop, hdrop, List.head?_cons]
        · rw [← List.head?_drop, hnext, List.head?_cons]
      · exact ih (i + 1) _ _ hnext hbest

/-- The symbols stand for the bytes of a text, and each is a token. -/
def Spelt (vocab : Vocab) (text : Bytes) (sym : List Bytes) : Prop :=
  ∃ raws : List Bytes, sym = raws.map byteEncode ∧ raws.flatten = text ∧
    ∀ s ∈ sym, s ∈ vocab.token

theorem mergeAt_map (raws : List Bytes) : ∀ i,
    mergeAt i (raws.map byteEncode) = (mergeAt i raws).map byteEncode := by
  induction raws with
  | nil =>
    intro i
    cases i <;> rfl
  | cons r raws ih =>
    intro i
    cases i with
    | zero =>
      cases raws with
      | nil => rfl
      | cons t raws => simp [mergeAt, byteEncode_append]
    | succ i =>
      simp only [List.map_cons, mergeAt]
      rw [ih i]

theorem mergeAt_flatten (raws : List Bytes) : ∀ i, (mergeAt i raws).flatten = raws.flatten := by
  induction raws with
  | nil =>
    intro i
    cases i <;> rfl
  | cons r raws ih =>
    intro i
    cases i with
    | zero =>
      cases raws with
      | nil => rfl
      | cons t raws => simp [mergeAt]
    | succ i => simp only [mergeAt, List.flatten_cons, ih i]

/-- A merge brings in one new symbol, the two merged ones. -/
theorem mem_mergeAt {sym : List Bytes} {s : Bytes} : ∀ {i : ℕ}, s ∈ mergeAt i sym →
    s ∈ sym ∨ ∃ a b, sym[i]? = some a ∧ sym[i + 1]? = some b ∧ s = a ++ b := by
  induction sym with
  | nil =>
    intro i h
    cases i <;> cases h
  | cons r sym ih =>
    intro i h
    cases i with
    | zero =>
      cases sym with
      | nil => exact Or.inl h
      | cons t sym =>
        rcases List.mem_cons.1 h with rfl | h
        · exact Or.inr ⟨r, t, rfl, rfl, rfl⟩
        · exact Or.inl (List.mem_cons_of_mem _ (List.mem_cons_of_mem _ h))
    | succ i =>
      rcases List.mem_cons.1 h with rfl | h
      · exact Or.inl List.mem_cons_self
      · rcases ih h with h | h
        · exact Or.inl (List.mem_cons_of_mem _ h)
        · exact Or.inr h

theorem mergeAt_spelt {text : Bytes} {sym : List Bytes} {i : ℕ}
    (hc : Covers vocab.token vocab.merges)
    (h : Spelt vocab text sym) (hi : MergeListed vocab sym i) :
    Spelt vocab text (mergeAt i sym) := by
  obtain ⟨raws, rfl, hflat, htok⟩ := h
  refine ⟨mergeAt i raws, mergeAt_map raws i, (mergeAt_flatten raws i).trans hflat, ?_⟩
  intro s hs
  rcases mem_mergeAt hs with hs | ⟨a, b, ha, hb, rfl⟩
  · exact htok s hs
  · obtain ⟨a', b', ha', hb', hlisted⟩ := hi
    rw [ha] at ha'
    rw [hb] at hb'
    cases ha'
    cases hb'
    obtain ⟨r, -, rfl⟩ := List.mem_map.1 (List.mem_of_getElem? ha)
    obtain ⟨t, -, rfl⟩ := List.mem_map.1 (List.mem_of_getElem? hb)
    exact hc.merged _ _ (space_not_mem_byteEncode r) (space_not_mem_byteEncode t) hlisted

theorem mergeLoop_spelt {text : Bytes} (hc : Covers vocab.token vocab.merges) (n : ℕ) :
    ∀ sym, Spelt vocab text sym → Spelt vocab text (mergeLoop vocab n sym) := by
  induction n with
  | zero => exact fun _ h => h
  | succ n ih =>
    intro sym h
    rw [mergeLoop]
    cases hb : bestPair vocab sym 0 none (2 ^ 31 - 1) with
    | none => exact h
    | some i =>
      have hlisted := bestPair_listed sym sym 0 none (2 ^ 31 - 1) rfl (by simp) i hb
      exact ih _ (mergeAt_spelt hc h hlisted)

theorem mergeAt_length {sym : List Bytes} : ∀ {i : ℕ}, i + 1 < sym.length →
    (mergeAt i sym).length + 1 = sym.length := by
  induction sym with
  | nil =>
    intro i h
    simp at h
  | cons r sym ih =>
    intro i h
    cases i with
    | zero =>
      cases sym with
      | nil => simp at h
      | cons t sym => rfl
    | succ i =>
      rw [mergeAt, List.length_cons, ih (Nat.lt_of_succ_lt_succ h), List.length_cons]

/-- As many rounds as symbols bring the merge loop to its end. -/
theorem mergeLoop_ends (n : ℕ) : ∀ sym : List Bytes, sym.length ≤ n →
    bestPair vocab (mergeLoop vocab n sym) 0 none (2 ^ 31 - 1) = none := by
  induction n with
  | zero =>
    intro sym h
    rw [List.length_eq_zero_iff.1 (Nat.le_zero.1 h)]
    rfl
  | succ n ih =>
    intro sym h
    rw [mergeLoop]
    cases hb : bestPair vocab sym 0 none (2 ^ 31 - 1) with
    | none => exact hb
    | some i =>
      obtain ⟨a, b, -, hi, -⟩ := bestPair_listed sym sym 0 none (2 ^ 31 - 1) rfl (by simp) i hb
      have hlt := (List.getElem?_eq_some_iff.1 hi).1
      have hlen := mergeAt_length hlt
      exact ih _ (by omega)

end Merges

section Text
variable {vocab : Vocab}

/-- The token of an encoded text decodes to the text. -/
theorem tokenText_byteEncode {raw : Bytes} {token : ℕ}
    (h : vocab.token[token]? = some (byteEncode raw)) : tokenText vocab token = raw := by
  simp only [tokenText, h, isLiteralSpecial_byteEncode]
  exact decodeLoop_byteEncode raw _ le_rfl

theorem symbolTokens_text {raw : Bytes} (h : byteEncode raw ∈ vocab.token) :
    (symbolTokens vocab (byteEncode raw)).flatMap (tokenText vocab) = raw := by
  obtain ⟨token, ht⟩ := tableGet_of_mem h
  simp only [symbolTokens, ht, List.flatMap_cons, List.flatMap_nil, List.append_nil]
  exact tokenText_byteEncode (tableGet_some ht)

theorem spelt_text {text : Bytes} {sym : List Bytes} (h : Spelt vocab text sym) :
    (sym.flatMap (symbolTokens vocab)).flatMap (tokenText vocab) = text := by
  obtain ⟨raws, rfl, rfl, htok⟩ := h
  rw [List.flatMap_assoc, List.flatMap_map, List.flatten_eq_flatMap]
  apply List.flatMap_congr
  intro raw hraw
  exact symbolTokens_text (htok _ (List.mem_map_of_mem hraw))

theorem bpeEmitPiece_text (hc : Covers vocab.token vocab.merges) (piece : Bytes) :
    (bpeEmitPiece vocab piece).flatMap (tokenText vocab) = piece := by
  have hstart : Spelt vocab piece (encodedSymbols (byteEncode piece)) := by
    refine ⟨piece.map fun b => [b], ?_, ?_, ?_⟩
    · rw [encodedSymbols_byteEncode, List.map_map]
      apply List.map_congr_left
      intro b _
      exact (List.append_nil (byteSymbol b)).symm
    · rw [← List.flatMap_def, List.flatMap_singleton']
    · intro s hs
      rw [encodedSymbols_byteEncode] at hs
      obtain ⟨b, -, rfl⟩ := List.mem_map.1 hs
      exact hc.symbol b
  exact spelt_text (mergeLoop_spelt hc _ _ hstart)

theorem bpeTokenizeText_text (hc : Covers vocab.token vocab.merges) (text : Bytes) :
    (bpeTokenizeText vocab text).flatMap (tokenText vocab) = text := by
  rw [bpeTokenizeText, List.flatMap_assoc]
  conv_rhs => rw [← textPieces_flatten text, List.flatten_eq_flatMap]
  apply List.flatMap_congr
  intro piece _
  exact bpeEmitPiece_text hc piece

theorem tokenizeSpan_text (hc : Covers vocab.token vocab.merges) (span : Bytes) :
    (tokenizeSpan vocab span).flatMap (tokenText vocab) = span := by
  by_cases h : span = []
  · rw [tokenizeSpan, if_pos h, h]
    rfl
  · rw [tokenizeSpan, if_neg h]
    exact bpeTokenizeText_text hc span

end Text

end Ds4.Tokenizer
