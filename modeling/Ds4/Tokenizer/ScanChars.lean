import Ds4.Tokenizer.SplitParts

/-! The byte scanner on the UTF-8 bytes of a text, character by character. -/
namespace Ds4.Tokenizer
open Parts TextChar

section Utf8

theorem lead_two : ∀ x < 32, ¬(0xc0 ||| x : ℕ).toUInt8 < 0x80 ∧
    (0xc0 ||| x : ℕ).toUInt8 &&& 0xe0 = 0xc0 ∧ ((0xc0 ||| x : ℕ).toUInt8 &&& 0x1f).toNat = x := by
  decide

theorem lead_three : ∀ x < 16, ¬(0xe0 ||| x : ℕ).toUInt8 < 0x80 ∧
    (0xe0 ||| x : ℕ).toUInt8 &&& 0xe0 ≠ 0xc0 ∧ (0xe0 ||| x : ℕ).toUInt8 &&& 0xf0 = 0xe0 ∧
    ((0xe0 ||| x : ℕ).toUInt8 &&& 0x0f).toNat = x := by
  decide

theorem lead_four : ∀ x < 8, ¬(0xf0 ||| x : ℕ).toUInt8 < 0x80 ∧
    (0xf0 ||| x : ℕ).toUInt8 &&& 0xe0 ≠ 0xc0 ∧ (0xf0 ||| x : ℕ).toUInt8 &&& 0xf0 ≠ 0xe0 ∧
    (0xf0 ||| x : ℕ).toUInt8 &&& 0xf8 = 0xf0 ∧ ((0xf0 ||| x : ℕ).toUInt8 &&& 0x07).toNat = x := by
  decide

theorem continuation : ∀ x < 64, ((0x80 ||| x : ℕ).toUInt8 &&& 0x3f).toNat = x := by
  decide

theorem and_mask_lt (n : ℕ) : n &&& 0x3f < 64 :=
  (Nat.and_le_right).trans_lt (by norm_num)

/-- A number is put together again from its high bits and its low six. -/
theorem shift_or_mask (n k : ℕ) :
    (n >>> (k + 6)) <<< (k + 6) ||| ((n >>> k) &&& 0x3f) <<< k = (n >>> k) <<< k := by
  apply Nat.eq_of_testBit_eq
  intro i
  have hmask : (0x3f : ℕ) = 2 ^ 6 - 1 := by norm_num
  rw [hmask]
  simp only [Nat.testBit_or, Nat.testBit_shiftLeft, Nat.testBit_shiftRight, Nat.testBit_and,
    Nat.testBit_two_pow_sub_one]
  by_cases h1 : i ≥ k + 6
  · have h2 : i ≥ k := by omega
    have h3 : k + 6 + (i - (k + 6)) = k + (i - k) := by omega
    have h4 : ¬i - k < 6 := by omega
    simp [h1, h2, h3, h4]
  · by_cases h2 : i ≥ k
    · have h4 : i - k < 6 := by omega
      simp [h1, h2, h4]
    · simp [h1, h2]

/-- A character beyond ASCII is read back from its bytes, whatever follows. -/
theorem utf8Put_read {cp : ℕ} (h7 : 0x7f < cp) (hlt : cp < 0x110000) (rest : Bytes) :
    nextUtf8Char (utf8Put cp ++ rest) = (utf8Put cp).length ∧
      utf8PeekOne (utf8Put cp ++ rest) = cp := by
  have hlow := shift_or_mask cp 0
  have hmid := shift_or_mask cp 6
  have htop := shift_or_mask cp 12
  simp only [Nat.zero_add, Nat.shiftRight_zero, Nat.shiftLeft_zero, Nat.reduceAdd] at hlow hmid htop
  have hc0 := continuation _ (and_mask_lt cp)
  have hc1 := continuation _ (and_mask_lt (cp >>> 6))
  have hc2 := continuation _ (and_mask_lt (cp >>> 12))
  rw [utf8Put, if_neg (by omega)]
  by_cases h2 : cp ≤ 0x7ff
  · obtain ⟨ha, hb, hc⟩ := lead_two (cp >>> 6) (by rw [Nat.shiftRight_eq_div_pow]; omega)
    rw [if_pos h2]
    generalize (0xc0 ||| (cp >>> 6)).toUInt8 = a at *
    generalize (0x80 ||| (cp &&& 0x3f)).toUInt8 = b at *
    simp only [List.cons_append, List.nil_append]
    have hn : nextUtf8Char (a :: b :: rest) = 2 := by
      simp [nextUtf8Char, byteAt, utf8LenFromFirstByte, ha, hb]
    refine ⟨hn, ?_⟩
    simp only [utf8PeekOne, hn, byteAt, List.getD_cons_zero, List.getD_cons_succ]
    rw [if_neg (by norm_num), if_pos trivial, hc, hc0, hlow]
  by_cases h3 : cp ≤ 0xffff
  · obtain ⟨ha, hb, hc, hd⟩ := lead_three (cp >>> 12) (by rw [Nat.shiftRight_eq_div_pow]; omega)
    rw [if_neg h2, if_pos h3]
    generalize (0xe0 ||| (cp >>> 12)).toUInt8 = a at *
    generalize (0x80 ||| ((cp >>> 6) &&& 0x3f)).toUInt8 = b at *
    generalize (0x80 ||| (cp &&& 0x3f)).toUInt8 = d at *
    simp only [List.cons_append, List.nil_append]
    have hn : nextUtf8Char (a :: b :: d :: rest) = 3 := by
      simp [nextUtf8Char, byteAt, utf8LenFromFirstByte, ha, hb, hc]
    refine ⟨hn, ?_⟩
    simp only [utf8PeekOne, hn, byteAt, List.getD_cons_zero, List.getD_cons_succ]
    rw [if_neg (by norm_num), if_neg (by norm_num), if_pos trivial, hd, hc1, hc0, hmid, hlow]
  · obtain ⟨ha, hb, hc, hd, he⟩ := lead_four (cp >>> 18) (by rw [Nat.shiftRight_eq_div_pow]; omega)
    rw [if_neg h2, if_neg h3]
    generalize (0xf0 ||| (cp >>> 18)).toUInt8 = a at *
    generalize (0x80 ||| ((cp >>> 12) &&& 0x3f)).toUInt8 = b at *
    generalize (0x80 ||| ((cp >>> 6) &&& 0x3f)).toUInt8 = d at *
    generalize (0x80 ||| (cp &&& 0x3f)).toUInt8 = e at *
    simp only [List.cons_append, List.nil_append]
    have hn : nextUtf8Char (a :: b :: d :: e :: rest) = 4 := by
      simp [nextUtf8Char, byteAt, utf8LenFromFirstByte, ha, hb, hc, hd]
    refine ⟨hn, ?_⟩
    simp only [utf8PeekOne, hn, byteAt, List.getD_cons_zero, List.getD_cons_succ]
    rw [if_neg (by norm_num), if_neg (by norm_num), if_neg (by norm_num), he, hc2, hc1, hc0, htop,
      hmid, hlow]

end Utf8

section Chars
variable {x : TextChar} {s : Text}

theorem encode_cons (x : TextChar) (s : Text) : encode (x :: s) = utf8Put x.cp ++ encode s :=
  List.flatMap_cons

theorem encode_append (s t : Text) : encode (s ++ t) = encode s ++ encode t :=
  List.flatMap_append

theorem utf8Put_ascii (h : x.cp < 128) : utf8Put x.cp = [x.cp.toUInt8] := if_pos (by omega)

/-- The first byte of a text and the classes of its first character. -/
theorem byteAt_ascii (h : x.cp < 128) : byteAt (encode (x :: s)) 0 = x.cp.toUInt8 := by
  rw [encode_cons, utf8Put_ascii h]
  rfl

theorem byteAt_high (h : 128 ≤ x.cp) : 128 ≤ byteAt (encode (x :: s)) 0 := by
  have hhigh := utf8Put_high (u := x.cp) (by omega)
  have hpos := utf8Put_length_pos x.cp
  obtain ⟨b, t, hb⟩ := List.exists_cons_of_length_pos hpos
  rw [encode_cons, hb]
  exact hhigh b (hb ▸ List.mem_cons_self)

theorem classes_below : ∀ n < 128, asciiDigit (n : ℕ).toUInt8 = (48 ≤ n && n ≤ 57) ∧
    asciiAlpha n.toUInt8 = ((65 ≤ n && n ≤ 90) || (97 ≤ n && n ≤ 122)) ∧
    asciiSpace n.toUInt8 = (n == 32 || (9 ≤ n && n ≤ 13)) ∧
    asciiNewline n.toUInt8 = (n == 10 || n == 13) ∧
    joyaiAsciiPunctSymbol n.toUInt8 = ((33 ≤ n && n ≤ 47) || (58 ≤ n && n ≤ 64) ||
      (91 ≤ n && n ≤ 96) || (123 ≤ n && n ≤ 126)) ∧
    (n.toUInt8 == 32) = (n == 32) ∧ n.toUInt8 < 128 := by
  decide

theorem classes_above : ∀ b : UInt8, 128 ≤ b → asciiDigit b = false ∧ asciiAlpha b = false ∧
    asciiSpace b = false ∧ asciiNewline b = false ∧ joyaiAsciiPunctSymbol b = false ∧
    (b == 32) = false ∧ ¬b < 128 := by
  decide +kernel

theorem classes_beyond (h : 128 ≤ x.cp) : x.isNumber = false ∧ x.isAlpha = false ∧
    x.isWhite = false ∧ x.isNewline = false ∧ x.isPunct = false ∧ x.isBlank = false := by
  simp only [isNumber, isAlpha, isWhite, isNewline, isPunct, isBlank, Bool.or_eq_false_iff,
    Bool.and_eq_false_imp, decide_eq_true_eq, decide_eq_false_iff_not, beq_eq_false_iff_ne]
  omega

/-- The classes of the first byte are those of the first character. -/
theorem byteAt_classes (x : TextChar) (s : Text) :
    asciiDigit (byteAt (encode (x :: s)) 0) = x.isNumber ∧
    asciiAlpha (byteAt (encode (x :: s)) 0) = x.isAlpha ∧
    asciiSpace (byteAt (encode (x :: s)) 0) = x.isWhite ∧
    asciiNewline (byteAt (encode (x :: s)) 0) = x.isNewline ∧
    joyaiAsciiPunctSymbol (byteAt (encode (x :: s)) 0) = x.isPunct ∧
    (byteAt (encode (x :: s)) 0 == 32) = x.isBlank ∧
    (byteAt (encode (x :: s)) 0 < 128 ↔ x.cp < 128) := by
  by_cases h : x.cp < 128
  · rw [byteAt_ascii h]
    obtain ⟨hd, ha, hw, hn, hp, hb, hlt⟩ := classes_below x.cp h
    exact ⟨hd, ha, hw, hn, hp, hb, iff_of_true hlt h⟩
  · obtain ⟨hd, ha, hw, hn, hp, hb, hlt⟩ := classes_above _ (byteAt_high (s := s) (not_lt.1 h))
    obtain ⟨hd', ha', hw', hn', hp', hb'⟩ := classes_beyond (not_lt.1 h)
    rw [hd, ha, hw, hn, hp, hb, hd', ha', hw', hn', hp', hb']
    exact ⟨rfl, rfl, rfl, rfl, rfl, rfl, iff_of_false hlt h⟩

theorem nextUtf8Char_encode (x : TextChar) (s : Text) :
    nextUtf8Char (encode (x :: s)) = (utf8Put x.cp).length := by
  have hok := x.ok
  by_cases h : x.cp < 128
  · have hlt := (byteAt_classes x s).2.2.2.2.2.2.2 h
    have hlt' : byteAt (encode (x :: s)) 0 < 0x80 := hlt
    have hlen : ¬(encode (x :: s)).length < 1 := by
      rw [encode_cons, utf8Put_ascii h]
      simp
    simp only [nextUtf8Char, utf8LenFromFirstByte, if_pos hlt', if_neg hlen]
    rw [utf8Put_ascii h]
    rfl
  · rw [encode_cons]
    exact (utf8Put_read (by omega) (by omega) _).1

theorem joyaiLetterLikeAt_encode (x : TextChar) (s : Text) :
    joyaiLetterLikeAt (encode (x :: s)) = x.isLetter := by
  obtain ⟨-, ha, -, -, -, -, hlt⟩ := byteAt_classes x s
  rw [joyaiLetterLikeAt, isLetter]
  by_cases h : x.cp < 128
  · rw [if_pos (hlt.2 h), ha]
    simp [h]
  · rw [if_neg (mt hlt.1 h)]
    simp [not_lt.1 h]

theorem joyaiCjkAt_encode (x : TextChar) (s : Text) :
    joyaiCjkAt (encode (x :: s)) = x.isCjk := by
  have hok := x.ok
  obtain ⟨-, -, -, -, -, -, hlt⟩ := byteAt_classes x s
  rw [joyaiCjkAt]
  by_cases h : x.cp < 128
  · rw [if_pos (hlt.2 h)]
    simp only [isCjk, utf8IsCjkHiraKata]
    symm
    simp only [Bool.or_eq_false_iff, Bool.and_eq_false_imp, decide_eq_true_eq,
      decide_eq_false_iff_not]
    omega
  · rw [if_neg (mt hlt.1 h), encode_cons, (utf8Put_read (by omega) (by omega) _).2]
    rfl

theorem encode_ne_nil (x : TextChar) (s : Text) : encode (x :: s) ≠ [] := by
  have hpos := utf8Put_length_pos x.cp
  rw [encode_cons]
  intro h
  have hlen := congrArg List.length h
  rw [List.length_append, List.length_nil] at hlen
  omega

theorem length_le_encode (s : Text) : s.length ≤ (encode s).length := by
  induction s with
  | nil => exact le_rfl
  | cons x s ih =>
    have hpos := utf8Put_length_pos x.cp
    rw [encode_cons, List.length_append, List.length_cons]
    omega

end Chars

section Runs
variable {p : UInt8 → Bool} {q : TextChar → Bool}

/-- Characters of ASCII have one byte each. -/
theorem encode_length_ascii {s : Text} (h : ∀ x ∈ s, x.cp < 128) :
    (encode s).length = s.length := by
  induction s with
  | nil => rfl
  | cons x s ih =>
    rw [encode_cons, utf8Put_ascii (h x List.mem_cons_self), List.length_append, List.length_cons,
      ih fun y hy => h y (List.mem_cons_of_mem _ hy)]
    simp [Nat.add_comm]

theorem encode_take_ascii {s : Text} {k : ℕ} (hk : k ≤ s.length)
    (h : ∀ x ∈ s.take k, x.cp < 128) : (encode (s.take k)).length = k := by
  rw [encode_length_ascii h, List.length_take, min_eq_left hk]

theorem encode_drop_ascii {s : Text} {k : ℕ} (hk : k ≤ s.length)
    (h : ∀ x ∈ s.take k, x.cp < 128) : (encode s).drop k = encode (s.drop k) := by
  have hlen := encode_take_ascii hk h
  have hdrop : (encode (s.take k) ++ encode (s.drop k)).drop (encode (s.take k)).length =
      encode (s.drop k) := List.drop_left
  rwa [← encode_append, List.take_append_drop, hlen] at hdrop

/-- A class of bytes that is a class of ASCII characters. -/
structure AsciiClass (p : UInt8 → Bool) (q : TextChar → Bool) : Prop where
  head : ∀ x s, p (byteAt (encode (x :: s)) 0) = q x
  ascii : ∀ x, q x = true → x.cp < 128

theorem asciiClass_of {p : UInt8 → Bool} {q : TextChar → Bool}
    (hhead : ∀ x s, p (byteAt (encode (x :: s)) 0) = q x)
    (hhigh : ∀ x : TextChar, 128 ≤ x.cp → q x = false) : AsciiClass p q := by
  refine ⟨hhead, ?_⟩
  intro x hx
  by_contra h
  rw [hhigh x (not_lt.1 h)] at hx
  cases hx

theorem digit_class : AsciiClass asciiDigit isNumber :=
  asciiClass_of (fun x s => (byteAt_classes x s).1) fun _ h => (classes_beyond h).1

theorem alpha_class : AsciiClass asciiAlpha isAlpha :=
  asciiClass_of (fun x s => (byteAt_classes x s).2.1) fun _ h => (classes_beyond h).2.1

theorem white_class : AsciiClass asciiSpace isWhite :=
  asciiClass_of (fun x s => (byteAt_classes x s).2.2.1) fun _ h => (classes_beyond h).2.2.1

theorem newline_class : AsciiClass asciiNewline isNewline :=
  asciiClass_of (fun x s => (byteAt_classes x s).2.2.2.1) fun _ h => (classes_beyond h).2.2.2.1

theorem punct_class : AsciiClass joyaiAsciiPunctSymbol isPunct :=
  asciiClass_of (fun x s => (byteAt_classes x s).2.2.2.2.1) fun _ h =>
    (classes_beyond h).2.2.2.2.1

theorem AsciiClass.takeWhile (hc : AsciiClass p q) (n : ℕ) : ∀ s : Text,
    (((encode s).take n).takeWhile p).length = runLen q (s.take n) := by
  induction n with
  | zero => exact fun _ => rfl
  | succ n ih =>
    intro s
    cases s with
    | nil => rfl
    | cons x s =>
      have hhead := hc.head x s
      rw [List.take_succ_cons, runLen_cons]
      by_cases hx : q x = true
      · rw [byteAt_ascii (hc.ascii x hx)] at hhead
        rw [encode_cons, utf8Put_ascii (hc.ascii x hx), List.singleton_append,
          List.take_succ_cons, List.takeWhile_cons, hhead, if_pos hx, if_pos hx, List.length_cons,
          ih s]
      · obtain ⟨b, t, hb⟩ := List.exists_cons_of_ne_nil (encode_ne_nil x s)
        rw [hb] at hhead ⊢
        rw [List.take_succ_cons, List.takeWhile_cons]
        have hpb : p b = false := by
          rw [Bool.not_eq_true] at hx
          exact hhead.trans hx
        rw [hpb, if_neg Bool.false_ne_true, if_neg hx]
        rfl

theorem AsciiClass.runLength (hc : AsciiClass p q) (s : Text) :
    runLength p (encode s) = runLen q s := by
  have h := hc.takeWhile (encode s).length s
  rw [List.take_length, List.take_of_length_le (length_le_encode s)] at h
  exact h

theorem AsciiClass.take_ascii (hc : AsciiClass p q) (s : Text) :
    ∀ x ∈ s.take (runLen q s), x.cp < 128 := by
  intro x hx
  rw [← takeWhile_eq_take] at hx
  exact hc.ascii x (List.mem_takeWhile_imp hx)

theorem AsciiClass.drop (hc : AsciiClass p q) (s : Text) :
    (encode s).drop (runLen q s) = encode (s.drop (runLen q s)) :=
  encode_drop_ascii (runLen_le q s) (hc.take_ascii s)

/-- What stands at the head of the rest of a text. -/
theorem AsciiClass.headIs (hc : AsciiClass p q) (s : Text) :
    (0 < (encode s).length ∧ p (byteAt (encode s) 0) = true) ↔ headIs q s = true := by
  cases s with
  | nil => simp [encode, Parts.headIs]
  | cons x s =>
    rw [hc.head, headIs_cons]
    exact and_iff_right (List.length_pos_iff.2 (encode_ne_nil x s))

/-- A loop over characters takes the run of their class. -/
theorem skipWhile_encode {p : Bytes → Bool} (hp : ∀ x s, p (encode (x :: s)) = q x) (n : ℕ) :
    ∀ s : Text, s.length ≤ n →
      skipWhile p n (encode s) = (encode (s.take (runLen q s))).length := by
  induction n with
  | zero =>
    intro s hs
    rw [List.length_eq_zero_iff.1 (Nat.le_zero.1 hs)]
    rfl
  | succ n ih =>
    intro s hs
    cases s with
    | nil => rfl
    | cons x s =>
      rw [List.length_cons] at hs
      have hnext := nextUtf8Char_encode x s
      rw [skipWhile, hp, runLen_cons]
      by_cases hx : q x = true
      · have hdrop : (encode (x :: s)).drop (utf8Put x.cp).length = encode s := by
          rw [encode_cons, List.drop_left]
        rw [if_pos ⟨encode_ne_nil x s, hx⟩, if_pos hx, hnext, hdrop, ih s (by omega),
          List.take_succ_cons, encode_cons, List.length_append]
      · rw [if_neg (fun h => hx h.2), if_neg hx]
        rfl

theorem consumeLetters_encode (s : Text) :
    joyaiConsumeLetters (encode s) = (encode (s.take (runLen isLetter s))).length :=
  skipWhile_encode joyaiLetterLikeAt_encode _ s (length_le_encode s)

theorem consumeCjk_encode {x : TextChar} (hx : x.isCjk = true) (s : Text) :
    consumeCjk (encode (x :: s)) =
      (encode ((x :: s).take (runLen isCjk (x :: s)))).length := by
  have hdrop : (encode (x :: s)).drop (utf8Put x.cp).length = encode s := by
    rw [encode_cons, List.drop_left]
  have hlen := length_le_encode (x :: s)
  rw [List.length_cons] at hlen
  rw [consumeCjk, nextUtf8Char_encode, hdrop,
    skipWhile_encode joyaiCjkAt_encode _ s (by omega), runLen_cons, if_pos hx,
    List.take_succ_cons, encode_cons, List.length_append]

theorem punctRun_encode (s : Text) : punctRun (encode s) = punctLen s := by
  rw [punctRun, punct_class.runLength, punct_class.drop, newline_class.runLength]
  rfl

theorem spaceScan_encode (s : Text) : ∀ n last : ℕ, spaceScan (encode s) n last =
    (n + runLen isWhite s,
      if lastEnd isWhite isNewline s ≠ 0 then n + lastEnd isWhite isNewline s else last) := by
  induction s with
  | nil => exact fun _ _ => rfl
  | cons x s ih =>
    intro n last
    have hw := white_class.head x s
    have hn := newline_class.head x s
    rw [runLen_cons, lastEnd]
    by_cases hx : x.isWhite = true
    · rw [byteAt_ascii (white_class.ascii x hx)] at hw hn
      rw [encode_cons, utf8Put_ascii (white_class.ascii x hx), List.singleton_append, spaceScan,
        hw, if_pos hx, if_pos hx, if_pos hx, hn, ih]
      by_cases hl : lastEnd isWhite isNewline s ≠ 0
      · rw [if_pos hl, if_pos hl, if_pos (Nat.succ_ne_zero _)]
        congr 1 <;> omega
      · rw [if_neg hl, if_neg hl]
        by_cases hnl : x.isNewline = true
        · rw [if_pos hnl, if_pos hnl, if_pos one_ne_zero]
          congr 1
          omega
        · rw [if_neg hnl, if_neg hnl, if_neg (not_not.2 rfl)]
          congr 1
          omega
    · obtain ⟨b, t, hb⟩ := List.exists_cons_of_ne_nil (encode_ne_nil x s)
      rw [hb] at hw ⊢
      have hwb : asciiSpace b = false := by
        rw [Bool.not_eq_true] at hx
        exact hw.trans hx
      rw [spaceScan, hwb, if_neg Bool.false_ne_true, if_neg hx, if_neg hx, if_neg (not_not.2 rfl)]
      rfl

theorem spaceRun_encode (s : Text) : spaceRun (encode s) = whiteLen isLetter s := by
  have hscan := spaceScan_encode s 0 0
  rw [Nat.zero_add, Nat.zero_add] at hscan
  have hlast : (if lastEnd isWhite isNewline s ≠ 0 then lastEnd isWhite isNewline s else 0) =
      lastEnd isWhite isNewline s := by
    split
    · rfl
    · omega
  rw [hlast] at hscan
  have hdrop := white_class.drop s
  have hhead : (runLen isWhite s < (encode s).length ∧ 1 < runLen isWhite s ∧
      (joyaiLetterLikeAt ((encode s).drop (runLen isWhite s)) = true ∨
        joyaiAsciiPunctSymbol (byteAt (encode s) (runLen isWhite s)) = true)) ↔
      (1 < runLen isWhite s ∧
        headIs (fun x => x.isLetter || x.isPunct) (s.drop (runLen isWhite s)) = true) := by
    have hbyte : byteAt (encode s) (runLen isWhite s) =
        byteAt ((encode s).drop (runLen isWhite s)) 0 := by
      simp [byteAt]
    have hlt : runLen isWhite s < (encode s).length ↔
        (encode s).drop (runLen isWhite s) ≠ [] := by
      rw [Ne, List.drop_eq_nil_iff, not_le]
    rw [hbyte, hlt, hdrop]
    cases hrest : s.drop (runLen isWhite s) with
    | nil => simp [encode, headIs]
    | cons x t =>
      rw [joyaiLetterLikeAt_encode, punct_class.head, headIs_cons, Bool.or_eq_true]
      exact and_iff_right (encode_ne_nil x t)
  simp only [spaceRun, hscan, whiteLen, hhead]

end Runs

section Piece
variable {c : TextChar} {s : Text}

theorem encode_cons_ascii (hc : c.cp < 128) : encode (c :: s) = c.cp.toUInt8 :: encode s := by
  rw [encode_cons, utf8Put_ascii hc]
  rfl

/-- The bytes behind an ASCII character. -/
theorem drop_one (hc : c.cp < 128) : (encode (c :: s)).drop 1 = encode s := by
  rw [encode_cons_ascii hc]
  rfl

theorem second_byte {p : UInt8 → Bool} {q : TextChar → Bool} (hpq : AsciiClass p q)
    (hc : c.cp < 128) : (1 < (encode (c :: s)).length ∧ p (byteAt (encode (c :: s)) 1) = true) ↔
      headIs q s = true := by
  rw [← hpq.headIs s, encode_cons_ascii hc, List.length_cons]
  exact and_congr_left fun _ => Nat.succ_lt_succ_iff

theorem second_letter (hc : c.cp < 128) :
    (1 < (encode (c :: s)).length ∧ joyaiLetterLikeAt (encode s) = true) ↔
      headIs isLetter s = true := by
  rw [encode_cons_ascii hc, List.length_cons]
  cases s with
  | nil => simp [encode, headIs]
  | cons x s =>
    rw [joyaiLetterLikeAt_encode, headIs_cons]
    exact and_iff_right (Nat.succ_lt_succ (List.length_pos_iff.2 (encode_ne_nil x s)))

/-- Behind a first ASCII character, the width of a part is one more. -/
theorem width_cons (hc : c.cp < 128) (k : ℕ) :
    (encode ((c :: s).take (1 + k))).length = 1 + (encode (s.take k)).length := by
  rw [Nat.add_comm 1 k, List.take_succ_cons, encode_cons_ascii hc, List.length_cons,
    Nat.add_comm]

theorem width_run {p : UInt8 → Bool} {q : TextChar → Bool} (hpq : AsciiClass p q) (s : Text) :
    (encode (s.take (runLen q s))).length = runLen q s :=
  encode_take_ascii (runLen_le q s) (hpq.take_ascii s)

theorem width_punct (s : Text) : (encode (s.take (punctLen s))).length = punctLen s := by
  apply encode_take_ascii (punctLen_le s)
  intro x hx
  rw [punctLen, List.take_add] at hx
  rcases List.mem_append.1 hx with hx | hx
  · exact punct_class.take_ascii s x hx
  · exact newline_class.take_ascii _ x hx

theorem whiteLen_le (letter : TextChar → Bool) (s : Text) :
    whiteLen letter s ≤ runLen isWhite s := by
  have hlast := lastEnd_le isWhite isNewline s
  rw [whiteLen]
  split_ifs <;> omega

theorem width_white (s : Text) :
    (encode (s.take (whiteLen isLetter s))).length = whiteLen isLetter s := by
  have hle := whiteLen_le isLetter s
  apply encode_take_ascii (hle.trans (runLen_le _ _))
  intro x hx
  apply white_class.take_ascii s
  exact (List.take_prefix_take_left hle).mem hx

/-- The scanner takes the bytes of the first piece. -/
theorem scanPiece_encode (c : TextChar) (s : Text) :
    scanPiece (encode (c :: s)) =
      (encode ((c :: s).take (charPiece isLetter (c :: s)))).length := by
  obtain ⟨hd, -, hw, hn, hp, hb, -⟩ := byteAt_classes c s
  have hcjk := joyaiCjkAt_encode c s
  have hlet := joyaiLetterLikeAt_encode c s
  rw [scanPiece, charPiece]
  simp only [hd, hcjk, hp, hlet, hn, hw]
  by_cases hnum : c.isNumber = true
  · have hle : runLen isNumber ((c :: s).take 3) ≤ 3 :=
      (runLen_le _ _).trans (List.length_take_le 3 _)
    have hwidth := width_run digit_class ((c :: s).take 3)
    rw [List.take_take, min_eq_left hle] at hwidth
    rw [if_pos hnum, if_pos hnum, digit_class.takeWhile, hwidth]
  rw [if_neg hnum, if_neg hnum]
  by_cases hj : c.isCjk = true
  · rw [if_pos hj, if_pos hj, consumeCjk_encode hj]
  rw [if_neg hj, if_neg hj]
  by_cases hl : c.isLetter = true
  · have hpn := (letter_only hl).2.1
    rw [hpn, if_neg (by simp), if_pos hl, if_neg (by simp), if_pos hl, consumeLetters_encode]
  have hc : c.cp < 128 := by
    by_contra h
    simp [isLetter, not_lt.1 h] at hl
  have hblank : byteAt (encode (c :: s)) 0 = 32 ↔ c.isBlank = true := by rw [← hb, beq_iff_eq]
  simp only [second_byte alpha_class hc, second_byte punct_class hc, second_letter hc, hblank,
    drop_one hc, alpha_class.runLength, consumeLetters_encode, punctRun_encode, spaceRun_encode,
    if_neg hl]
  by_cases ha : c.isPunct = true ∧ headIs isAlpha s = true
  · rw [if_pos ha, if_pos ha, width_cons hc, width_run alpha_class]
  rw [if_neg ha, if_neg ha]
  by_cases hlead : c.isNewline = false ∧ c.isPunct = false ∧ headIs isLetter s = true
  · rw [if_pos hlead, if_pos hlead, width_cons hc]
  rw [if_neg hlead, if_neg hlead]
  by_cases hbl : c.isBlank = true ∧ headIs isPunct s = true
  · rw [if_pos hbl, if_pos hbl, width_cons hc, width_punct]
  rw [if_neg hbl, if_neg hbl]
  by_cases hpun : c.isPunct = true
  · rw [if_pos hpun, if_pos hpun, width_punct]
  · have hwhite : c.isWhite = true := by
      rcases class_cases c with h | h | h | h
      · exact absurd h hnum
      · exact absurd h hl
      · exact absurd h hpun
      · exact h
    rw [if_neg hpun, if_neg hpun, if_pos hwhite, width_white]

theorem pieceLength_encode (c : TextChar) (s : Text) :
    pieceLength (encode (c :: s)) =
      (encode ((c :: s).take (charPiece isLetter (c :: s)))).length := by
  rw [pieceLength, scanPiece_encode, if_neg]
  have hpos := charPiece_pos isLetter_class c s
  have hle := length_le_encode ((c :: s).take (charPiece isLetter (c :: s)))
  rw [List.length_take, List.length_cons] at hle
  omega

/-- The pieces of a text, as the scanner cuts its bytes. -/
theorem textPieces_encode (n : ℕ) : ∀ s : Text, s.length ≤ n →
    textPieces (encode s) = (cut (charPiece isLetter) s).map encode := by
  induction n with
  | zero =>
    intro s hs
    rw [List.length_eq_zero_iff.1 (Nat.le_zero.1 hs)]
    rfl
  | succ n ih =>
    intro s hs
    cases s with
    | nil => rfl
    | cons c s =>
      have hpos := charPiece_pos isLetter_class c s
      have hne : encode ((c :: s).take (charPiece isLetter (c :: s))) ≠ [] := by
        obtain ⟨k, hk⟩ : ∃ k, charPiece isLetter (c :: s) = k + 1 :=
          ⟨charPiece isLetter (c :: s) - 1, by omega⟩
        rw [hk, List.take_succ_cons]
        exact encode_ne_nil _ _
      have hsplit : encode (c :: s) = encode ((c :: s).take (charPiece isLetter (c :: s))) ++
          encode ((c :: s).drop (charPiece isLetter (c :: s))) := by
        rw [← encode_append, List.take_append_drop]
      have hlen := pieceLength_encode c s
      rw [hsplit] at hlen
      rw [hsplit, textPieces, cut_append (fun _ _ => pieceLength_pos _) hne hlen,
        cut_cons (charPiece_pos isLetter_class), List.map_cons, ← ih]
      · rfl
      · rw [List.length_drop, List.length_cons]
        rw [List.length_cons] at hs
        omega

end Piece

end Ds4.Tokenizer
