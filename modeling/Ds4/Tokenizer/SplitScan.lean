import Ds4.Tokenizer.Split

/-! The documented split as one scan: its pieces are cut off from the left one by one. -/
namespace Ds4.Tokenizer
open Parts TextChar

section Classes
variable {x : TextChar}

theorem punct_only (h : x.isPunct = true) : x.isNumber = false ∧ x.isCjk = false ∧
    x.isAlpha = false ∧ x.isLetter = false ∧ x.isWhite = false ∧ x.isNewline = false ∧
    x.isBlank = false := by
  simp only [isPunct, isNumber, isCjk, utf8IsCjkHiraKata, isAlpha, isLetter, isWhite, isNewline,
    isBlank, Bool.or_eq_true, Bool.and_eq_true, decide_eq_true_eq, Bool.or_eq_false_iff,
    Bool.and_eq_false_imp, decide_eq_false_iff_not, beq_eq_false_iff_ne] at h ⊢
  omega

theorem letter_only (h : x.isLetter = true) : x.isNumber = false ∧ x.isPunct = false ∧
    x.isWhite = false ∧ x.isNewline = false ∧ x.isBlank = false := by
  simp only [isPunct, isNumber, isAlpha, isLetter, isWhite, isNewline,
    isBlank, Bool.or_eq_true, Bool.and_eq_true, decide_eq_true_eq, Bool.or_eq_false_iff,
    Bool.and_eq_false_imp, decide_eq_false_iff_not, beq_eq_false_iff_ne] at h ⊢
  omega

theorem white_only (h : x.isWhite = true) : x.isNumber = false ∧ x.isCjk = false ∧
    x.isPunct = false ∧ x.isLetter = false := by
  simp only [isPunct, isNumber, isCjk, utf8IsCjkHiraKata, isAlpha, isLetter, isWhite,
    Bool.or_eq_true, Bool.and_eq_true, decide_eq_true_eq, Bool.or_eq_false_iff, beq_iff_eq,
    Bool.and_eq_false_imp, decide_eq_false_iff_not] at h ⊢
  omega

theorem number_only (h : x.isNumber = true) : x.isCjk = false ∧ x.isPunct = false ∧
    x.isLetter = false ∧ x.isWhite = false := by
  simp only [isPunct, isNumber, isCjk, utf8IsCjkHiraKata, isAlpha, isLetter, isWhite,
    Bool.and_eq_true, decide_eq_true_eq, Bool.or_eq_false_iff,
    Bool.and_eq_false_imp, decide_eq_false_iff_not, beq_eq_false_iff_ne] at h ⊢
  omega

theorem cjk_letter (h : x.isCjk = true) : x.isLetter = true := by
  simp only [isCjk, utf8IsCjkHiraKata, isLetter, isAlpha, Bool.or_eq_true, Bool.and_eq_true,
    decide_eq_true_eq] at h ⊢
  omega

theorem alpha_plain (h : x.isAlpha = true) : x.isLetter = true ∧ x.isCjk = false := by
  simp only [isCjk, utf8IsCjkHiraKata, isLetter, isAlpha, Bool.or_eq_true, Bool.and_eq_true,
    decide_eq_true_eq, Bool.or_eq_false_iff, Bool.and_eq_false_imp,
    decide_eq_false_iff_not] at h ⊢
  omega

theorem newline_white (h : x.isNewline = true) : x.isWhite = true := by
  simp only [isNewline, isWhite, Bool.or_eq_true, Bool.and_eq_true, decide_eq_true_eq,
    beq_iff_eq] at h ⊢
  omega

theorem blank_white (h : x.isBlank = true) : x.isWhite = true := by
  simp only [isBlank, isWhite, Bool.or_eq_true, beq_iff_eq] at h ⊢
  exact Or.inl h

/-- The classes cover the characters of a text. -/
theorem class_cases (x : TextChar) : x.isNumber = true ∨ x.isLetter = true ∨
    x.isPunct = true ∨ x.isWhite = true := by
  have h := x.ok
  simp only [isPunct, isNumber, isAlpha, isLetter, isWhite, Bool.or_eq_true, Bool.and_eq_true,
    decide_eq_true_eq, beq_iff_eq]
  omega

end Classes

/-- The letters of the third pattern: the CJK ones are isolated before it. -/
def plainLetter (x : TextChar) : Bool := x.isLetter && !x.isCjk

/-- What the third pattern gets to see. -/
def plain (x : TextChar) : Bool := !x.isNumber && !x.isCjk

section Scan
variable (letter : TextChar → Bool)

def punctLen (s : Text) : ℕ := runLen isPunct s + runLen isNewline (s.drop (runLen isPunct s))

def whiteLen (s : Text) : ℕ :=
  if lastEnd isWhite isNewline s ≠ 0 then lastEnd isWhite isNewline s
  else if 1 < runLen isWhite s ∧
      headIs (fun x => letter x || x.isPunct) (s.drop (runLen isWhite s)) = true then
    runLen isWhite s - 1
  else runLen isWhite s

/-- The length of the first piece, for a given class of letters. -/
def charPiece : Text → ℕ
  | [] => 0
  | c :: s =>
      if c.isNumber then runLen isNumber ((c :: s).take 3)
      else if c.isCjk then runLen isCjk (c :: s)
      else if c.isPunct ∧ headIs isAlpha s then 1 + runLen isAlpha s
      else if letter c then runLen letter (c :: s)
      else if c.isNewline = false ∧ c.isPunct = false ∧ headIs letter s then 1 + runLen letter s
      else if c.isBlank ∧ headIs isPunct s then 1 + punctLen s
      else if c.isPunct then punctLen (c :: s)
      else whiteLen letter (c :: s)

end Scan

section Words
variable {c : TextChar} {s : Text}

theorem length_drop_sub {k : ℕ} {s : Text} (hk : k ≤ s.length) :
    s.length - (s.drop k).length = k := by
  rw [List.length_drop]
  omega

theorem punctLen_le (s : Text) : punctLen s ≤ s.length := by
  have h := runLen_le isPunct s
  have h' := runLen_le isNewline (s.drop (runLen isPunct s))
  rw [List.length_drop] at h'
  rw [punctLen]
  omega

theorem dropWhile_punct (s : Text) :
    (s.dropWhile isPunct).dropWhile isNewline = s.drop (punctLen s) := by
  rw [dropWhile_eq_drop isNewline, dropWhile_eq_drop isPunct, List.drop_drop, punctLen]

/-- A match that leaves a part of the list behind the first character. -/
theorem matchLength_cons {r : Pattern TextChar} {k : ℕ} (h : r.first (c :: s) = some (s.drop k))
    (hk : k ≤ s.length) : r.matchLength (c :: s) = 1 + k := by
  rw [matchLength_some h, List.length_cons, List.length_drop]
  omega

theorem matchLength_drop {r : Pattern TextChar} {k : ℕ} {s : Text}
    (h : r.first s = some (s.drop k)) (hk : k ≤ s.length) : r.matchLength s = k := by
  rw [matchLength_some h, length_drop_sub hk]

/-- Punctuation at the head. -/
theorem words_punct (hc : c.isPunct = true) :
    words.matchLength (c :: s) =
      if headIs isAlpha s = true then 1 + runLen isAlpha s else punctLen (c :: s) := by
  obtain ⟨-, -, -, hl, -, -, hb⟩ := punct_only hc
  by_cases ha : headIs isAlpha s = true
  · have h : words.first (c :: s) = some (s.drop (runLen isAlpha s)) := by
      simp only [words, first_alt, punctLetters, first_seq_one, hc, first_plus, ha, if_true,
        dropWhile_eq_drop]
      rfl
    rw [if_pos ha, matchLength_cons h (runLen_le _ _)]
  · have h : words.first (c :: s) = some ((c :: s).drop (punctLen (c :: s))) := by
      rw [Bool.not_eq_true] at ha
      simp only [words, first_alt, punctLetters, first_seq_one, hc, first_plus, ha, if_true,
        leadLetters, first_seq_opt, hl, Bool.not_true, Bool.and_false, headIs_cons,
          Bool.false_eq_true,
        if_false, punctNewlines, hb, first_seq_plus_many, dropWhile_punct]
      rfl
    rw [if_neg ha, matchLength_drop h (punctLen_le _)]

/-- A letter at the head. -/
theorem words_letter (hc : c.isLetter = true) :
    words.matchLength (c :: s) = runLen isLetter (c :: s) := by
  obtain ⟨-, hp, -, -, -⟩ := letter_only hc
  have h : words.first (c :: s) = some ((c :: s).drop (runLen isLetter (c :: s))) := by
    simp only [words, first_alt, punctLetters, first_seq_one, hp, first_plus, leadLetters,
      first_seq_opt, hc, Bool.not_true, Bool.and_false, Bool.false_and, headIs_cons,
      Bool.false_eq_true, if_false, if_true, dropWhile_eq_drop]
    rfl
  rw [matchLength_drop h (runLen_le _ _)]

/-- Behind a whitespace run stands nothing, or a letter or punctuation. -/
theorem head_behind_white (hs : ∀ x ∈ s, plain x = true) (hlt : runLen isWhite s < s.length) :
    headIs (fun x => x.isLetter || x.isPunct) (s.drop (runLen isWhite s)) = true := by
  rw [← dropWhile_eq_drop]
  cases hd : s.dropWhile isWhite with
  | nil =>
    have hlen := length_dropWhile isWhite s
    rw [hd, List.length_nil] at hlen
    omega
  | cons d t =>
    have hw := List.head?_dropWhile_not isWhite s
    rw [hd] at hw
    have hmem : d ∈ s := (List.dropWhile_suffix isWhite).mem (hd ▸ List.mem_cons_self)
    have hplain := hs d hmem
    simp only [plain, Bool.and_eq_true, Bool.not_eq_true'] at hplain
    rw [headIs_cons, Bool.or_eq_true]
    rcases class_cases d with h | h | h | h
    · rw [hplain.1] at h
      cases h
    · exact Or.inl h
    · exact Or.inr h
    · simp [h] at hw

/-- Whitespace that neither a letter nor punctuation takes along. -/
theorem words_white_run (hc : c.isWhite = true) (hs : ∀ x ∈ c :: s, plain x = true)
    (hnone : words.first (c :: s) = (whiteNewlines.first (c :: s)).or
      ((whiteNotAhead.first (c :: s)).or ((Pattern.plus isWhite).first (c :: s)))) :
    words.matchLength (c :: s) = whiteLen isLetter (c :: s) := by
  have hnl : whiteNewlines.first (c :: s) =
      if lastEnd isWhite isNewline (c :: s) ≠ 0 then
        some ((c :: s).drop (lastEnd isWhite isNewline (c :: s))) else none :=
    first_many_plus (fun _ => newline_white) _
  have hna : whiteNotAhead.first (c :: s) =
      if runLen isWhite (c :: s) = (c :: s).length then some []
      else if 1 < runLen isWhite (c :: s) then
        some ((c :: s).drop (runLen isWhite (c :: s) - 1)) else none := by
    rw [whiteNotAhead, first_plus_notAhead, headIs_cons, if_pos hc]
  have hle := runLen_le isWhite (c :: s)
  rw [whiteLen]
  by_cases hlast : lastEnd isWhite isNewline (c :: s) ≠ 0
  · rw [hnl, if_pos hlast, Option.some_or] at hnone
    rw [if_pos hlast, matchLength_drop hnone ((lastEnd_le _ _ _).trans hle)]
  rw [if_neg hlast]
  rw [hnl, if_neg hlast, Option.none_or, hna] at hnone
  by_cases hall : runLen isWhite (c :: s) = (c :: s).length
  · rw [if_pos hall, Option.some_or] at hnone
    have hdrop : words.first (c :: s) = some ((c :: s).drop (runLen isWhite (c :: s))) := by
      rw [hnone, hall, List.drop_length]
    rw [matchLength_drop hdrop hle, if_neg]
    rw [hall, List.drop_length]
    exact fun h => absurd h.2 Bool.false_ne_true
  · rw [if_neg hall] at hnone
    have hhead := head_behind_white hs (lt_of_le_of_ne hle hall)
    by_cases hlong : 1 < runLen isWhite (c :: s)
    · rw [if_pos hlong, Option.some_or] at hnone
      rw [matchLength_drop hnone (by omega), if_pos ⟨hlong, hhead⟩]
    · rw [if_neg hlong, Option.none_or, first_plus, headIs_cons, if_pos hc,
        dropWhile_eq_drop] at hnone
      rw [matchLength_drop hnone hle, if_neg (fun h => hlong h.1)]

/-- Whitespace at the head. -/
theorem words_white (hc : c.isWhite = true) (hs : ∀ x ∈ c :: s, plain x = true) :
    words.matchLength (c :: s) =
      if c.isNewline = false ∧ headIs isLetter s = true then 1 + runLen isLetter s
      else if c.isBlank = true ∧ headIs isPunct s = true then 1 + punctLen s
      else whiteLen isLetter (c :: s) := by
  obtain ⟨-, -, hp, hl⟩ := white_only hc
  have hpl : punctLetters.first (c :: s) = none := by
    rw [punctLetters, first_seq_one, hp]
    rfl
  have hlead : leadLetters.first (c :: s) =
      if c.isNewline = false ∧ headIs isLetter s = true then some (s.drop (runLen isLetter s))
      else none := by
    rw [leadLetters, first_seq_opt, first_plus, first_plus, headIs_cons, hl, hp,
      dropWhile_eq_drop isLetter s]
    cases c.isNewline <;> cases headIs isLetter s <;> rfl
  have hpn : punctNewlines.first (c :: s) =
      if c.isBlank = true ∧ headIs isPunct s = true then some (s.drop (punctLen s))
      else none := by
    rw [punctNewlines, first_seq_opt, first_seq_plus_many, first_seq_plus_many, headIs_cons, hp,
      dropWhile_punct s]
    cases c.isBlank <;> cases headIs isPunct s <;> rfl
  have hfirst : words.first (c :: s) = ((leadLetters.first (c :: s)).or
      ((punctNewlines.first (c :: s)).or ((whiteNewlines.first (c :: s)).or
        ((whiteNotAhead.first (c :: s)).or ((Pattern.plus isWhite).first (c :: s)))))) := by
    rw [words, first_alt, first_alt, first_alt, first_alt, first_alt, hpl, Option.none_or]
  by_cases hcond : c.isNewline = false ∧ headIs isLetter s = true
  · rw [if_pos hcond] at hlead ⊢
    rw [hlead, Option.some_or] at hfirst
    exact matchLength_cons hfirst (runLen_le _ _)
  rw [if_neg hcond] at hlead ⊢
  by_cases hblank : c.isBlank = true ∧ headIs isPunct s = true
  · rw [if_pos hblank] at hpn ⊢
    rw [hlead, hpn, Option.none_or, Option.some_or] at hfirst
    exact matchLength_cons hfirst (punctLen_le _)
  · rw [if_neg hblank] at hpn ⊢
    rw [hlead, hpn, Option.none_or, Option.none_or] at hfirst
    exact words_white_run hc hs hfirst

end Words

section Fragment
variable {c : TextChar} {s rest : Text}

/-- On a part without digits and CJK the alternatives match as the scan cuts. -/
theorem words_charPiece (hs : ∀ x ∈ c :: s, plain x = true) :
    words.matchLength (c :: s) = charPiece isLetter (c :: s) := by
  have hc := hs c List.mem_cons_self
  simp only [plain, Bool.and_eq_true, Bool.not_eq_true'] at hc
  rw [charPiece, hc.1, hc.2, if_neg Bool.false_ne_true, if_neg Bool.false_ne_true]
  rcases class_cases c with h | h | h | h
  · rw [hc.1] at h
    cases h
  · obtain ⟨-, hp, -, -, -⟩ := letter_only h
    rw [words_letter h, if_neg, if_pos h]
    rw [hp]
    exact fun hpa => Bool.false_ne_true hpa.1
  · obtain ⟨-, -, -, hl, -, -, hb⟩ := punct_only h
    rw [words_punct h, hl, hb, h]
    simp
  · obtain ⟨-, -, hp, hl⟩ := white_only h
    rw [words_white h hs, hp, hl]
    simp

theorem punctLen_append (hp : headIs isPunct rest = false) (hn : headIs isNewline rest = false)
    (s : Text) : punctLen (s ++ rest) = punctLen s := by
  rw [punctLen, runLen_append hp, List.drop_append_of_le_length (runLen_le _ _),
    runLen_append hn, punctLen]

/-- The letters of a part without CJK are the plain ones. -/
theorem plainLetter_eq {s : Text} (hs : ∀ x ∈ s, plain x = true) :
    ∀ x ∈ s, plainLetter x = isLetter x := by
  intro x hx
  have h := hs x hx
  simp only [plain, Bool.and_eq_true, Bool.not_eq_true'] at h
  simp [plainLetter, h.2]

/-- A part that digits, CJK or nothing follow is cut as if it stood alone. -/
theorem charPiece_append (hs : ∀ x ∈ c :: s, plain x = true)
    (hrest : headIs plain rest = false) :
    charPiece plainLetter (c :: s ++ rest) = charPiece isLetter (c :: s) := by
  have hwhite : headIs isWhite rest = false := headIs_mono (fun x hx => by
    have h := white_only hx
    simp [plain, h.1, h.2.1]) hrest
  have hpunct : headIs isPunct rest = false := headIs_mono (fun x hx => by
    have h := punct_only hx
    simp [plain, h.1, h.2.1]) hrest
  have hletter : headIs plainLetter rest = false := headIs_mono (fun x hx => by
    rw [plainLetter, Bool.and_eq_true] at hx
    have h := letter_only hx.1
    simpa [plain, h.1] using hx.2) hrest
  have halpha : headIs isAlpha rest = false := headIs_mono (fun x hx => by
    have h := alpha_plain hx
    simp [plainLetter, h.1, h.2]) hletter
  have hnewline : headIs isNewline rest = false := headIs_mono (fun _ => newline_white) hwhite
  have hword : headIs (fun x => plainLetter x || x.isPunct) rest = false :=
    headIs_mono (fun x hx => by
      rcases Bool.or_eq_true_iff.1 hx with h | h
      · rw [plainLetter, Bool.and_eq_true] at h
        have h' := letter_only h.1
        simpa [plain, h'.1] using h.2
      · have h' := punct_only h
        simp [plain, h'.1, h'.2.1]) hrest
  have hc := hs c List.mem_cons_self
  simp only [plain, Bool.and_eq_true, Bool.not_eq_true'] at hc
  have htail : ∀ x ∈ s, plain x = true := fun x hx => hs x (List.mem_cons_of_mem _ hx)
  have hlc := plainLetter_eq hs c List.mem_cons_self
  have hwhiteLen : whiteLen plainLetter (c :: s ++ rest) = whiteLen isLetter (c :: s) := by
    rw [whiteLen, whiteLen, lastEnd_append hwhite, runLen_append hwhite,
      List.drop_append_of_le_length (runLen_le _ _), headIs_append hword]
    rw [headIs_congr (q := fun x => x.isLetter || x.isPunct)]
    intro x hx
    rw [plainLetter_eq hs x (List.mem_of_mem_drop hx)]
  rw [List.cons_append] at hwhiteLen ⊢
  rw [charPiece, charPiece, hwhiteLen, headIs_append halpha, runLen_append halpha, hlc,
    ← List.cons_append, runLen_append hletter, headIs_append hletter, runLen_append hletter,
    headIs_append hpunct, punctLen_append hpunct hnewline, punctLen_append hpunct hnewline,
    runLen_congr (plainLetter_eq hs), runLen_congr (plainLetter_eq htail),
    headIs_congr (plainLetter_eq htail), hc.1, hc.2]
  rfl

end Fragment

end Ds4.Tokenizer
