import Ds4.Tokenizer.SplitScan

/-! The documented split cuts its pieces off from the left, with CJK letters left out of the
words. -/
namespace Ds4.Tokenizer
open Parts TextChar

theorem numbers_matchLength (c : TextChar) (s : Text) :
    numbers.matchLength (c :: s) =
      if c.isNumber then runLen isNumber ((c :: s).take 3) else 0 := by
  by_cases hc : c.isNumber = true
  · have hfirst : numbers.first (c :: s) = some (s.drop (runLen isNumber (s.take 2))) := by
      rw [numbers, first_seq_one, if_pos hc]
      exact head?_upToRests isNumber 2 s
    have hle : runLen isNumber (s.take 2) ≤ s.length := by
      have h := runLen_le isNumber (s.take 2)
      rw [List.length_take] at h
      omega
    rw [if_pos hc, matchLength_cons hfirst hle, List.take_succ_cons, runLen_cons, if_pos hc]
    omega
  · rw [if_neg hc, matchLength_none]
    rw [numbers, first_seq_one, if_neg hc]

/-- No alternative matches inside a run of digits. -/
theorem words_number {c : TextChar} {s : Text} (h : ∀ x ∈ c :: s, x.isNumber = true) :
    words.matchLength (c :: s) = 0 := by
  obtain ⟨-, hp, hl, hw⟩ := number_only (h c List.mem_cons_self)
  have hletter : headIs isLetter s = false := by
    cases s with
    | nil => rfl
    | cons d s => exact (number_only (h d (List.mem_cons_of_mem _ List.mem_cons_self))).2.2.1
  have hb : c.isBlank = false := by
    by_contra hb
    rw [Bool.not_eq_false] at hb
    rw [blank_white hb] at hw
    cases hw
  have hnl : whiteNewlines.first (c :: s) = none := by
    rw [whiteNewlines, first_many_plus (fun _ => newline_white), lastEnd, hw]
    rfl
  have hna : whiteNotAhead.first (c :: s) = none := by
    rw [whiteNotAhead, first_plus_notAhead, headIs_cons, hw]
    rfl
  apply matchLength_none
  simp only [words, first_alt, punctLetters, first_seq_one, hp, leadLetters, first_seq_opt,
    first_plus, hletter, headIs_cons, hl, punctNewlines, hb, first_seq_plus_many, hnl, hna, hw,
    Bool.false_eq_true, if_false, ite_self, Option.or_none]

/-- What the second and the third pattern make of a part. -/
def partSplit (g : Text) : List Text :=
  (split cjkRun.matchLength g).flatMap (split words.matchLength)

theorem documentedSplit_eq (s : Text) :
    documentedSplit s = (split numbers.matchLength s).flatMap partSplit :=
  List.flatMap_assoc

theorem cjk_matchLength (s : Text) : cjkRun.matchLength s = runLen isCjk s :=
  matchLength_plus isCjk s

section Parts
variable {f g r rest : Text}

/-- A run of digits stays one piece. -/
theorem partSplit_number (hne : g ≠ []) (h : ∀ x ∈ g, x.isNumber = true) :
    partSplit g = [g] := by
  have hcjk : split cjkRun.matchLength g = [g] := by
    apply split_none hne
    intro c s hs
    have hc := number_only (h c (hs.mem List.mem_cons_self))
    rw [cjk_matchLength]
    exact runLen_eq_zero hc.1
  have hwords : split words.matchLength g = [g] := by
    apply split_none hne
    intro c s hs
    exact words_number fun x hx => h x (hs.mem hx)
  rw [partSplit, hcjk, List.flatMap_singleton, hwords]

/-- A part without digits in front of one. -/
theorem documentedSplit_append (h : ∀ x ∈ g, x.isNumber = false)
    (hrest : headIs (fun x => !x.isNumber) rest = false) :
    documentedSplit (g ++ rest) = partSplit g ++ documentedSplit rest := by
  by_cases hne : g = []
  · rw [hne]
    rfl
  · have hsplit : split numbers.matchLength (g ++ rest) =
        g :: split numbers.matchLength rest := by
      apply split_gap hne
      · intro c s hs
        rw [List.cons_append, numbers_matchLength, h c (hs.mem List.mem_cons_self)]
        rfl
      · rintro c s rfl
        have hc : c.isNumber = true := by simpa using hrest
        rw [numbers_matchLength, if_pos hc, List.take_succ_cons]
        exact (runLen_pos hc).ne'
    rw [documentedSplit_eq, hsplit, List.flatMap_cons, ← documentedSplit_eq]

/-- The rest of a text is a part without digits and what follows it. -/
theorem exists_numberless (s : Text) : ∃ g rest, s = g ++ rest ∧
    (∀ x ∈ g, x.isNumber = false) ∧ headIs (fun x => !x.isNumber) rest = false := by
  refine ⟨s.takeWhile fun x => !x.isNumber, s.dropWhile fun x => !x.isNumber,
    List.takeWhile_append_dropWhile.symm, ?_, headIs_dropWhile _ s⟩
  intro x hx
  simpa using List.mem_takeWhile_imp hx

/-- A CJK run is one piece. -/
theorem documentedSplit_cjk (hne : r ≠ []) (hr : ∀ x ∈ r, x.isCjk = true)
    (hrest : headIs isCjk rest = false) :
    documentedSplit (r ++ rest) = r :: documentedSplit rest := by
  obtain ⟨g, tail, rfl, hg, htail⟩ := exists_numberless rest
  obtain ⟨c, t, rfl⟩ := List.exists_cons_of_ne_nil hne
  have hnum : ∀ x ∈ c :: t, x.isNumber = false := fun x hx =>
    (letter_only (cjk_letter (hr x hx))).1
  have hgcjk : headIs isCjk g = false := by
    cases g with
    | nil => rfl
    | cons d g => exact hrest
  have hlen : runLen isCjk (c :: t ++ g) = (c :: t).length := by
    rw [runLen_append hgcjk, runLen_all hr]
  have hsplit : split cjkRun.matchLength (c :: t ++ g) =
      (c :: t) :: split cjkRun.matchLength g := by
    rw [List.cons_append] at hlen ⊢
    have hm : cjkRun.matchLength (c :: (t ++ g)) = (c :: t).length := by
      rw [cjk_matchLength, hlen]
    rw [split_match (by rw [hm]; simp), hm, ← List.cons_append, List.take_left, List.drop_left]
  have hletters : ∀ x ∈ c :: t, x.isLetter = true := fun x hx => cjk_letter (hr x hx)
  have hm : words.matchLength (c :: t) = (c :: t).length := by
    rw [words_letter (hletters c List.mem_cons_self), runLen_all hletters]
  have hword : split words.matchLength (c :: t) = [c :: t] := by
    rw [split_match (by rw [hm]; simp), hm, List.take_length, List.drop_length]
    rfl
  rw [← List.append_assoc, documentedSplit_append _ htail, documentedSplit_append hg htail,
    partSplit, hsplit, List.flatMap_cons, hword]
  · rfl
  · intro x hx
    rcases List.mem_append.1 hx with hx | hx
    · exact hnum x hx
    · exact hg x hx

/-- A part without digits and CJK is cut by the alternatives alone. -/
theorem documentedSplit_plain (hf : ∀ x ∈ f, plain x = true)
    (hrest : headIs plain rest = false) :
    documentedSplit (f ++ rest) = split words.matchLength f ++ documentedSplit rest := by
  by_cases hne : f = []
  · rw [hne]
    rfl
  obtain ⟨g, tail, rfl, hg, htail⟩ := exists_numberless rest
  have hcjk : ∀ x ∈ f, x.isNumber = false ∧ x.isCjk = false := by
    intro x hx
    have h := hf x hx
    simpa [plain] using h
  have hsplit : split cjkRun.matchLength (f ++ g) = f :: split cjkRun.matchLength g := by
    apply split_gap hne
    · intro c s hs
      rw [cjk_matchLength]
      exact runLen_eq_zero (hcjk c (hs.mem List.mem_cons_self)).2
    · rintro c s rfl
      have hc : c.isCjk = true := by
        have hn := hg c List.mem_cons_self
        simpa [plain, hn] using hrest
      rw [cjk_matchLength]
      exact (runLen_pos hc).ne'
  rw [← List.append_assoc, documentedSplit_append _ htail, documentedSplit_append hg htail,
    partSplit, hsplit, List.flatMap_cons, List.append_assoc]
  · rfl
  · intro x hx
    rcases List.mem_append.1 hx with hx | hx
    · exact (hcjk x hx).1
    · exact hg x hx

end Parts

/-- The classes of letters a scan may go by. -/
def LetterClass (letter : TextChar → Bool) : Prop := ∀ x, x.isCjk = false → letter x = x.isLetter

theorem plainLetter_class : LetterClass plainLetter := fun x hx => by simp [plainLetter, hx]

theorem isLetter_class : LetterClass isLetter := fun _ _ => rfl

theorem punctLen_pos {c : TextChar} {s : Text} (h : c.isPunct = true) : 0 < punctLen (c :: s) := by
  have hr := runLen_pos (s := s) h
  rw [punctLen]
  omega

theorem whiteLen_pos {letter : TextChar → Bool} {c : TextChar} {s : Text}
    (h : c.isWhite = true) : 0 < whiteLen letter (c :: s) := by
  have hr := runLen_pos (s := s) h
  rw [whiteLen]
  split_ifs <;> omega

theorem charPiece_pos {letter : TextChar → Bool} (hl : LetterClass letter) (c : TextChar)
    (s : Text) : 0 < charPiece letter (c :: s) := by
  rw [charPiece]
  split_ifs with hn hj ha hlet hlead hblank hp
  · rw [List.take_succ_cons]
    exact runLen_pos hn
  · exact runLen_pos hj
  · omega
  · exact runLen_pos hlet
  · omega
  · omega
  · exact punctLen_pos hp
  · apply whiteLen_pos
    have hletter := hl c (by simpa using hj)
    rcases class_cases c with h | h | h | h
    · exact absurd h hn
    · exact absurd (hletter.trans h) hlet
    · exact absurd h hp
    · exact h

theorem charPiece_le (letter : TextChar → Bool) (s : Text) : charPiece letter s ≤ s.length := by
  cases s with
  | nil => exact le_rfl
  | cons c s =>
    have htake := runLen_le isNumber ((c :: s).take 3)
    rw [List.length_take] at htake
    have hcjk := runLen_le isCjk (c :: s)
    have halpha := runLen_le isAlpha s
    have hletter := runLen_le letter (c :: s)
    have hlead := runLen_le letter s
    have hpunct := punctLen_le s
    have hpunct' := punctLen_le (c :: s)
    have hwhite : whiteLen letter (c :: s) ≤ (c :: s).length := by
      have hrun := runLen_le isWhite (c :: s)
      have hlast := lastEnd_le isWhite isNewline (c :: s)
      rw [whiteLen]
      split_ifs <;> omega
    rw [List.length_cons] at *
    rw [charPiece]
    split_ifs <;> omega

section First
variable {c : TextChar} {s : Text}

theorem documentedSplit_cons_number (hc : c.isNumber = true) :
    documentedSplit (c :: s) = (c :: s).take (charPiece plainLetter (c :: s)) ::
      documentedSplit ((c :: s).drop (charPiece plainLetter (c :: s))) := by
  have hk : charPiece plainLetter (c :: s) = runLen isNumber ((c :: s).take 3) := by
    rw [charPiece, if_pos hc]
  have hm : numbers.matchLength (c :: s) = runLen isNumber ((c :: s).take 3) := by
    rw [numbers_matchLength, if_pos hc]
  have hpos : 0 < runLen isNumber ((c :: s).take 3) := by
    rw [List.take_succ_cons]
    exact runLen_pos hc
  have hle : runLen isNumber ((c :: s).take 3) ≤ 3 :=
    (runLen_le _ _).trans (List.length_take_le 3 _)
  have hone : partSplit ((c :: s).take (runLen isNumber ((c :: s).take 3))) =
      [(c :: s).take (runLen isNumber ((c :: s).take 3))] := by
    apply partSplit_number
    · intro h
      have hlen := congrArg List.length h
      rw [List.length_take, List.length_nil, List.length_cons] at hlen
      omega
    · intro x hx
      have htake : (c :: s).take (runLen isNumber ((c :: s).take 3)) =
          ((c :: s).take 3).takeWhile isNumber := by
        rw [takeWhile_eq_take, List.take_take, min_eq_left hle]
      rw [htake] at hx
      exact List.mem_takeWhile_imp hx
  rw [hk, documentedSplit_eq, split_match (by rw [hm]; exact hpos.ne'), hm, List.flatMap_cons,
    hone, documentedSplit_eq]
  rfl

theorem documentedSplit_cons_cjk (hc : c.isCjk = true) :
    documentedSplit (c :: s) = (c :: s).take (charPiece plainLetter (c :: s)) ::
      documentedSplit ((c :: s).drop (charPiece plainLetter (c :: s))) := by
  have hn := (letter_only (cjk_letter hc)).1
  have hk : charPiece plainLetter (c :: s) = runLen isCjk (c :: s) := by
    rw [charPiece, if_neg (by simp [hn]), if_pos hc]
  have hne : (c :: s).takeWhile isCjk ≠ [] := by
    rw [List.takeWhile_cons, if_pos hc]
    exact List.cons_ne_nil _ _
  have h := documentedSplit_cjk hne (fun _ => List.mem_takeWhile_imp)
    (headIs_dropWhile isCjk (c :: s))
  rw [List.takeWhile_append_dropWhile] at h
  rw [hk, h, takeWhile_eq_take, dropWhile_eq_drop]

theorem documentedSplit_cons_plain (hc : plain c = true) :
    documentedSplit (c :: s) = (c :: s).take (charPiece plainLetter (c :: s)) ::
      documentedSplit ((c :: s).drop (charPiece plainLetter (c :: s))) := by
  obtain ⟨f, rest, hs, hf, hrest⟩ : ∃ f rest, s = f ++ rest ∧
      (∀ x ∈ c :: f, plain x = true) ∧ headIs plain rest = false := by
    refine ⟨s.takeWhile plain, s.dropWhile plain, List.takeWhile_append_dropWhile.symm, ?_,
      headIs_dropWhile plain s⟩
    intro x hx
    rcases List.mem_cons.1 hx with rfl | hx
    · exact hc
    · exact List.mem_takeWhile_imp hx
  rw [hs, ← List.cons_append, charPiece_append hf hrest]
  have hle := charPiece_le isLetter (c :: f)
  have hpos := charPiece_pos isLetter_class c f
  have hm := words_charPiece hf
  rw [documentedSplit_plain hf hrest, split_match (by rw [hm]; exact hpos.ne'), hm,
    List.take_append_of_le_length hle, List.drop_append_of_le_length hle,
    documentedSplit_plain (fun x hx => hf x (List.mem_of_mem_drop hx)) hrest]
  rfl

end First

/-- The first piece of the documented split, and what the rest is split into. -/
theorem documentedSplit_cons (c : TextChar) (s : Text) :
    documentedSplit (c :: s) = (c :: s).take (charPiece plainLetter (c :: s)) ::
      documentedSplit ((c :: s).drop (charPiece plainLetter (c :: s))) := by
  cases hn : c.isNumber with
  | true => exact documentedSplit_cons_number hn
  | false =>
    cases hj : c.isCjk with
    | true => exact documentedSplit_cons_cjk hj
    | false => exact documentedSplit_cons_plain (by simp [plain, hn, hj])

/-- The documented split is one scan over the text. -/
theorem documentedSplit_cut (n : ℕ) : ∀ s : Text, s.length ≤ n →
    documentedSplit s = cut (charPiece plainLetter) s := by
  induction n with
  | zero =>
    intro s hs
    rw [List.length_eq_zero_iff.1 (Nat.le_zero.1 hs)]
    rfl
  | succ n ih =>
    intro s hs
    cases s with
    | nil => rfl
    | cons c s =>
      have hp := charPiece_pos plainLetter_class c s
      rw [documentedSplit_cons, cut_cons (charPiece_pos plainLetter_class), ih]
      rw [List.length_drop, List.length_cons]
      rw [List.length_cons] at hs
      omega

end Ds4.Tokenizer
