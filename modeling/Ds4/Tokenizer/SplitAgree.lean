import Ds4.Tokenizer.ScanChars

/-! When the scanner cuts a text as documented. -/
namespace Ds4.Tokenizer
open Parts TextChar

/-- Whitespace on the line. -/
def openWhite (x : TextChar) : Bool := x.isWhite && !x.isNewline

/-- A piece that ends in whitespace on the line, or in a letter without having started with
punctuation. -/
def openPiece (a : Text) : Bool := lastIs openWhite a || (lastIs isLetter a && !headIs isPunct a)

/-- A CJK run that the scanner joins to the piece before it. -/
def joins (a b : Text) : Bool := openPiece a && headIs isCjk b

/-- No CJK run comes right behind an open piece. -/
def CjkApart (pieces : List Text) : Prop := pieces.IsChain fun a b => joins a b = false

section Step
variable {c : TextChar} {s : Text}

theorem headIs_letter_cjk {b : Text} (h : headIs plainLetter b = false) :
    headIs isLetter b = headIs isCjk b := by
  cases b with
  | nil => rfl
  | cons x b =>
    rw [headIs_cons] at h ⊢
    rw [headIs_cons]
    cases hj : x.isCjk with
    | true => exact cjk_letter hj
    | false => simpa [plainLetter, hj] using h

/-- The letters the scanner takes go on where the CJK ones follow. -/
theorem runLen_letter_iff (s : Text) :
    runLen isLetter s ≠ runLen plainLetter s ↔
      headIs isCjk (s.drop (runLen plainLetter s)) = true := by
  have hsplit : runLen isLetter s =
      runLen plainLetter s + runLen isLetter (s.drop (runLen plainLetter s)) := by
    have hall : ∀ x ∈ s.take (runLen plainLetter s), x.isLetter = true := by
      intro x hx
      rw [← takeWhile_eq_take] at hx
      have h := List.mem_takeWhile_imp hx
      rw [plainLetter, Bool.and_eq_true] at h
      exact h.1
    have h := runLen_append_all (t := s.drop (runLen plainLetter s)) hall
    rwa [List.take_append_drop, List.length_take, min_eq_left (runLen_le _ _)] at h
  have hhead : headIs plainLetter (s.drop (runLen plainLetter s)) = false := by
    rw [← dropWhile_eq_drop]
    exact headIs_dropWhile _ s
  rw [← headIs_letter_cjk hhead, hsplit]
  cases hb : headIs isLetter (s.drop (runLen plainLetter s)) with
  | false =>
    rw [runLen_eq_zero hb]
    simp
  | true =>
    cases hd : s.drop (runLen plainLetter s) with
    | nil =>
      rw [hd] at hb
      cases hb
    | cons x t =>
      rw [hd, headIs_cons] at hb
      have hpos := runLen_pos (s := t) hb
      exact iff_of_true (by omega) rfl

/-- The scanner and the documented split take different first pieces exactly where a CJK run
is joined to the documented one. -/
def StepAgrees (s : Text) : Prop :=
  charPiece isLetter s ≠ charPiece plainLetter s ↔
    joins (s.take (charPiece plainLetter s)) (s.drop (charPiece plainLetter s)) = true

theorem stepAgrees_closed {k : ℕ} (hS : charPiece isLetter s = k) (hD : charPiece plainLetter s = k)
    (h : joins (s.take k) (s.drop k) = false) : StepAgrees s := by
  rw [StepAgrees, hS, hD, h]
  simp

theorem take_ne_nil {k : ℕ} (hk : 0 < k) : (c :: s).take k ≠ [] := by
  obtain ⟨j, rfl⟩ : ∃ j, k = j + 1 := ⟨k - 1, by omega⟩
  exact List.cons_ne_nil _ _

/-- A piece whose last character is neither whitespace on the line nor a letter is closed. -/
theorem openPiece_false {a : Text} (hw : lastIs openWhite a = false)
    (hl : lastIs isLetter a = false) : openPiece a = false := by
  rw [openPiece, hw, hl]
  rfl

theorem openWhite_of_not_white {x : TextChar} (h : x.isWhite = false) : openWhite x = false := by
  rw [openWhite, h]
  rfl

theorem step_number (hc : c.isNumber = true) : StepAgrees (c :: s) := by
  have hk (letter : TextChar → Bool) :
      charPiece letter (c :: s) = runLen isNumber ((c :: s).take 3) := by
    rw [charPiece, if_pos hc]
  have hpos : 0 < runLen isNumber ((c :: s).take 3) := by
    rw [List.take_succ_cons]
    exact runLen_pos hc
  have hall : ∀ x ∈ (c :: s).take (runLen isNumber ((c :: s).take 3)), x.isNumber = true := by
    intro x hx
    have hle : runLen isNumber ((c :: s).take 3) ≤ 3 :=
      (runLen_le _ _).trans (List.length_take_le 3 _)
    have hmin := List.take_take (i := runLen isNumber ((c :: s).take 3)) (j := 3) (l := c :: s)
    rw [min_eq_left hle, ← takeWhile_eq_take] at hmin
    rw [← hmin] at hx
    exact List.mem_takeWhile_imp hx
  apply stepAgrees_closed (hk _) (hk _)
  rw [joins, openPiece_false]
  · rfl
  · exact lastIs_all (take_ne_nil hpos) fun x hx =>
      openWhite_of_not_white (number_only (hall x hx)).2.2.2
  · exact lastIs_all (take_ne_nil hpos) fun x hx => (number_only (hall x hx)).2.2.1

theorem step_cjk (hc : c.isCjk = true) : StepAgrees (c :: s) := by
  have hn := (letter_only (cjk_letter hc)).1
  have hk (letter : TextChar → Bool) : charPiece letter (c :: s) = runLen isCjk (c :: s) := by
    rw [charPiece, hn, if_neg Bool.false_ne_true, if_pos hc]
  apply stepAgrees_closed (hk _) (hk _)
  rw [joins, ← dropWhile_eq_drop, headIs_dropWhile, Bool.and_false]

theorem step_punctLetters (hc : c.isPunct = true) (ha : headIs isAlpha s = true) :
    StepAgrees (c :: s) := by
  obtain ⟨hn, hj, -⟩ := punct_only hc
  have hk (letter : TextChar → Bool) : charPiece letter (c :: s) = runLen isAlpha s + 1 := by
    rw [charPiece, hn, hj, if_neg Bool.false_ne_true, if_neg Bool.false_ne_true,
      if_pos ⟨hc, ha⟩, Nat.add_comm]
  have hne : s.takeWhile isAlpha ≠ [] := by
    cases s with
    | nil => cases ha
    | cons d s =>
      rw [headIs_cons] at ha
      rw [List.takeWhile_cons, if_pos ha]
      exact List.cons_ne_nil _ _
  apply stepAgrees_closed (hk _) (hk _)
  rw [joins, List.take_succ_cons, ← takeWhile_eq_take, openPiece, lastIs_cons hne, headIs_cons, hc,
    lastIs_all hne fun x hx => openWhite_of_not_white
      (letter_only (alpha_plain (List.mem_takeWhile_imp hx)).1).2.2.1]
  simp

/-- Punctuation with its newlines ends in neither whitespace on the line nor a letter. -/
theorem punctLen_closed {t : Text} (h : headIs isPunct t = true) :
    t.take (punctLen t) ≠ [] ∧ lastIs openWhite (t.take (punctLen t)) = false ∧
      lastIs isLetter (t.take (punctLen t)) = false := by
  cases t with
  | nil => cases h
  | cons x t =>
    have hne : (x :: t).take (punctLen (x :: t)) ≠ [] := take_ne_nil (punctLen_pos h)
    have hall : ∀ y ∈ (x :: t).take (punctLen (x :: t)), y.isPunct = true ∨ y.isNewline = true := by
      intro y hy
      rw [punctLen, List.take_add, ← takeWhile_eq_take, ← takeWhile_eq_take] at hy
      rcases List.mem_append.1 hy with hy | hy
      · exact Or.inl (List.mem_takeWhile_imp hy)
      · exact Or.inr (List.mem_takeWhile_imp hy)
    refine ⟨hne, lastIs_all hne fun y hy => ?_, lastIs_all hne fun y hy => ?_⟩
    · rcases hall y hy with hy | hy
      · exact openWhite_of_not_white (punct_only hy).2.2.2.2.1
      · rw [openWhite, hy]
        simp
    · rcases hall y hy with hy | hy
      · exact (punct_only hy).2.2.2.1
      · exact (white_only (newline_white hy)).2.2.2

theorem step_punct (hc : c.isPunct = true) (ha : headIs isAlpha s = false) :
    StepAgrees (c :: s) := by
  obtain ⟨hn, hj, -, hl, -, -, hb⟩ := punct_only hc
  have hk (letter : TextChar → Bool) (hlet : letter c = false) :
      charPiece letter (c :: s) = punctLen (c :: s) := by
    rw [charPiece, hn, hj, ha, hlet, hc, hb]
    simp
  have hplain : plainLetter c = false := by rw [plainLetter, hl]; rfl
  apply stepAgrees_closed (hk _ hl) (hk _ hplain)
  obtain ⟨-, hw, hlast⟩ := punctLen_closed (t := c :: s) hc
  rw [joins, openPiece_false hw hlast, Bool.false_and]

theorem step_letter (hc : c.isLetter = true) (hj : c.isCjk = false) : StepAgrees (c :: s) := by
  obtain ⟨hn, hp, -⟩ := letter_only hc
  have hplain : plainLetter c = true := by rw [plainLetter, hc, hj]; rfl
  have hk (letter : TextChar → Bool) (hlet : letter c = true) :
      charPiece letter (c :: s) = runLen letter (c :: s) := by
    rw [charPiece, hn, hj, hp, hlet]
    simp
  have hopen : openPiece ((c :: s).take (runLen plainLetter (c :: s))) = true := by
    have hne : (c :: s).take (runLen plainLetter (c :: s)) ≠ [] :=
      take_ne_nil (runLen_pos hplain)
    have hletter : lastIs isLetter ((c :: s).take (runLen plainLetter (c :: s))) = true := by
      apply lastIs_all hne
      intro x hx
      rw [← takeWhile_eq_take] at hx
      have h := List.mem_takeWhile_imp hx
      rw [plainLetter, Bool.and_eq_true] at h
      exact h.1
    have hhead : headIs isPunct ((c :: s).take (runLen plainLetter (c :: s))) = false := by
      rw [runLen_cons, if_pos hplain, List.take_succ_cons]
      exact hp
    rw [openPiece, hletter, hhead]
    simp
  rw [StepAgrees, hk _ hc, hk _ hplain, joins, hopen, Bool.true_and]
  exact runLen_letter_iff (c :: s)

/-- Whitespace before a letter: the letters may run on into a CJK run. -/
theorem step_lead (hc : c.isWhite = true) (hn : c.isNewline = false)
    (hs : headIs plainLetter s = true) : StepAgrees (c :: s) := by
  obtain ⟨hnum, hj, hp, hl⟩ := white_only hc
  have hplain : plainLetter c = false := by rw [plainLetter, hl]; rfl
  have hletter : headIs isLetter s = true := by
    by_contra h
    rw [Bool.not_eq_true] at h
    have hmono := headIs_mono (p := plainLetter) (q := isLetter)
      (fun x hx => by rw [plainLetter, Bool.and_eq_true] at hx; exact hx.1) h
    rw [hmono] at hs
    cases hs
  have hk (letter : TextChar → Bool) (hlet : letter c = false) (hhead : headIs letter s = true) :
      charPiece letter (c :: s) = runLen letter s + 1 := by
    rw [charPiece, hnum, hj, hp, hlet, hn, hhead]
    simp [Nat.add_comm]
  have hne : s.take (runLen plainLetter s) ≠ [] := by
    cases s with
    | nil => cases hs
    | cons d s => exact take_ne_nil (runLen_pos hs)
  have hopen : openPiece (c :: s.take (runLen plainLetter s)) = true := by
    have hlast : lastIs isLetter (s.take (runLen plainLetter s)) = true := by
      apply lastIs_all hne
      intro x hx
      rw [← takeWhile_eq_take] at hx
      have h := List.mem_takeWhile_imp hx
      rw [plainLetter, Bool.and_eq_true] at h
      exact h.1
    rw [openPiece, lastIs_cons hne, lastIs_cons hne, hlast, headIs_cons, hp]
    simp
  rw [StepAgrees, hk _ hl hletter, hk _ hplain hs, joins, List.take_succ_cons, List.drop_succ_cons,
    hopen, Bool.true_and, ← runLen_letter_iff s]
  omega

/-- One whitespace character on the line before a CJK run: the scanner joins them. -/
theorem step_leadCjk (hc : c.isWhite = true) (hn : c.isNewline = false)
    (hs : headIs isCjk s = true) : StepAgrees (c :: s) := by
  obtain ⟨hnum, hj, hp, hl⟩ := white_only hc
  obtain ⟨x, t, rfl⟩ : ∃ x t, s = x :: t := by
    cases s with
    | nil => cases hs
    | cons x t => exact ⟨x, t, rfl⟩
  rw [headIs_cons] at hs
  have hx := cjk_letter hs
  obtain ⟨-, hxp, hxw, -, -⟩ := letter_only hx
  have hplainC : plainLetter c = false := by rw [plainLetter, hl]; rfl
  have hplainX : plainLetter x = false := by rw [plainLetter, hs]; simp
  have hS : charPiece isLetter (c :: x :: t) = 1 + runLen isLetter (x :: t) := by
    rw [charPiece, hnum, hj, hp, hl, hn, headIs_cons, headIs_cons, hx]
    simp
  have hlast : lastEnd isWhite isNewline (c :: x :: t) = 0 := by
    rw [lastEnd, lastEnd, hxw, hn]
    simp
  have hrun : runLen isWhite (c :: x :: t) = 1 := by
    rw [runLen_cons, runLen_cons, hxw, hc]
    rfl
  have hD : charPiece plainLetter (c :: x :: t) = 1 := by
    rw [charPiece, hnum, hj, hp, hplainC, headIs_cons, headIs_cons, headIs_cons, hplainX, hxp,
      whiteLen, hlast, hrun]
    simp
  have hpos := runLen_pos (s := t) hx
  rw [StepAgrees, hS, hD]
  apply iff_of_true
  · omega
  · simp [joins, openPiece, lastIs, openWhite, hc, hn, hs]

theorem step_blank (hc : c.isWhite = true) (hb : c.isBlank = true) (hs : headIs isPunct s = true) :
    StepAgrees (c :: s) := by
  obtain ⟨hnum, hj, hp, hl⟩ := white_only hc
  have hplain : plainLetter c = false := by rw [plainLetter, hl]; rfl
  have hnone (letter : TextChar → Bool) (h : ∀ x, letter x = true → x.isLetter = true) :
      headIs letter s = false := by
    cases s with
    | nil => rfl
    | cons x t =>
      rw [headIs_cons] at hs ⊢
      by_contra hx
      rw [Bool.not_eq_false] at hx
      have hletter := h x hx
      rw [(punct_only hs).2.2.2.1] at hletter
      cases hletter
  have hk (letter : TextChar → Bool) (hlet : letter c = false) (hhead : headIs letter s = false) :
      charPiece letter (c :: s) = punctLen s + 1 := by
    rw [charPiece, hnum, hj, hp, hlet, hhead, hb, hs]
    simp [Nat.add_comm]
  obtain ⟨hne, hw, hlast⟩ := punctLen_closed hs
  apply stepAgrees_closed (hk _ hl (hnone _ fun _ h => h))
    (hk _ hplain (hnone _ fun x h => by rw [plainLetter, Bool.and_eq_true] at h; exact h.1))
  rw [joins, List.take_succ_cons, openPiece_false, Bool.false_and]
  · rw [lastIs_cons hne, hw]
  · rw [lastIs_cons hne, hlast]

/-- Inside the whitespace run at the head every character is whitespace. -/
theorem headIs_white_drop {k : ℕ} (hk : k < runLen isWhite s) :
    headIs isWhite (s.drop k) = true := by
  induction s generalizing k with
  | nil => cases hk
  | cons x s ih =>
    rw [runLen_cons] at hk
    by_cases hx : x.isWhite = true
    · rw [if_pos hx] at hk
      cases k with
      | zero => exact hx
      | succ k => exact ih (Nat.lt_of_succ_lt_succ hk)
    · rw [if_neg hx] at hk
      cases hk

theorem white_not_cjk {b : Text} (h : headIs isWhite b = true) : headIs isCjk b = false := by
  cases b with
  | nil => cases h
  | cons x b => exact (white_only h).2.1

/-- Whitespace that stays behind the last newline of its run. -/
theorem white_newline (hl : lastEnd isWhite isNewline (c :: s) ≠ 0) :
    openPiece ((c :: s).take (lastEnd isWhite isNewline (c :: s))) = false := by
  have hne : (c :: s).take (lastEnd isWhite isNewline (c :: s)) ≠ [] :=
    take_ne_nil (Nat.pos_of_ne_zero hl)
  have hlast := lastIs_lastEnd hl
  rw [lastIs, List.getLast?_eq_some_getLast hne, Option.any_some] at hlast
  apply openPiece_false
  · rw [lastIs, List.getLast?_eq_some_getLast hne, Option.any_some, openWhite, hlast]
    simp
  · rw [lastIs, List.getLast?_eq_some_getLast hne]
    exact (white_only (newline_white hlast)).2.2.2

/-- A whitespace run without a newline is open. -/
theorem white_open (hc : c.isWhite = true) (hl : lastEnd isWhite isNewline (c :: s) = 0) :
    openPiece ((c :: s).take (runLen isWhite (c :: s))) = true := by
  have hlast : lastIs openWhite ((c :: s).take (runLen isWhite (c :: s))) = true := by
    apply lastIs_all (take_ne_nil (runLen_pos hc))
    intro x hx
    have hnewline := lastEnd_eq_zero hl x hx
    rw [← takeWhile_eq_take] at hx
    rw [openWhite, List.mem_takeWhile_imp hx, hnewline]
    rfl
  rw [openPiece, hlast]
  rfl

/-- A whitespace run in front of a CJK run, with no piece of its own, is longer than one. -/
theorem white_two (hl : lastEnd isWhite isNewline (c :: s) = 0) (hc : c.isWhite = true)
    (hlead : c.isNewline = true ∨ headIs isLetter s = false)
    (hcjk : headIs isCjk ((c :: s).drop (runLen isWhite (c :: s))) = true) :
    1 < runLen isWhite (c :: s) := by
  rw [runLen_cons, if_pos hc] at hcjk ⊢
  by_contra h
  have hzero : runLen isWhite s = 0 := by omega
  rw [hzero, List.drop_succ_cons, List.drop_zero] at hcjk
  rcases hlead with hn | hs
  · have hhead := headIs_of_lastEnd (fun _ => newline_white) hl
    rw [headIs_cons, hn] at hhead
    cases hhead
  · rw [headIs_mono (fun _ => cjk_letter) hs] at hcjk
    cases hcjk

theorem behind_cjk {b : Text} (h : headIs isCjk b = true) :
    headIs (fun x => isLetter x || x.isPunct) b = true ∧
      headIs (fun x => plainLetter x || x.isPunct) b = false := by
  cases b with
  | nil => cases h
  | cons x b =>
    rw [headIs_cons] at h
    have hx := cjk_letter h
    rw [headIs_cons, headIs_cons, hx, plainLetter, h, (letter_only hx).2.1]
    simp

theorem behind_plain {b : Text} (h : headIs isCjk b = false) :
    headIs (fun x => plainLetter x || x.isPunct) b =
      headIs (fun x => isLetter x || x.isPunct) b := by
  cases b with
  | nil => rfl
  | cons x b =>
    rw [headIs_cons] at h
    rw [headIs_cons, headIs_cons, plainLetter, h]
    simp

/-- A whitespace run that no other piece starts with. -/
theorem step_white (hc : c.isWhite = true) (hlead : c.isNewline = true ∨ headIs isLetter s = false)
    (hblank : ¬(c.isBlank = true ∧ headIs isPunct s = true)) : StepAgrees (c :: s) := by
  obtain ⟨hnum, hj, hp, hl⟩ := white_only hc
  have hplain : plainLetter c = false := by rw [plainLetter, hl]; rfl
  have hk (letter : TextChar → Bool) (hlet : letter c = false)
      (hhead : c.isNewline = true ∨ headIs letter s = false) :
      charPiece letter (c :: s) = whiteLen letter (c :: s) := by
    have hlead' : ¬((!c.isNewline) = true ∧ headIs letter s = true) := by
      rintro ⟨hn, hs⟩
      rcases hhead with h | h
      · rw [h] at hn
        cases hn
      · rw [h] at hs
        cases hs
    rw [charPiece, hnum, hj, hp, hlet, if_neg hblank]
    simpa using fun hn hs => absurd ⟨by simpa using hn, hs⟩ hlead'
  have hS := hk isLetter hl hlead
  have hD := hk plainLetter hplain (hlead.imp_right fun h =>
    headIs_mono (fun x hx => by rw [plainLetter, Bool.and_eq_true] at hx; exact hx.1) h)
  by_cases hlast : lastEnd isWhite isNewline (c :: s) ≠ 0
  · have hlen (letter : TextChar → Bool) :
        whiteLen letter (c :: s) = lastEnd isWhite isNewline (c :: s) := by
      rw [whiteLen, if_pos hlast]
    apply stepAgrees_closed (hS.trans (hlen _)) (hD.trans (hlen _))
    rw [joins, white_newline hlast, Bool.false_and]
  rw [not_not] at hlast
  have hlen (letter : TextChar → Bool) {b : Bool}
      (hb : headIs (fun x => letter x || x.isPunct)
        ((c :: s).drop (runLen isWhite (c :: s))) = b) :
      whiteLen letter (c :: s) =
        if 1 < runLen isWhite (c :: s) ∧ b = true then runLen isWhite (c :: s) - 1
        else runLen isWhite (c :: s) := by
    rw [whiteLen, if_neg (not_not.2 hlast), hb]
  cases hcjk : headIs isCjk ((c :: s).drop (runLen isWhite (c :: s))) with
  | true =>
    have hrun : 1 < runLen isWhite (c :: s) := white_two hlast hc hlead hcjk
    obtain ⟨hletters, hplains⟩ := behind_cjk hcjk
    rw [StepAgrees, hS, hD, hlen _ hletters, hlen _ hplains, if_pos ⟨hrun, rfl⟩,
      if_neg fun h => Bool.false_ne_true h.2, joins, white_open hc hlast, hcjk]
    exact iff_of_true (by omega) rfl
  | false =>
    have hsame := behind_plain hcjk
    by_cases hcut : 1 < runLen isWhite (c :: s) ∧ headIs (fun x => isLetter x || x.isPunct)
        ((c :: s).drop (runLen isWhite (c :: s))) = true
    · apply stepAgrees_closed (hS.trans ((hlen _ rfl).trans (if_pos hcut)))
        (hD.trans ((hlen _ hsame).trans (if_pos hcut)))
      rw [joins, white_not_cjk (headIs_white_drop (by omega)), Bool.and_false]
    · apply stepAgrees_closed (hS.trans ((hlen _ rfl).trans (if_neg hcut)))
        (hD.trans ((hlen _ hsame).trans (if_neg hcut)))
      rw [joins, hcjk, Bool.and_false]

/-- The two scans part at no other place. -/
theorem stepAgrees (c : TextChar) (s : Text) : StepAgrees (c :: s) := by
  rcases class_cases c with hc | hc | hc | hc
  · exact step_number hc
  · cases hj : c.isCjk with
    | true => exact step_cjk hj
    | false => exact step_letter hc hj
  · cases ha : headIs isAlpha s with
    | true => exact step_punctLetters hc ha
    | false => exact step_punct hc ha
  · by_cases hblank : c.isBlank = true ∧ headIs isPunct s = true
    · exact step_blank hc hblank.1 hblank.2
    cases hn : c.isNewline with
    | true => exact step_white hc (Or.inl hn) hblank
    | false =>
      cases hj : headIs isCjk s with
      | true => exact step_leadCjk hc hn hj
      | false =>
        cases hs : headIs plainLetter s with
        | true => exact step_lead hc hn hs
        | false =>
          have hletter : headIs isLetter s = false := (headIs_letter_cjk hs).trans hj
          exact step_white hc (Or.inr hletter) hblank

end Step

theorem encode_take_lt {s : Text} {i j : ℕ} (hij : i < j) (hj : j ≤ s.length) :
    (encode (s.take i)).length < (encode (s.take j)).length := by
  obtain ⟨d, rfl⟩ : ∃ d, j = i + d := ⟨j - i, by omega⟩
  have hlen := length_le_encode ((s.drop i).take d)
  rw [List.length_take, List.length_drop] at hlen
  rw [List.take_add, encode_append, List.length_append]
  omega

/-- The first piece of a text is known by its bytes. -/
theorem encode_take_inj {s : Text} {i j : ℕ} (hi : i ≤ s.length) (hj : j ≤ s.length)
    (h : encode (s.take i) = encode (s.take j)) : i = j := by
  have hlen := congrArg List.length h
  rcases Nat.lt_trichotomy i j with hij | hij | hij
  · have hlt := encode_take_lt hij hj
    omega
  · exact hij
  · have hlt := encode_take_lt hij hi
    omega

/-- The next piece starts as the rest of the text does. -/
theorem headIs_cut {len : Text → ℕ} (hpos : ∀ c s, 0 < len (c :: s)) (p : TextChar → Bool)
    (s : Text) : (cut len s).head?.any (headIs p) = headIs p s := by
  cases s with
  | nil => rfl
  | cons c s =>
    obtain ⟨k, hk⟩ : ∃ k, len (c :: s) = k + 1 := ⟨len (c :: s) - 1, by have := hpos c s; omega⟩
    rw [cut_cons hpos, List.head?_cons, hk, List.take_succ_cons]
    rfl

theorem joins_cut (a s : Text) :
    (∀ b ∈ (cut (charPiece plainLetter) s).head?, joins a b = false) ↔ joins a s = false := by
  have hhead := headIs_cut (charPiece_pos plainLetter_class) isCjk s
  cases hcut : (cut (charPiece plainLetter) s).head? with
  | none =>
    rw [hcut] at hhead
    rw [joins, ← hhead]
    simp
  | some b =>
    rw [hcut, Option.any_some] at hhead
    rw [joins, ← hhead]
    simp [joins]

/-- The two scans give the same pieces exactly where no CJK run is joined. -/
theorem cut_agree (n : ℕ) : ∀ s : Text, s.length ≤ n →
    ((cut (charPiece isLetter) s).map encode = (cut (charPiece plainLetter) s).map encode ↔
      CjkApart (cut (charPiece plainLetter) s)) := by
  induction n with
  | zero =>
    intro s hs
    rw [List.length_eq_zero_iff.1 (Nat.le_zero.1 hs)]
    exact iff_of_true rfl List.isChain_nil
  | succ n ih =>
    intro s hs
    cases s with
    | nil => exact iff_of_true rfl List.isChain_nil
    | cons c s =>
      have hstep := stepAgrees c s
      have hpos := charPiece_pos plainLetter_class c s
      rw [cut_cons (charPiece_pos isLetter_class), cut_cons (charPiece_pos plainLetter_class),
        List.map_cons, List.map_cons, CjkApart, List.isChain_cons, joins_cut]
      by_cases hk : charPiece isLetter (c :: s) = charPiece plainLetter (c :: s)
      · have hfree : joins ((c :: s).take (charPiece plainLetter (c :: s)))
            ((c :: s).drop (charPiece plainLetter (c :: s))) = false := by
          rw [← Bool.not_eq_true]
          exact fun h => hstep.2 h hk
        have hrest := ih ((c :: s).drop (charPiece plainLetter (c :: s))) (by
          rw [List.length_drop, List.length_cons]
          rw [List.length_cons] at hs
          omega)
        rw [hk, List.cons_inj_right, hrest]
        exact (and_iff_right hfree).symm
      · apply iff_of_false
        · intro h
          exact hk (encode_take_inj (charPiece_le _ _) (charPiece_le _ _) (List.cons.inj h).1)
        · intro h
          rw [hstep.1 hk] at h
          cases h.1

/-- The scanner cuts a text as documented exactly where, in the documented split, no CJK run
comes right behind an open piece. -/
theorem textPieces_documented (s : Text) :
    textPieces (encode s) = (documentedSplit s).map encode ↔ CjkApart (documentedSplit s) := by
  rw [textPieces_encode s.length s le_rfl, documentedSplit_cut s.length s le_rfl]
  exact cut_agree s.length s le_rfl

/-- The hiragana letter あ. -/
def hiraganaA : TextChar := ⟨0x3042, by decide⟩

def letterA : TextChar := ⟨97, by decide⟩

/-- A letter and a kana letter stay one piece. -/
theorem letterKana_joined :
    textPieces (encode [letterA, hiraganaA]) ≠
      (documentedSplit [letterA, hiraganaA]).map encode := by
  decide

end Ds4.Tokenizer
