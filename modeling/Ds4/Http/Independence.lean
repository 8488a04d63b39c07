import Ds4.Http.Splits

/-! The streams that are read alike however they are split: those without an acceptable
request, and those whose header's end no later byte can move. -/
namespace Ds4.Http

/-- A blank line ends behind the first `e` bytes, in LF or in CRLF. -/
def Blank (s : Bytes) (e : ℕ) : Prop := EndsAt [10, 10] s e ∨ EndsAt [10, 13, 10] s e

def FirstBlank (s : Bytes) (e : ℕ) : Prop := Blank s e ∧ ∀ k < e, ¬ Blank s k

/-- All splits of the stream give one result, and an accepted request has the header up to the
first blank line and as many bytes behind it as that header says. -/
structure Independent (s : Bytes) : Prop where
  same : ∀ calls calls', readHttpRequest ⟨s, calls⟩ = readHttpRequest ⟨s, calls'⟩
  exact : ∀ calls header req, readHttpRequest ⟨s, calls⟩ = some (header, req) →
    ∃ e, FirstBlank s e ∧ header = s.take e ∧
      req.body = (s.drop e).take (contentLength header e).toNat ∧
      (req.body.length : ℤ) = contentLength header e

/-- A request with `k` bytes in the buffer when its header is found: a request line, a length
in range, and a body that the client sends. -/
def Acceptable (s : Bytes) (k : ℕ) : Prop :=
  (methodAndPath s).isSome = true ∧ ∃ hend, headerEnd (s.take k) = some hend ∧
    0 ≤ contentLength (s.take k) hend ∧ (contentLength (s.take k) hend).toNat ≤ maxBody ∧
    hend + (contentLength (s.take k) hend).toNat ≤ s.length

/-- The header ends at `e`, and no bytes that can arrive with it say otherwise. -/
structure OneEnd (s : Bytes) (e : ℕ) : Prop where
  blank : FirstBlank s e
  known : EndsAt [10, 10] s e ∨ EndsAt [13, 10, 13, 10] s e
  short : e ≤ maxHeader
  later : EndsAt [13, 10, 13, 10] s e ∨
    ∀ k, e < k → k < e + 4096 → ¬ EndsAt [13, 10, 13, 10] s k
  length : ∀ k, e ≤ k → k < e + 4096 → k ≤ s.length →
    contentLength (s.take k) e = contentLength (s.take e) e

section Ends
variable {s : Bytes} {e k : ℕ}

theorem EndsAt.blank (h : EndsAt [13, 10, 13, 10] s e) : Blank s e :=
  Or.inr ⟨h.1, (List.suffix_cons _ _).trans h.2⟩

/-- A buffer with a header's end holds a blank line. -/
theorem exists_blank (h : headerEnd (s.take k) ≠ none) : ∃ e ≤ k, Blank s e ∧
    (EndsAt [10, 10] s e ∨ EndsAt [13, 10, 13, 10] s e) := by
  by_contra hnot
  push Not at hnot
  refine h (headerEnd_none.mpr fun e => ⟨fun hends => ?_, fun hends => ?_⟩)
  · obtain ⟨hle, hends⟩ := endsAt_take.mp hends
    exact (hnot e hle hends.blank).2 hends
  · obtain ⟨hle, hends⟩ := endsAt_take.mp hends
    exact (hnot e hle (Or.inl hends)).1 hends

theorem headerEnd_of_endsAt (h : EndsAt [10, 10] s e ∨ EndsAt [13, 10, 13, 10] s e)
    (hk : e ≤ k) : headerEnd (s.take k) ≠ none := by
  intro hnone
  have hfree := headerEnd_none.mp hnone e
  rcases h with h | h
  · exact hfree.2 (endsAt_take.mpr ⟨hk, h⟩)
  · exact hfree.1 (endsAt_take.mpr ⟨hk, h⟩)

/-- What the loop takes for the header's end is one. -/
theorem endsAt_headerEnd (h : headerEnd (s.take k) = some e) :
    EndsAt [10, 10] s e ∨ EndsAt [13, 10, 13, 10] s e := by
  rcases headerEnd_some h with ⟨hends, -⟩ | ⟨-, hends, -⟩
  · exact Or.inr (endsAt_take.mp hends).2
  · exact Or.inl (endsAt_take.mp hends).2

theorem OneEnd.near (h : OneEnd s e) (hk : CanStop s k) : e ≤ k ∧ k < e + 4096 := by
  obtain ⟨-, hfound, j, hjk, -, hcap, hnone⟩ := hk
  obtain ⟨e', he', hblank, -⟩ := exists_blank hfound
  have hle : e ≤ e' := not_lt.mp fun hlt => h.blank.2 e' hlt hblank
  have hj : j < e := not_le.mp fun hej => headerEnd_of_endsAt h.known hej hnone
  omega

/-- At every stop the loop takes the same header. -/
theorem OneEnd.headerEnd_eq (h : OneEnd s e) (hk : e ≤ k) (hlt : k < e + 4096) :
    headerEnd (s.take k) = some e := by
  have hfirst : ∀ pat, (∀ j, EndsAt pat s j → Blank s j) → ∀ j < e, ¬ EndsAt pat (s.take k) j :=
    fun pat hpat j hj hends => h.blank.2 j hj (hpat j (endsAt_take.mp hends).2)
  by_cases hcr : EndsAt [13, 10, 13, 10] s e
  · exact headerEnd_crlf (endsAt_take.mpr ⟨hk, hcr⟩) (hfirst _ fun _ => EndsAt.blank)
  · have hlf := h.known.resolve_right hcr
    have hlater := h.later.resolve_left hcr
    refine headerEnd_lf (fun j hends => ?_) (endsAt_take.mpr ⟨hk, hlf⟩)
      (hfirst _ fun _ => Or.inl)
    obtain ⟨hjk, hends⟩ := endsAt_take.mp hends
    rcases lt_trichotomy j e with hj | rfl | hj
    · exact h.blank.2 j hj hends.blank
    · exact hcr hends
    · exact hlater j hj (by omega) hends

end Ends

section Outcome
variable {s : Bytes} {k : ℕ}

theorem outcome_some {header : Bytes} {req : HttpRequest} (h : outcome s k = some (header, req)) :
    ∃ hend, headerEnd (s.take k) = some hend ∧ header = s.take hend ∧ hend ≤ s.length ∧
      req.body = (s.drop hend).take (contentLength (s.take k) hend).toNat ∧
      (req.body.length : ℤ) = contentLength (s.take k) hend ∧ Acceptable s k := by
  unfold outcome at h
  cases hh : headerEnd (s.take k) with
  | none => simp [hh] at h
  | some hend =>
    cases hm : methodAndPath s with
    | none => simp [hh, hm] at h
    | some line =>
      rw [hh, hm] at h
      dsimp only at h
      by_cases hbad : contentLength (s.take k) hend < 0 ∨
          maxBody < (contentLength (s.take k) hend).toNat ∨
          s.length < hend + (contentLength (s.take k) hend).toNat
      · rw [if_pos hbad] at h
        cases h
      · rw [if_neg hbad] at h
        push Not at hbad
        obtain ⟨rfl, rfl⟩ := Prod.mk.inj (Option.some.inj h)
        refine ⟨hend, rfl, rfl, by omega, rfl, ?_, by rw [hm]; rfl, hend, hh, hbad⟩
        dsimp only
        rw [List.length_take, List.length_drop]
        omega

theorem outcome_of_acceptable (h : Acceptable s k) : ∃ hend method path,
    headerEnd (s.take k) = some hend ∧ outcome s k = some (s.take hend, ⟨method, path,
      (s.drop hend).take (contentLength (s.take k) hend).toNat⟩) := by
  obtain ⟨hline, hend, hh, hpos, hmax, hlen⟩ := h
  obtain ⟨⟨method, path⟩, hm⟩ := Option.isSome_iff_exists.mp hline
  refine ⟨hend, method, path, hh, ?_⟩
  unfold outcome
  rw [hh, hm]
  dsimp only
  rw [if_neg (by omega)]

theorem outcome_none (h : ¬ Acceptable s k) : outcome s k = none := by
  cases ho : outcome s k with
  | none => rfl
  | some r => exact absurd (outcome_some ho).choose_spec.2.2.2.2.2 h

/-- At every stop of such a stream the outcome is the one at the header's end. -/
theorem OneEnd.outcome_eq {e : ℕ} (h : OneEnd s e) (hk : CanStop s k) :
    outcome s k = outcome s e := by
  obtain ⟨hle, hlt⟩ := h.near hk
  unfold outcome
  rw [h.headerEnd_eq hle hlt, h.headerEnd_eq (le_refl _) (by omega)]
  cases methodAndPath s with
  | none => rfl
  | some line =>
    dsimp only
    rw [h.length k hle hlt hk.1]

end Outcome

section Independence
variable {s : Bytes} {k e : ℕ}

theorem independent_of_unacceptable (h : ∀ k, CanStop s k → ¬ Acceptable s k) :
    Independent s := by
  have hnone : ∀ calls, readHttpRequest ⟨s, calls⟩ = none := by
    intro calls
    rcases readHttpRequest_cases s calls with ⟨k, hstop, heq⟩ | ⟨heq, -⟩
    · rw [heq, outcome_none (h k hstop)]
    · exact heq
  refine ⟨fun calls calls' => (hnone calls).trans (hnone calls').symm, ?_⟩
  intro calls header req hread
  rw [hnone] at hread
  cases hread

/-- No split misses a header that is within the limit. -/
theorem OneEnd.read_eq (h : OneEnd s e) (calls : List (Option ℕ)) :
    readHttpRequest ⟨s, calls⟩ = outcome s e := by
  rcases readHttpRequest_cases s calls with ⟨k, hstop, heq⟩ | ⟨-, hmiss⟩
  · exact heq.trans (h.outcome_eq hstop)
  · have hlen : e ≤ s.length := by
      rcases h.known with hends | hends
      · exact hends.1
      · exact hends.1
    rcases hmiss with hmiss | ⟨-, hmiss⟩
    · refine absurd ?_ (headerEnd_of_endsAt h.known hlen)
      rwa [List.take_length]
    · exact absurd hmiss (headerEnd_of_endsAt h.known h.short)

theorem OneEnd.independent (h : OneEnd s e) : Independent s := by
  refine ⟨fun calls calls' => (h.read_eq calls).trans (h.read_eq calls').symm, ?_⟩
  intro calls header req hread
  obtain ⟨hend, hh, rfl, -, hbody, hlen, -⟩ := outcome_some ((h.read_eq calls).symm.trans hread)
  obtain rfl : e = hend :=
    Option.some.inj ((h.headerEnd_eq (le_refl _) (by omega)).symm.trans hh)
  exact ⟨e, h.blank, rfl, hbody, hlen⟩

theorem take_inj {i j : ℕ} (hi : i ≤ s.length) (hj : j ≤ s.length) (h : s.take i = s.take j) :
    i = j := by
  have hlen := congrArg List.length h
  rwa [List.length_take_of_le hi, List.length_take_of_le hj] at hlen

theorem FirstBlank.pos (h : FirstBlank s e) : 0 < e := by
  rcases h.1 with hends | hends
  · obtain ⟨i, rfl, -⟩ := endsAt_iff.mp hends
    exact Nat.succ_pos _
  · obtain ⟨i, rfl, -⟩ := endsAt_iff.mp hends
    exact Nat.succ_pos _

theorem FirstBlank.le (h : FirstBlank s e) : e ≤ s.length := by
  rcases h.1 with hends | hends
  · exact hends.1
  · exact hends.1

theorem FirstBlank.headerEnd_before (h : FirstBlank s e) (hk : k < e) :
    headerEnd (s.take k) = none := by
  by_contra hfound
  obtain ⟨e', he', hblank, -⟩ := exists_blank hfound
  exact h.2 e' (by omega) hblank

/-- The loop can stop at every buffer of up to 4095 bytes more than the header. -/
theorem FirstBlank.canStop (h : FirstBlank s e)
    (hknown : EndsAt [10, 10] s e ∨ EndsAt [13, 10, 13, 10] s e) (hshort : e ≤ maxHeader)
    (hk : e ≤ k) (hlt : k < e + 4096) (hlen : k ≤ s.length) : CanStop s k := by
  have hpos := h.pos
  refine ⟨hlen, headerEnd_of_endsAt hknown hk, e - 1, by omega, by omega, by omega, ?_⟩
  exact h.headerEnd_before (by omega)

/-- Where one stop gives an acceptable request, all stops take the same header and number. -/
theorem Independent.oneEnd (h : Independent s) (hstop : CanStop s k) (hok : Acceptable s k) :
    ∃ e, OneEnd s e := by
  obtain ⟨hend, method, path, hk, houtcome⟩ := outcome_of_acceptable hok
  obtain ⟨calls, hread⟩ := exists_stop hstop
  rw [houtcome] at hread
  generalize HttpRequest.mk _ _ _ = req at hread
  have hknown := endsAt_headerEnd hk
  obtain ⟨e, hblank, hheader, -⟩ := h.exact calls _ _ hread
  obtain rfl : hend = e := take_inj (hknown.elim (·.1) (·.1)) hblank.le hheader
  -- every stop gives the one result there is
  have hall : ∀ k', CanStop s k' → headerEnd (s.take k') = some hend ∧
      contentLength (s.take k') hend = req.body.length := by
    intro k' hstop'
    obtain ⟨calls', hread'⟩ := exists_stop hstop'
    rw [h.same calls' calls, hread] at hread'
    obtain ⟨hend', hh, hsame, hle, -, hlen, -⟩ := outcome_some hread'.symm
    obtain rfl := take_inj hblank.le hle hsame
    exact ⟨hh, hlen.symm⟩
  have hshort : hend ≤ maxHeader := by
    by_contra hlong
    have hlimit : maxHeader < hend := not_le.mp hlong
    obtain ⟨calls', hread'⟩ := exists_give_up (hlimit.le.trans hblank.le)
      (hblank.headerEnd_before hlimit)
    rw [h.same calls' calls, hread] at hread'
    cases hread'
  have hcan : ∀ k', hend ≤ k' → k' < hend + 4096 → k' ≤ s.length → CanStop s k' :=
    fun k' => hblank.canStop hknown hshort
  refine ⟨hend, hblank, hknown, hshort, ?_, fun k' hle hlt hlen => ?_⟩
  · by_cases hcr : EndsAt [13, 10, 13, 10] s hend
    · exact Or.inl hcr
    · refine Or.inr fun k' hlt hlt' hends => ?_
      have hh := (hall k' (hcan k' hlt.le hlt' hends.1)).1
      rcases headerEnd_some hh with ⟨hends', -⟩ | ⟨hnone, -⟩
      · exact hcr (endsAt_take.mp hends').2
      · exact hnone k' (endsAt_take.mpr ⟨le_refl _, hends⟩)
  · rw [(hall k' (hcan k' hle hlt hlen)).2,
      (hall hend (hcan hend (le_refl _) (by omega) hblank.le)).2]

end Independence

/-- The result of a request does not depend on how its bytes are split, and follows the first
blank line, exactly where no possible stop gives an acceptable request, or where the header
ends within the limit and the bytes that can arrive with its end do not move it. -/
theorem independent_iff (s : Bytes) :
    Independent s ↔ (∀ k, CanStop s k → ¬ Acceptable s k) ∨ ∃ e, OneEnd s e := by
  constructor
  · intro h
    by_cases hall : ∀ k, CanStop s k → ¬ Acceptable s k
    · exact Or.inl hall
    · push Not at hall
      obtain ⟨k, hstop, hok⟩ := hall
      exact Or.inr (h.oneEnd hstop hok)
  · rintro (h | ⟨e, h⟩)
    · exact independent_of_unacceptable h
    · exact h.independent

/-- A request with LF lines whose body has a blank line in CRLF. -/
def mixedLines : Bytes := lit "POST /v1/x HTTP/1.1\nContent-Length: 7\n\na\r\n\r\nbc"

/-- All at once, the blank line of the body ends the header and the body is too short; byte by
byte at the header's end, the request is read. -/
theorem mixedLines_splits : ¬ Independent mixedLines := by
  intro h
  have hread : ∀ k, CanStop mixedLines k → outcome mixedLines k = outcome mixedLines 39 := by
    intro k hstop
    obtain ⟨calls, hk⟩ := exists_stop hstop
    obtain ⟨calls', hfirst⟩ := exists_stop (s := mixedLines) (k := 39)
      ⟨by decide, by decide, 38, by decide, by decide, by decide, by decide⟩
    rw [← hk, ← hfirst, h.same calls calls']
  have hall := hread 46 ⟨by decide, by decide, 38, by decide, by decide, by decide, by decide⟩
  have hnone : (outcome mixedLines 46).isSome = false := by decide
  have hsome : (outcome mixedLines 39).isSome = true := by decide
  rw [hall, hsome] at hnone
  cases hnone

end Ds4.Http
