import Ds4.Stream.Stops

/-! Runs of a streamed completion: what was sent is the text, and the text ends before the first
stop in it. -/
namespace Ds4.Stream
open Ds4.Search

section Lengths
variable {stops : StopList} {s : Bytes} {start limit : ℕ}

theorem le_foldl_max (ns : List ℕ) : ∀ n, n ≤ ns.foldl max n ∧ ∀ x ∈ ns, x ≤ ns.foldl max n := by
  induction ns with
  | nil => exact fun n => ⟨le_refl n, by simp⟩
  | cons a ns ih =>
    intro n
    obtain ⟨hstart, hall⟩ := ih (max n a)
    refine ⟨(le_max_left n a).trans hstart, ?_⟩
    intro x hx
    rcases List.mem_cons.1 hx with rfl | hx
    · exact (le_max_right n x).trans hstart
    · exact hall x hx

theorem length_le_maxLen (stops : StopList) : ∀ p ∈ stops.v, p.length ≤ stops.maxLen := by
  intro p hp
  rw [stops.maxLen_eq]
  exact (le_foldl_max _ 0).2 p.length (List.mem_map_of_mem hp)

theorem streamSafeLen_eq (stops : StopList) (n : ℕ) :
    stops.streamSafeLen n = n - (stops.maxLen - 1) := by
  unfold StopList.streamSafeLen
  simp only
  split_ifs with hnone hlt
  · have hmax : stops.maxLen ≤ 1 := by
      rcases hnone with hv | hle
      · rw [stops.maxLen_eq, hv]
        exact Nat.zero_le 1
      · exact hle
    omega
  · rfl
  · omega

theorem skipContinuation_spec (s : Bytes) (start rounds : ℕ) : ∀ p, start ≤ p →
    (start ≤ skipContinuation s start rounds p ∧ skipContinuation s start rounds p ≤ p) ∧
      (skipContinuation s start rounds p ≠ p →
        isContinuation (s.getD (skipContinuation s start rounds p) 0) = true) := by
  induction rounds with
  | zero => exact fun p hp => ⟨⟨hp, le_refl p⟩, fun hne => absurd rfl hne⟩
  | succ rounds ih =>
    intro p hp
    rw [skipContinuation]
    split_ifs with h
    · obtain ⟨⟨hlow, hhigh⟩, hcont⟩ := ih (p - 1) (by omega)
      refine ⟨⟨hlow, by omega⟩, ?_⟩
      intro _
      by_cases heq : skipContinuation s start rounds (p - 1) = p - 1
      · rw [heq]
        exact h.2
      · exact hcont heq
    · exact ⟨⟨hp, le_refl p⟩, fun hne => absurd rfl hne⟩

/-- What is held back of a text is at its end, and nothing that was sent before. -/
theorem utf8StreamSafeLen_bounds (s : Bytes) (h : start ≤ limit) (final : Bool) :
    start ≤ utf8StreamSafeLen s start limit final ∧
      utf8StreamSafeLen s start limit final ≤ limit := by
  obtain ⟨⟨hlow, hhigh⟩, hcont⟩ := skipContinuation_spec s start 4 limit h
  unfold utf8StreamSafeLen
  simp only
  split_ifs with hfinal hp hlen hstart hneed
  · exact ⟨h, le_refl limit⟩
  · rw [not_or] at hfinal
    omega
  · exact ⟨h, le_refl limit⟩
  · exact ⟨le_refl start, h⟩
  · have hne : skipContinuation s start 4 limit ≠ start := by
      intro heq
      exact hstart ⟨heq, hcont hp⟩
    omega
  · exact ⟨h, le_refl limit⟩

end Lengths

/-- No stop occurs in a text. -/
def Clean (stops : StopList) (t : Bytes) : Prop := ∀ v ∈ stops.v, ¬ v <:+: t

section Window
variable {stops : StopList} {t u : Bytes} {start : ℕ}

theorem findFrom_eq (h : 0 ∉ t) (start : ℕ) : stops.findFrom t start =
    (firstOf stops.v (t.drop start)).map fun r => (r.1 + start, r.2.length) := by
  unfold StopList.findFrom
  rw [cstr_eq_self]
  exact fun hmem => h (List.mem_of_mem_drop hmem)

/-- Behind a clean text the window shows the stop that the whole text shows. -/
theorem findFrom_window (h : 0 ∉ t ++ u) (ht : Clean stops t)
    (hstart : start = 0 ∨ start + (stops.maxLen - 1) ≤ t.length) :
    stops.findFrom (t ++ u) start = stops.findFrom (t ++ u) 0 := by
  have hlen : ∀ p ∈ stops.v, p.length ≤ stops.maxLen - 1 + 1 := by
    intro p hp
    have hle := length_le_maxLen stops p hp
    omega
  rw [findFrom_eq h, findFrom_eq h, List.drop_zero, firstOf_window ht hlen hstart, Option.map_map]
  congr 1

theorem findFrom_none (h : 0 ∉ t) : stops.findFrom t 0 = none ↔ Clean stops t := by
  rw [findFrom_eq h, Option.map_eq_none_iff, List.drop_zero]
  exact firstOf_none

theorem findFrom_some (h : 0 ∉ t) {stop : ℕ × ℕ} (hf : stops.findFrom t 0 = some stop) :
    ∃ pat, IsFirst stops.v t stop.1 pat ∧ stop.2 = pat.length := by
  rw [findFrom_eq h, List.drop_zero, Option.map_eq_some_iff] at hf
  obtain ⟨⟨i, pat⟩, hfirst, rfl⟩ := hf
  exact ⟨pat, firstOf_some hfirst, rfl⟩

end Window

section Tokens
variable {stops : StopList} {st : StreamState} {t piece : Bytes}

/-- A run that goes on, behind the text `t`. -/
structure Going (stops : StopList) (st : StreamState) (t : Bytes) : Prop where
  text : st.text = t
  hit : st.hit = none
  nul : 0 ∉ t
  clean : Clean stops t
  sent : st.deltas.flatten = t.take st.plainStreamPos
  held : st.plainStreamPos = 0 ∨ st.plainStreamPos + (stops.maxLen - 1) ≤ t.length
  window : st.stopScanFrom = 0 ∨ st.stopScanFrom + (stops.maxLen - 1) ≤ t.length

/-- A run that is over, with all of its text sent. -/
structure Ended (st : StreamState) (t : Bytes) : Prop where
  text : st.text = t
  hit : st.hit.isSome = true
  sent : st.deltas.flatten = t
  pos : st.plainStreamPos = t.length

theorem init_going (stops : StopList) : Going stops .init [] where
  text := rfl
  hit := rfl
  nul := List.not_mem_nil
  clean := fun v hv hin => (stops.texts v hv).1 (List.infix_nil.1 hin)
  sent := rfl
  held := Or.inl rfl
  window := Or.inl rfl

/-- What was sent is a prefix of the text, before and behind a delta. -/
theorem emit_sent (st : StreamState) (limit : ℕ) (hnul : 0 ∉ st.text)
    (hsent : st.deltas.flatten = st.text.take st.plainStreamPos)
    (hpos : st.plainStreamPos ≤ limit) :
    (st.emit limit).deltas.flatten = st.text.take limit ∧
      (st.emit limit).plainStreamPos = limit := by
  unfold StreamState.emit
  split_ifs with hlt
  · have hcut : 0 ∉ (st.text.take limit).drop st.plainStreamPos :=
      fun hmem => hnul (List.mem_of_mem_take (List.mem_of_mem_drop hmem))
    refine ⟨?_, rfl⟩
    rw [cstr_eq_self hcut, List.flatten_append, hsent, List.flatten_singleton]
    have hsplit := List.take_append_drop st.plainStreamPos (st.text.take limit)
    rwa [List.take_take, min_eq_left hpos] at hsplit
  · have heq : st.plainStreamPos = limit := by omega
    refine ⟨?_, heq⟩
    rw [hsent, heq]

theorem emit_same (st : StreamState) (limit : ℕ) : (st.emit limit).text = st.text ∧
    (st.emit limit).stopScanFrom = st.stopScanFrom ∧ (st.emit limit).hit = st.hit := by
  unfold StreamState.emit
  split_ifs
  · exact ⟨rfl, rfl, rfl⟩
  · exact ⟨rfl, rfl, rfl⟩

/-- No stop starts in what was sent. -/
theorem Going.before_stop (h : Going stops st t) {pos : ℕ} {pat : Bytes}
    (hfirst : IsFirst stops.v (t ++ piece) pos pat) : st.plainStreamPos ≤ pos := by
  by_contra hlt
  have hheld := h.held.resolve_left (by omega)
  obtain ⟨hfind, xs, ys, hv, -⟩ := hfirst
  have hmem : pat ∈ stops.v := by
    rw [hv]
    simp
  have hlen := length_le_maxLen stops pat hmem
  exact not_prefix_before (h.clean pat hmem) (by omega) hheld (Nat.lt_of_not_le hlt)
    (find_some hfind).1

/-- A token that completes no stop. -/
theorem Going.token (h : Going stops st t) (hp : 0 ∉ piece)
    (hf : stops.findFrom (t ++ piece) 0 = none) :
    Going stops (st.token stops piece) (t ++ piece) := by
  have hnul : 0 ∉ t ++ piece := fun hmem => (List.mem_append.1 hmem).elim h.nul hp
  have hwindow := findFrom_window hnul h.clean h.window
  have hlen : (t ++ piece).length = t.length + piece.length := List.length_append
  have hsafe := streamSafeLen_eq stops (t ++ piece).length
  have hheld : st.plainStreamPos ≤ min (stops.streamSafeLen (t ++ piece).length)
      (t ++ piece).length := by
    have hold := h.held
    omega
  obtain ⟨hlow, hhigh⟩ := utf8StreamSafeLen_bounds (t ++ piece) hheld false
  have hsent : st.deltas.flatten = (t ++ piece).take st.plainStreamPos := by
    have hold := h.held
    rw [h.sent, List.take_append_of_le_length (by omega)]
  unfold StreamState.token
  simp only [h.hit, h.text, hwindow, hf, Option.isSome_none, Option.isNone_none,
    Bool.false_eq_true, if_false, true_and]
  generalize utf8StreamSafeLen (t ++ piece) st.plainStreamPos
    (min (stops.streamSafeLen (t ++ piece).length) (t ++ piece).length) false = limit at hlow hhigh
  generalize hst : StreamState.mk (t ++ piece) st.plainStreamPos _ st.deltas none = st'
  have htext : st'.text = t ++ piece := by rw [← hst]
  obtain ⟨hsame, hscan, hhit⟩ := emit_same st' limit
  obtain ⟨hdeltas, hpos⟩ := emit_sent st' limit (htext ▸ hnul)
    (by rw [← hst]; exact hsent) (by rw [← hst]; exact hlow)
  exact
    { text := hsame.trans htext
      hit := by rw [hhit, ← hst]
      nul := hnul
      clean := (findFrom_none hnul).1 hf
      sent := by rw [hdeltas, hpos, htext]
      held := by
        rw [hpos]
        omega
      window := by
        rw [hscan, ← hst]
        have hold := h.window
        simp only
        split_ifs
        · omega
        · omega }

/-- A token that completes a stop ends the run at its start. -/
theorem Going.stop (h : Going stops st t) (hp : 0 ∉ piece) {stop : ℕ × ℕ}
    (hf : stops.findFrom (t ++ piece) 0 = some stop) :
    Ended (st.token stops piece) ((t ++ piece).take stop.1) ∧
      st.deltas.flatten <+: (t ++ piece).take stop.1 := by
  have hnul : 0 ∉ t ++ piece := fun hmem => (List.mem_append.1 hmem).elim h.nul hp
  have hwindow := findFrom_window hnul h.clean h.window
  obtain ⟨pat, hfirst, -⟩ := findFrom_some hnul hf
  have hbefore := h.before_stop hfirst
  have hle : stop.1 ≤ (t ++ piece).length := (find_some hfirst.1).2
  have hsent : st.deltas.flatten = (t ++ piece).take st.plainStreamPos := by
    have hold := h.held
    rw [h.sent, List.take_append_of_le_length (by omega)]
  have hfinal : utf8StreamSafeLen (t ++ piece) st.plainStreamPos stop.1 true = stop.1 := by
    unfold utf8StreamSafeLen
    exact if_pos (Or.inl rfl)
  unfold StreamState.token
  simp only [h.hit, h.text, hwindow, hf, Option.isSome_none, Option.isSome_some,
    Bool.false_eq_true, if_false, min_eq_left hle, hfinal]
  generalize hst : StreamState.mk (t ++ piece) st.plainStreamPos _ st.deltas (some stop) = st'
  have htext : st'.text = t ++ piece := by rw [← hst]
  obtain ⟨-, -, hhit⟩ := emit_same st' stop.1
  obtain ⟨hdeltas, hpos⟩ := emit_sent st' stop.1 (htext ▸ hnul)
    (by rw [← hst]; exact hsent) (by rw [← hst]; exact hbefore)
  constructor
  · exact
      { text := rfl
        hit := by
          show (st'.emit stop.1).hit.isSome = true
          rw [hhit, ← hst]
          rfl
        sent := by
          show (st'.emit stop.1).deltas.flatten = _
          rw [hdeltas, htext]
        pos := by
          show (st'.emit stop.1).plainStreamPos = _
          rw [hpos, List.length_take]
          omega }
  · rw [hsent]
    exact List.take_prefix_take_left hbefore

/-- Behind a stop nothing changes any more. -/
theorem Ended.token (h : Ended st t) (piece : Bytes) : st.token stops piece = st := by
  unfold StreamState.token
  rw [if_pos h.hit]

theorem Ended.run (h : Ended st t) (pieces : List Bytes) :
    pieces.foldl (StreamState.token stops) st = st := by
  induction pieces with
  | nil => rfl
  | cons piece pieces ih =>
    rw [List.foldl_cons, h.token]
    exact ih

/-- The flush of a run that is over sends nothing. -/
theorem Ended.flush (h : Ended st t) : st.flush = st := by
  unfold StreamState.flush StreamState.emit
  rw [h.text, h.pos, if_neg (lt_irrefl _)]

theorem Going.flush (h : Going stops st t) :
    st.flush.text = t ∧ st.flush.deltas.flatten = t := by
  have hpos : st.plainStreamPos ≤ st.text.length := by
    have hold := h.held
    rw [h.text]
    omega
  obtain ⟨hsent, -⟩ := emit_sent st st.text.length (h.text ▸ h.nul) (h.text ▸ h.sent) hpos
  refine ⟨(emit_same st _).1.trans h.text, ?_⟩
  unfold StreamState.flush
  rw [hsent, h.text, List.take_length]

end Tokens

section Runs
variable {stops : StopList}

/-- A run goes on through all its tokens, or one of them completes a stop. -/
theorem run_cases (stops : StopList) (pieces : List Bytes) (h : ∀ p ∈ pieces, 0 ∉ p) :
    Going stops (StreamState.run stops pieces) pieces.flatten ∨
      ∃ pre piece rest stop, pieces = pre ++ piece :: rest ∧
        Going stops (StreamState.run stops pre) pre.flatten ∧
        stops.findFrom (pre.flatten ++ piece) 0 = some stop ∧
        Ended (StreamState.run stops pieces) ((pre.flatten ++ piece).take stop.1) := by
  induction pieces using List.reverseRecOn with
  | nil => exact Or.inl (init_going stops)
  | append_singleton pieces piece ih =>
    have hp : 0 ∉ piece := h piece (by simp)
    have hrun : StreamState.run stops (pieces ++ [piece]) =
        (StreamState.run stops pieces).token stops piece := by
      unfold StreamState.run
      rw [List.foldl_append]
      rfl
    rw [hrun]
    rcases ih fun p hmem => h p (List.mem_append_left _ hmem) with
      hgoing | ⟨pre, q, rest, stop, rfl, hgoing, hf, hended⟩
    · cases hf : stops.findFrom (pieces.flatten ++ piece) 0 with
      | none =>
        left
        rw [List.flatten_append, List.flatten_singleton]
        exact hgoing.token hp hf
      | some stop =>
        right
        exact ⟨pieces, piece, [], stop, rfl, hgoing, hf, (hgoing.stop hp hf).1⟩
    · right
      refine ⟨pre, q, rest ++ [piece], stop, by simp, hgoing, hf, ?_⟩
      rw [hended.token]
      exact hended

/-- A run over a clean text goes on. -/
theorem run_going {pieces : List Bytes} (h : ∀ p ∈ pieces, 0 ∉ p)
    (hclean : Clean stops pieces.flatten) :
    Going stops (StreamState.run stops pieces) pieces.flatten := by
  rcases run_cases stops pieces h with hgoing | ⟨pre, piece, rest, stop, rfl, hgoing, hf, -⟩
  · exact hgoing
  · exfalso
    have hnul : 0 ∉ pre.flatten ++ piece := by
      intro hmem
      exact (List.mem_append.1 hmem).elim hgoing.nul (h piece (by simp))
    have hsub : pre.flatten ++ piece <:+: (pre ++ piece :: rest).flatten := by
      refine ⟨[], rest.flatten, ?_⟩
      simp
    have hnone : stops.findFrom (pre.flatten ++ piece) 0 = none := by
      rw [findFrom_none hnul]
      exact fun v hv hin => hclean v hv (hin.trans hsub)
    rw [hnone] at hf
    cases hf

/-- The deltas are the text that is returned. It holds no stop: it is all that was generated, or
what was generated up to the token that completed the first stop, cut where the chosen stop starts
behind everything sent before. At each token the window shows what a search of the whole text
would. -/
theorem stops_streamed (stops : StopList) (pieces : List Bytes) (h : ∀ p ∈ pieces, 0 ∉ p) :
    let result := (StreamState.run stops pieces).flush
    result.deltas.flatten = result.text ∧ Clean stops result.text ∧
      (Clean stops pieces.flatten ∧ result.text = pieces.flatten ∨
        ∃ pre piece rest pos pat, pieces = pre ++ piece :: rest ∧ Clean stops pre.flatten ∧
          IsFirst stops.v (pre.flatten ++ piece) pos pat ∧
          result.text = (pre.flatten ++ piece).take pos ∧
          (StreamState.run stops pre).deltas.flatten <+: result.text) ∧
      ∀ pre piece rest, pieces = pre ++ piece :: rest → Clean stops pre.flatten →
        stops.findFrom (pre.flatten ++ piece) (StreamState.run stops pre).stopScanFrom =
          stops.findFrom (pre.flatten ++ piece) 0 := by
  intro result
  have hwindow : ∀ pre piece rest, pieces = pre ++ piece :: rest → Clean stops pre.flatten →
      stops.findFrom (pre.flatten ++ piece) (StreamState.run stops pre).stopScanFrom =
        stops.findFrom (pre.flatten ++ piece) 0 := by
    rintro pre piece rest rfl hclean
    have hgoing := run_going (fun p hp => h p (List.mem_append_left _ hp)) hclean
    apply findFrom_window _ hclean hgoing.window
    intro hmem
    exact (List.mem_append.1 hmem).elim hgoing.nul (h piece (by simp))
  rcases run_cases stops pieces h with hgoing | ⟨pre, piece, rest, stop, rfl, hgoing, hf, hended⟩
  · obtain ⟨htext, hdeltas⟩ := hgoing.flush
    refine ⟨hdeltas.trans htext.symm, ?_, Or.inl ⟨hgoing.clean, htext⟩, hwindow⟩
    show Clean stops (StreamState.run stops pieces).flush.text
    rw [htext]
    exact hgoing.clean
  · have hp : 0 ∉ piece := h piece (by simp)
    have hnul : 0 ∉ pre.flatten ++ piece :=
      fun hmem => (List.mem_append.1 hmem).elim hgoing.nul hp
    obtain ⟨pat, hfirst, -⟩ := findFrom_some hnul hf
    have hflush : result = StreamState.run stops (pre ++ piece :: rest) := hended.flush
    refine ⟨?_, ?_, Or.inr ⟨pre, piece, rest, stop.1, pat, rfl, hgoing.clean, hfirst, ?_, ?_⟩,
      hwindow⟩
    · rw [hflush, hended.sent, hended.text]
    · rw [hflush, hended.text]
      exact fun v hv => hfirst.clean v hv (stops.texts v hv).1
    · rw [hflush, hended.text]
    · rw [hflush, hended.text]
      exact (hgoing.stop hp hf).2

/-- Two stops that overlap, and a token that ends between them. -/
def sampleStops : StopList := (StopList.clear.push [97, 98]).push [98, 97]

theorem sampleStops_streamed :
    let result := (StreamState.run sampleStops [[99, 97], [98, 97]]).flush
    result.deltas.flatten = result.text ∧ Clean sampleStops result.text ∧
      (Clean sampleStops [[99, 97], [98, 97]].flatten ∧
          result.text = [[99, 97], [98, 97]].flatten ∨
        ∃ pre piece rest pos pat, [[99, 97], [98, 97]] = pre ++ piece :: rest ∧
          Clean sampleStops pre.flatten ∧ IsFirst sampleStops.v (pre.flatten ++ piece) pos pat ∧
          result.text = (pre.flatten ++ piece).take pos ∧
          (StreamState.run sampleStops pre).deltas.flatten <+: result.text) ∧
      ∀ pre piece rest, [[99, 97], [98, 97]] = pre ++ piece :: rest →
        Clean sampleStops pre.flatten →
        sampleStops.findFrom (pre.flatten ++ piece)
            (StreamState.run sampleStops pre).stopScanFrom =
          sampleStops.findFrom (pre.flatten ++ piece) 0 :=
  stops_streamed sampleStops [[99, 97], [98, 97]] (by decide)

end Runs

end Ds4.Stream
