import Ds4.Stream.MarkerScan

/-! Runs of the token loop: what was seen of the tool markers is what the whole text holds, as long
as no token hides a marker from the scan and the scan shows none that does not count. -/
namespace Ds4.Stream
open Ds4.Search

section Reference
variable (gates : Bool) (th : ThinkingState) (t : Bytes)

/-- A place that is not in thinking, where thinking counts. -/
def Outside (p : ℕ) : Prop := ¬ (gates && insideAt th t p) = true

def StartsAt (p : ℕ) : Prop := MarkAt toolStarts t p ∧ Outside gates th t p

def EndsAt (q : ℕ) : Prop := MarkAt toolEnds t q ∧ Outside gates th t q

/-- An end marker stands behind a start marker, both outside thinking. -/
def Complete : Prop := ∃ p q, p < q ∧ StartsAt gates th t p ∧ EndsAt gates th t q

/-- The markers that are looked for: a start marker as long as there was none, then an end marker
behind one. -/
def Wanted (started : Bool) (p : ℕ) : Prop :=
  if started then EndsAt gates th t p ∧ ∃ s < p, StartsAt gates th t s else StartsAt gates th t p

end Reference

/-- What has to hold of a token for the scan behind it to show what the text holds. -/
structure Shown (gates : Bool) (th : ThinkingState) (st : MarkerState) (piece : Bytes) : Prop where
  nul : 0 ∉ piece
  hidden : (gates && (st.thinking.feed piece).inside) = true →
    ∀ p, ¬ Wanted gates th (st.text ++ piece) st.seen.start p
  closed : (gates && (st.thinking.feed piece).inside) = false → st.waiting = true →
    Chat.thinkClose <:+: st.text ++ piece ∧
      ∀ p, Wanted gates th (st.text ++ piece) st.seen.start p →
        MarkerState.behindThinking (st.text ++ piece) ≤ p
  started : (gates && (st.thinking.feed piece).inside) = false → st.waiting = false →
    st.seen.start = true → ∀ q, st.scanFrom ≤ q → MarkAt toolEnds (st.text ++ piece) q →
      Wanted gates th (st.text ++ piece) true q
  fresh : (gates && (st.thinking.feed piece).inside) = false → st.waiting = false →
    st.seen.start = false → ∀ p, st.scanFrom ≤ p → MarkAt toolStarts (st.text ++ piece) p →
      Outside gates th (st.text ++ piece) p ∧
        ∀ q, p < q → MarkAt toolEnds (st.text ++ piece) q → Outside gates th (st.text ++ piece) q

/-- What was seen of the text `t` is what it holds, and what may still be part of a marker is in
front of the scan. -/
structure Exact (gates : Bool) (th : ThinkingState) (st : MarkerState) (t : Bytes) : Prop where
  text : st.text = t
  nul : 0 ∉ t
  thinking : st.thinking = th.feed t
  waiting : st.waiting = (gates && insideAt th t t.length)
  start : st.seen.start = true ↔ ∃ p, StartsAt gates th t p
  stop : st.seen.stop = true ↔ Complete gates th t
  scan_le : st.scanFrom ≤ t.length
  window : st.waiting = false → ∃ c, st.scanFrom ≤ max c (t.length - MarkerState.markerHold) ∧
    (c = 0 ∨ c ≤ t.length ∧ Chat.thinkClose <:+ t.take c)

section Growth
variable {gates : Bool} {th : ThinkingState} {t u : Bytes} {p q : ℕ}

theorem Outside.append (h : p ≤ t.length) :
    Outside gates th (t ++ u) p ↔ Outside gates th t p := by
  unfold Outside
  rw [insideAt_append h]

theorem StartsAt.lt (h : StartsAt gates th t p) : p + 3 ≤ t.length :=
  h.1.end_le fun _ hm => List.mem_append_left _ hm

theorem EndsAt.lt (h : EndsAt gates th t p) : p + 3 ≤ t.length :=
  h.1.end_le fun _ hm => List.mem_append_right _ hm

theorem StartsAt.append (h : StartsAt gates th t p) (u : Bytes) : StartsAt gates th (t ++ u) p := by
  have hlt := h.lt
  exact ⟨h.1.append u, (Outside.append (by omega)).2 h.2⟩

/-- A start marker of the longer text is an old one or ends in what was added. -/
theorem StartsAt.of_append (h : StartsAt gates th (t ++ u) p) : StartsAt gates th t p ∨
    ∃ m ∈ toolStarts, m <+: (t ++ u).drop p ∧ t.length < p + m.length := by
  apply h.1.of_append.imp_left
  intro hold
  have hlt := hold.end_le fun m hm => List.mem_append_left _ hm
  exact ⟨hold, (Outside.append (by omega)).1 h.2⟩

theorem EndsAt.of_append (h : EndsAt gates th (t ++ u) q) : EndsAt gates th t q ∨
    ∃ m ∈ toolEnds, m <+: (t ++ u).drop q ∧ t.length < q + m.length := by
  apply h.1.of_append.imp_left
  intro hold
  have hlt := hold.end_le fun m hm => List.mem_append_right _ hm
  exact ⟨hold, (Outside.append (by omega)).1 h.2⟩

/-- Behind a text without a block an end marker that closes one is new. -/
theorem new_end (h : ¬ Complete gates th t) (hpq : p < q)
    (hp : StartsAt gates th (t ++ u) p) (hq : EndsAt gates th (t ++ u) q) :
    ∃ m ∈ toolEnds, m <+: (t ++ u).drop q ∧ t.length < q + m.length := by
  rcases hq.of_append with hold | hnew
  · exfalso
    rcases hp.of_append with hpold | ⟨m, hm, hpre, hlt⟩
    · exact h ⟨p, q, hpq, hpold, hold⟩
    · obtain ⟨m', hm', hpre'⟩ := hq.1
      have hle := marks_disjoint (toolMarks_tags m (List.mem_append_left _ hm)).1
        (toolMarks_tags m' (List.mem_append_right _ hm')).1 hpre hpre' hpq
      have hend := hold.lt
      omega
  · exact hnew

end Growth

section Steps
variable {gates : Bool} {th : ThinkingState} {st : MarkerState} {t piece : Bytes}

theorem init_exact (gates : Bool) (th : ThinkingState) :
    Exact gates th (.init gates th) [] where
  text := rfl
  nul := List.not_mem_nil
  thinking := rfl
  waiting := rfl
  start := by
    constructor
    · intro h
      cases h
    · rintro ⟨p, h⟩
      have hlt := h.lt
      rw [List.length_nil] at hlt
      omega
  stop := by
    constructor
    · intro h
      cases h
    · rintro ⟨p, q, -, h, -⟩
      have hlt := h.lt
      rw [List.length_nil] at hlt
      omega
  scan_le := le_refl 0
  window := fun _ => ⟨0, Nat.zero_le _, Or.inl rfl⟩

/-- The window: a new marker outside thinking is not in front of the scan. -/
theorem Exact.in_window (h : Exact gates th st t) (hwait : st.waiting = false) {m : Bytes} {p : ℕ}
    (hm : m ∈ toolStarts ++ toolEnds) (hpre : m <+: (t ++ piece).drop p)
    (hlt : t.length < p + m.length) : st.scanFrom ≤ p := by
  obtain ⟨htag, hlen⟩ := toolMarks_tags m hm
  obtain ⟨c, hle, hc⟩ := h.window hwait
  have hhold : MarkerState.markerHold = 80 := rfl
  have hcp : c ≤ p := by
    rcases hc with rfl | ⟨hct, hclose⟩
    · exact Nat.zero_le p
    · apply mark_behind_close htag hpre _ _ (by omega)
      · rw [List.length_append]
        omega
      · rwa [List.take_append_of_le_length hct]
  have hmax := le_max_iff.1 hle
  omega

theorem Exact.complete_false (h : Exact gates th st t) (hstop : st.seen.stop = false) :
    ¬ Complete gates th t := by
  intro hcomplete
  rw [h.stop.2 hcomplete] at hstop
  cases hstop

theorem Exact.no_start (h : Exact gates th st t) (hstart : st.seen.start = false) (p : ℕ) :
    ¬ StartsAt gates th t p := by
  intro hp
  rw [h.start.2 ⟨p, hp⟩] at hstart
  cases hstart

/-- A token that ends in thinking. -/
theorem Exact.hidden (h : Exact gates th st t) (hs : Shown gates th st piece)
    (hstop : st.seen.stop = false) (hin : (gates && (st.thinking.feed piece).inside) = true) :
    (st.seen.start = true ↔ ∃ p, StartsAt gates th (t ++ piece) p) ∧
      (st.seen.stop = true ↔ Complete gates th (t ++ piece)) := by
  have hwanted := hs.hidden hin
  rw [h.text] at hwanted
  cases hstart : st.seen.start with
  | true =>
    obtain ⟨p, hp⟩ := h.start.1 hstart
    rw [hstop]
    refine ⟨iff_of_true rfl ⟨p, hp.append piece⟩, iff_of_false (by simp) ?_⟩
    rintro ⟨s, q, hsq, hps, hpq⟩
    apply hwanted q
    rw [Wanted, hstart, if_pos rfl]
    exact ⟨hpq, s, hsq, hps⟩
  | false =>
    have hnone : ∀ p, ¬ StartsAt gates th (t ++ piece) p := by
      intro p hp
      apply hwanted p
      rw [Wanted, hstart, if_neg (by simp)]
      exact hp
    rw [hstop]
    refine ⟨iff_of_false (by simp) ?_, iff_of_false (by simp) ?_⟩
    · rintro ⟨p, hp⟩
      exact hnone p hp
    · rintro ⟨p, q, -, hp, -⟩
      exact hnone p hp

/-- A scan from `start` shows what the text holds, if it holds all that is wanted and nothing in
it is taken that does not count. -/
theorem Exact.scanned (h : Exact gates th st t) (hnul : 0 ∉ t ++ piece)
    (hstop : st.seen.stop = false) {start : ℕ}
    (hall : ∀ p, Wanted gates th (t ++ piece) st.seen.start p → start ≤ p)
    (hends : st.seen.start = true → ∀ q, start ≤ q → MarkAt toolEnds (t ++ piece) q →
      Wanted gates th (t ++ piece) true q)
    (hstarts : st.seen.start = false → ∀ p, start ≤ p → MarkAt toolStarts (t ++ piece) p →
      Outside gates th (t ++ piece) p ∧ ∀ q, p < q → MarkAt toolEnds (t ++ piece) q →
        Outside gates th (t ++ piece) q) :
    ((observeToolMarkers ((t ++ piece).drop start) st.seen).start = true ↔
        ∃ p, StartsAt gates th (t ++ piece) p) ∧
      ((observeToolMarkers ((t ++ piece).drop start) st.seen).stop = true ↔
        Complete gates th (t ++ piece)) := by
  rw [observe_start hnul, observe_stop hnul hstop]
  cases hstart : st.seen.start with
  | true =>
    obtain ⟨p, hp⟩ := h.start.1 hstart
    rw [if_pos rfl]
    refine ⟨iff_of_true (Or.inl rfl) ⟨p, hp.append piece⟩, ?_⟩
    constructor
    · rintro ⟨q, hq, hmark⟩
      have hwanted := hends hstart q hq hmark
      rw [Wanted, if_pos rfl] at hwanted
      obtain ⟨hend, s, hsq, hs⟩ := hwanted
      exact ⟨s, q, hsq, hs, hend⟩
    · rintro ⟨s, q, hsq, hs, hend⟩
      refine ⟨q, hall q ?_, hend.1⟩
      rw [Wanted, hstart, if_pos rfl]
      exact ⟨hend, s, hsq, hs⟩
  | false =>
    have hmem : ∀ p, StartsAt gates th (t ++ piece) p → start ≤ p := by
      intro p hp
      apply hall p
      rw [Wanted, hstart, if_neg (by simp)]
      exact hp
    rw [if_neg (by simp)]
    constructor
    · constructor
      · rintro (hfalse | ⟨p, hp, hmark⟩)
        · cases hfalse
        · exact ⟨p, hmark, (hstarts hstart p hp hmark).1⟩
      · rintro ⟨p, hp⟩
        exact Or.inr ⟨p, hmem p hp, hp.1⟩
    · constructor
      · rintro ⟨p, q, hp, hpq, hmark, hend⟩
        obtain ⟨hout, hrest⟩ := hstarts hstart p hp hmark
        exact ⟨p, q, hpq, ⟨hmark, hout⟩, hend, hrest q hpq hend⟩
      · rintro ⟨p, q, hpq, hp, hend⟩
        exact ⟨p, q, hmem p hp, hpq, hp.1, hend.1⟩

/-- A token that ends thinking: the scan begins behind the tag that ended it. -/
theorem Exact.closing (h : Exact gates th st t) (hs : Shown gates th st piece)
    (hnul : 0 ∉ t ++ piece) (hwait : st.waiting = true)
    (hout : (gates && (st.thinking.feed piece).inside) = false) :
    let c := MarkerState.behindThinking (t ++ piece)
    (c ≤ (t ++ piece).length ∧ Chat.thinkClose <:+ (t ++ piece).take c) ∧
      (∀ n, c ≤ n → n ≤ (t ++ piece).length → Outside gates th (t ++ piece) n) ∧
      ∀ p, StartsAt gates th t p → p < c := by
  have hgates : gates = true ∧ insideAt th t t.length = true := by
    rwa [h.waiting, Bool.and_eq_true] at hwait
  have hend : (th.feed (t ++ piece)).inside = false := by
    rw [hgates.1, Bool.true_and, h.thinking, ← feed_append] at hout
    exact hout
  have hclose := (hs.closed hout hwait).1
  rw [h.text] at hclose
  obtain ⟨hc, hbehind, hlatest⟩ := outside_behind hnul hclose hend
  refine ⟨hc, ?_, ?_⟩
  · intro n hn hle hin
    rw [hbehind n hn hle, Bool.and_false] at hin
    cases hin
  · intro p hp
    have hlen : t.length ≤ (t ++ piece).length := by
      rw [List.length_append]
      exact Nat.le_add_right _ _
    have hin : insideAt th (t ++ piece) t.length = true := by
      rw [insideAt_append (le_refl _)]
      exact hgates.2
    rw [← insideAt_length] at hend
    obtain ⟨k, ⟨hlt, hkt⟩, hk⟩ := close_between hin hlen (le_refl _) hend
    have hp9 : p + 9 ≤ t.length := by
      obtain ⟨m, hm, hpre⟩ := hp.1
      have hmlen := hpre.length_le
      have hlong : 9 ≤ m.length := toolStarts_long m hm
      rw [List.length_drop] at hmlen
      omega
    have hkc := hlatest k (by omega) hkt (close_in_text (by omega) hkt hk)
    omega

/-- One token keeps what was seen exact. -/
theorem Exact.token (h : Exact gates th st t) (hs : Shown gates th st piece)
    (hstop : st.seen.stop = false) :
    Exact gates th (st.token gates piece) (t ++ piece) := by
  have hnul : 0 ∉ t ++ piece := fun hmem => (List.mem_append.1 hmem).elim h.nul hs.nul
  have hfeed : st.thinking.feed piece = th.feed (t ++ piece) := by
    rw [h.thinking, feed_append]
  have hinside : insideAt th (t ++ piece) (t ++ piece).length = (th.feed (t ++ piece)).inside :=
    insideAt_length _ _
  have hhold : MarkerState.markerHold = 80 := rfl
  have hlen : (t ++ piece).length = t.length + piece.length := List.length_append
  unfold MarkerState.token
  rw [hstop, if_neg (by simp)]
  simp only [h.text]
  by_cases hin : (gates && (st.thinking.feed piece).inside) = true
  · rw [if_pos hin]
    obtain ⟨hstart, hcomplete⟩ := h.hidden hs hstop hin
    exact
      { text := rfl
        nul := hnul
        thinking := hfeed
        waiting := by
          rw [hinside, ← hfeed]
          exact hin.symm
        start := hstart
        stop := hcomplete
        scan_le := le_refl _
        window := fun hfalse => by cases hfalse }
  · rw [if_neg hin]
    rw [Bool.not_eq_true] at hin
    have hwaiting : false = (gates && insideAt th (t ++ piece) (t ++ piece).length) := by
      rw [hinside, ← hfeed]
      exact hin.symm
    cases hwait : st.waiting with
    | true =>
      obtain ⟨⟨hc, hclose⟩, hout, hold⟩ := h.closing hs hnul hwait hin
      have hwanted := (hs.closed hin hwait).2
      rw [h.text] at hwanted
      rw [if_pos rfl, min_eq_left hc]
      generalize MarkerState.behindThinking (t ++ piece) = c at hc hclose hout hold hwanted ⊢
      obtain ⟨hstart, hcomplete⟩ := h.scanned hnul hstop hwanted
        (by
          intro hstarted q hq hmark
          obtain ⟨s, hs⟩ := h.start.1 hstarted
          have hlt := hold s hs
          have hle := hmark.end_le fun m hm => List.mem_append_right _ hm
          rw [Wanted, if_pos rfl]
          exact ⟨⟨hmark, hout q hq (by omega)⟩, s, by omega, hs.append piece⟩)
        (by
          intro _ p hp hmark
          have hle := hmark.end_le fun m hm => List.mem_append_left _ hm
          refine ⟨hout p hp (by omega), ?_⟩
          intro q hpq hend
          have hqle := hend.end_le fun m hm => List.mem_append_right _ hm
          exact hout q (by omega) (by omega))
      exact
        { text := rfl
          nul := hnul
          thinking := hfeed
          waiting := hwaiting
          start := hstart
          stop := hcomplete
          scan_le := max_le hc (Nat.sub_le _ _)
          window := fun _ => ⟨c, le_refl _, Or.inr ⟨hc, hclose⟩⟩ }
    | false =>
      have hscan := h.scan_le
      rw [if_neg (by simp), min_eq_left (by omega)]
      have hends := hs.started hin hwait
      have hstarts := hs.fresh hin hwait
      rw [h.text] at hends hstarts
      obtain ⟨hstart, hcomplete⟩ := h.scanned hnul hstop
        (by
          intro p hp
          unfold Wanted at hp
          split_ifs at hp with hstarted
          · obtain ⟨hend, s, hsp, hs⟩ := hp
            obtain ⟨m, hm, hpre, hlt⟩ := new_end (h.complete_false hstop) hsp hs hend
            exact h.in_window hwait (List.mem_append_right _ hm) hpre hlt
          · rcases hp.of_append with hold | ⟨m, hm, hpre, hlt⟩
            · rw [Bool.not_eq_true] at hstarted
              exact absurd hold (h.no_start hstarted p)
            · exact h.in_window hwait (List.mem_append_left _ hm) hpre hlt)
        hends hstarts
      obtain ⟨c, hle, hc⟩ := h.window hwait
      exact
        { text := rfl
          nul := hnul
          thinking := hfeed
          waiting := hwaiting
          start := hstart
          stop := hcomplete
          scan_le := max_le (by omega) (Nat.sub_le _ _)
          window := by
            intro _
            refine ⟨c, ?_, ?_⟩
            · have hmax := le_max_iff.1 hle
              apply max_le
              · apply le_max_iff.2
                omega
              · exact le_max_right _ _
            · apply hc.imp_right
              rintro ⟨hct, hclose⟩
              refine ⟨by omega, ?_⟩
              rwa [List.take_append_of_le_length hct] }

end Steps

section Runs
variable {gates : Bool} {th : ThinkingState}

/-- In a run in which every token is shown, what was seen in each state is what the text generated
so far holds. -/
theorem markers_exact (gates : Bool) (th : ThinkingState) (pieces : List Bytes)
    (h : ∀ pre piece rest, pieces = pre ++ piece :: rest →
      (MarkerState.run gates th pre).seen.stop = false →
      Shown gates th (MarkerState.run gates th pre) piece) :
    ∀ pre, pre <+: pieces → ∃ generated, generated <+: pre ∧
      ((MarkerState.run gates th pre).seen.stop = false → generated = pre) ∧
      (MarkerState.run gates th pre).text = generated.flatten ∧
      ((MarkerState.run gates th pre).seen.start = true ↔
        ∃ p, StartsAt gates th generated.flatten p) ∧
      ((MarkerState.run gates th pre).seen.stop = true ↔
        Complete gates th generated.flatten) := by
  have hrun : ∀ pre rest, pieces = pre ++ rest → ∃ generated, generated <+: pre ∧
      ((MarkerState.run gates th pre).seen.stop = false → generated = pre) ∧
      Exact gates th (MarkerState.run gates th pre) generated.flatten := by
    intro pre
    induction pre using List.reverseRecOn with
    | nil => exact fun rest _ => ⟨[], List.nil_prefix, fun _ => rfl, init_exact gates th⟩
    | append_singleton pre piece ih =>
      intro rest hrest
      rw [List.append_assoc, List.singleton_append] at hrest
      obtain ⟨generated, hpre, hall, hexact⟩ := ih (piece :: rest) hrest
      have hstep : MarkerState.run gates th (pre ++ [piece]) =
          (MarkerState.run gates th pre).token gates piece := by
        unfold MarkerState.run
        rw [List.foldl_append]
        rfl
      rw [hstep]
      cases hstop : (MarkerState.run gates th pre).seen.stop with
      | true =>
        have hsame : (MarkerState.run gates th pre).token gates piece =
            MarkerState.run gates th pre := by
          unfold MarkerState.token
          rw [if_pos hstop]
        rw [hsame]
        refine ⟨generated, hpre.trans (List.prefix_append _ _), ?_, hexact⟩
        intro hgoing
        rw [hstop] at hgoing
        cases hgoing
      | false =>
        rw [hall hstop] at hexact
        refine ⟨pre ++ [piece], List.prefix_rfl, fun _ => rfl, ?_⟩
        rw [List.flatten_append, List.flatten_singleton]
        exact hexact.token (h pre piece rest hrest hstop) hstop
  rintro pre ⟨rest, hrest⟩
  obtain ⟨generated, hpre, hall, hexact⟩ := hrun pre rest hrest.symm
  exact ⟨generated, hpre, hall, hexact.text, hexact.start, hexact.stop⟩

/-- A block in two tokens. -/
def samplePieces : List Bytes := [lit "<tool_calls>", lit "</tool_calls>"]

theorem samplePieces_shown (pre : List Bytes) (piece : Bytes) (rest : List Bytes)
    (h : samplePieces = pre ++ piece :: rest) :
    Shown false (.init false) (MarkerState.run false (.init false) pre) piece := by
  have hout : ∀ t p, Outside false (.init false) t p := fun t p => Bool.false_ne_true
  rcases pre with _ | ⟨a, _ | ⟨b, pre⟩⟩
  · obtain ⟨hpiece, -⟩ := List.cons.inj h
    subst hpiece
    exact
      { nul := by decide
        hidden := by simp
        closed := fun _ hwait => by cases hwait
        started := fun _ _ hstart => by cases hstart
        fresh := fun _ _ _ p _ _ => ⟨hout _ p, fun q _ _ => hout _ q⟩ }
  · obtain ⟨ha, h⟩ := List.cons.inj h
    obtain ⟨hpiece, -⟩ := List.cons.inj h
    subst ha hpiece
    have hstart : StartsAt false (.init false) (lit "<tool_calls>" ++ lit "</tool_calls>") 0 :=
      ⟨⟨lit "<tool_calls>", by decide, by decide⟩, hout _ 0⟩
    exact
      { nul := by decide
        hidden := by simp
        closed := fun _ hwait => by cases hwait
        started := by
          intro _ _ _ q _ hmark
          rw [Wanted, if_pos rfl]
          have hne := hstart.1.apart hmark
          exact ⟨⟨hmark, hout _ q⟩, 0, by omega, hstart⟩
        fresh := fun _ _ hnone => by cases hnone }
  · obtain ⟨-, h⟩ := List.cons.inj h
    obtain ⟨-, h⟩ := List.cons.inj h
    exact absurd h.symm (by simp)

theorem samplePieces_exact : samplePieces ≠ [] ∧
    ∀ pre, pre <+: samplePieces → ∃ generated, generated <+: pre ∧
      ((MarkerState.run false (.init false) pre).seen.stop = false → generated = pre) ∧
      (MarkerState.run false (.init false) pre).text = generated.flatten ∧
      ((MarkerState.run false (.init false) pre).seen.start = true ↔
        ∃ p, StartsAt false (.init false) generated.flatten p) ∧
      ((MarkerState.run false (.init false) pre).seen.stop = true ↔
        Complete false (.init false) generated.flatten) :=
  ⟨List.cons_ne_nil _ _, markers_exact false (.init false) samplePieces fun pre piece rest h _ =>
    samplePieces_shown pre piece rest h⟩

/-- An end marker in front of the start marker, which the scan of the next token still holds, ends
the run. -/
theorem orphanEnd_stops : (MarkerState.run false (.init false)
      [lit "</tool_calls>", lit "<tool_calls>", lit "x"]).seen.stop = true ∧
    ¬ Complete false (.init false)
      [lit "</tool_calls>", lit "<tool_calls>", lit "x"].flatten := by
  refine ⟨by decide, ?_⟩
  rintro ⟨p, q, hpq, -, ⟨m, hm, hpre⟩, -⟩
  have hnone : ∀ m ∈ toolEnds,
      find m ([lit "</tool_calls>", lit "<tool_calls>", lit "x"].flatten.drop 1) = none := by
    decide
  apply find_eq_none.1 (hnone m hm)
  rw [infix_iff_drop]
  refine ⟨q - 1, ?_⟩
  rwa [List.drop_drop, Nat.add_sub_cancel' (by omega)]

end Runs

end Ds4.Stream
