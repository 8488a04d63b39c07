import Ds4.Stream.ToolMarkers

/-! Where a generated text is in thinking, where its tool markers stand, and what one look at a
part of it finds. -/
namespace Ds4.Stream
open Ds4.Search

section Thinking
variable {th : ThinkingState} {t u v : Bytes} {c n m k : ℕ}

/-- The tail is the end of all that was fed. -/
theorem push_eq (h : Bytes) (c : UInt8) :
    ThinkingState.push (h.drop (h.length - 8)) c = (h ++ [c]).drop ((h ++ [c]).length - 8) := by
  unfold ThinkingState.push
  rw [List.length_drop, List.length_append, List.length_singleton]
  split_ifs with hfull
  · rw [List.tail_drop, List.drop_append_of_le_length (by omega)]
    congr 2
    omega
  · have hshort : h.length - 8 = 0 := by omega
    have hshort' : h.length + 1 - 8 = 0 := by omega
    rw [hshort, hshort']
    rfl

theorem feed_append (st : ThinkingState) (p q : Bytes) : st.feed (p ++ q) = (st.feed p).feed q := by
  unfold ThinkingState.feed
  exact List.foldl_append

theorem feed_tail (st : ThinkingState) (p : Bytes) :
    (st.feed p).tail = (st.tail ++ p).drop ((st.tail ++ p).length - 8) := by
  induction p using List.reverseRecOn with
  | nil =>
    have hle : (st.tail ++ []).length - 8 = 0 := by
      have htail := st.tail_le
      rw [List.append_nil]
      omega
    rw [hle, List.drop_zero, List.append_nil]
    rfl
  | append_singleton p c ih =>
    rw [feed_append]
    show ThinkingState.push (st.feed p).tail c = _
    rw [ih, push_eq, List.append_assoc]

theorem suffix_tail (hv : v.length ≤ 8) : v <:+ t.drop (t.length - 8) ↔ v <:+ t := by
  constructor
  · exact fun h => h.trans (List.drop_suffix _ _)
  · intro h
    have hle := h.length_le
    apply List.suffix_of_suffix_length_le h (List.drop_suffix _ _)
    rw [List.length_drop]
    omega

/-- Whether the text is in thinking behind its first `n` bytes. -/
def insideAt (th : ThinkingState) (t : Bytes) (n : ℕ) : Bool := (th.feed (t.take n)).inside

theorem insideAt_append (h : n ≤ t.length) : insideAt th (t ++ u) n = insideAt th t n := by
  unfold insideAt
  rw [List.take_append_of_le_length h]

theorem insideAt_length (th : ThinkingState) (t : Bytes) :
    insideAt th t t.length = (th.feed t).inside := by
  unfold insideAt
  rw [List.take_length]

/-- One more byte. -/
theorem insideAt_succ (h : n < t.length) : insideAt th t (n + 1) =
    if Chat.thinkOpen <:+ th.tail ++ t.take (n + 1) then true
    else if Chat.thinkClose <:+ th.tail ++ t.take (n + 1) then false
    else insideAt th t n := by
  have htake : t.take (n + 1) = t.take n ++ [t[n]] := (List.take_append_getElem h).symm
  have hpush : ThinkingState.push (th.feed (t.take n)).tail t[n] =
      (th.tail ++ t.take (n + 1)).drop ((th.tail ++ t.take (n + 1)).length - 8) := by
    rw [feed_tail, push_eq, htake, List.append_assoc]
  have hopen : Chat.thinkOpen.length ≤ 8 := by decide
  have hclose : Chat.thinkClose.length ≤ 8 := by decide
  have hstep : insideAt th t (n + 1) = ((th.feed (t.take n)).byte t[n]).inside := by
    unfold insideAt
    rw [htake, feed_append]
    rfl
  rw [hstep]
  unfold ThinkingState.byte
  simp only
  rw [hpush]
  simp only [suffix_tail hopen, suffix_tail hclose]
  rfl

/-- Thinking only ends behind a closing tag. -/
theorem close_between (hn : insideAt th t n = true) (hnm : n ≤ m) (hm : m ≤ t.length)
    (hout : insideAt th t m = false) :
    ∃ k, (n < k ∧ k ≤ m) ∧ Chat.thinkClose <:+ th.tail ++ t.take k := by
  induction m, hnm using Nat.le_induction with
  | base =>
    rw [hn] at hout
    cases hout
  | succ m hnm ih =>
    rw [insideAt_succ (by omega)] at hout
    split_ifs at hout with hopen hclose
    · exact ⟨m + 1, ⟨by omega, le_refl _⟩, hclose⟩
    · obtain ⟨k, ⟨hlt, hle⟩, hk⟩ := ih (by omega) hout
      exact ⟨k, ⟨hlt, by omega⟩, hk⟩

/-- A closing tag that ends far enough in the text stands in the text. -/
theorem close_in_text (hk : 8 ≤ k) (hle : k ≤ t.length)
    (h : Chat.thinkClose <:+ th.tail ++ t.take k) : Chat.thinkClose <:+ t.take k := by
  apply List.suffix_of_suffix_length_le h (List.suffix_append _ _)
  have h8 : Chat.thinkClose.length = 8 := by decide
  rw [h8, List.length_take]
  omega

/-- Behind the last closing tag a text that ends outside thinking is not in thinking. -/
theorem outside_behind (hnul : 0 ∉ t) (hclose : Chat.thinkClose <:+: t)
    (hout : (th.feed t).inside = false) :
    (MarkerState.behindThinking t ≤ t.length ∧
        Chat.thinkClose <:+ t.take (MarkerState.behindThinking t)) ∧
      (∀ n, MarkerState.behindThinking t ≤ n → n ≤ t.length → insideAt th t n = false) ∧
      ∀ k, 8 ≤ k → k ≤ t.length → Chat.thinkClose <:+ t.take k →
        k ≤ MarkerState.behindThinking t := by
  have h8 : Chat.thinkClose.length = 8 := by decide
  cases hlast : findLast Chat.thinkClose t with
  | none => exact absurd hclose (findLast_none hlast)
  | some i =>
    obtain ⟨hpre, hnone⟩ := findLast_some hlast
    have hle := hpre.length_le
    rw [h8, List.length_drop] at hle
    have hbehind : MarkerState.behindThinking t = i + 8 := by
      unfold MarkerState.behindThinking
      rw [cstr_eq_self hnul, hlast]
      simp only
      omega
    have htake : Chat.thinkClose <:+ t.take (i + 8) := by
      obtain ⟨rest, hrest⟩ := hpre
      refine ⟨t.take i, ?_⟩
      rw [List.take_add, ← hrest, ← h8, List.take_left]
    have hlatest : ∀ k, 8 ≤ k → k ≤ t.length → Chat.thinkClose <:+ t.take k → k ≤ i + 8 := by
      intro k hk hkt hsuf
      by_contra hlt
      apply hnone (k - 8) (by omega) (by omega)
      obtain ⟨x, hx⟩ := hsuf
      have hxlen := congrArg List.length hx
      rw [List.length_append, h8, List.length_take] at hxlen
      have hdrop : t.drop (k - 8) = Chat.thinkClose ++ t.drop k := by
        have ht := List.take_append_drop k t
        rw [← hx, List.append_assoc] at ht
        have hcut := congrArg (List.drop (k - 8)) ht
        rw [List.drop_left' (by omega)] at hcut
        exact hcut.symm
      rw [hdrop]
      exact List.prefix_append _ _
    rw [hbehind]
    refine ⟨⟨by omega, htake⟩, ?_, hlatest⟩
    intro n hn hnt
    by_contra hin
    rw [Bool.not_eq_false] at hin
    rw [← insideAt_length] at hout
    obtain ⟨k, ⟨hlt, hkt⟩, hk⟩ := close_between hin hnt (le_refl _) hout
    have hkle := hlatest k (by omega) hkt (close_in_text (by omega) hkt hk)
    omega

end Thinking

section Marks
variable {ms : List Bytes} {t u : Bytes} {p q c : ℕ}

/-- One of the markers stands at `p`. -/
def MarkAt (ms : List Bytes) (t : Bytes) (p : ℕ) : Prop := ∃ m ∈ ms, m <+: t.drop p

theorem toolMarks_tags : ∀ m ∈ toolStarts ++ toolEnds, Dsml.IsTag m ∧ m.length ≤ 24 := by
  decide

theorem toolStarts_long : ∀ m ∈ toolStarts, 9 ≤ m.length := by
  decide

theorem starts_ends_apart : ∀ a ∈ toolStarts, ∀ b ∈ toolEnds, ¬ a <+: b ∧ ¬ b <+: a := by
  decide

theorem MarkAt.apart (h : MarkAt toolStarts t p) (h' : MarkAt toolEnds t q) : p ≠ q := by
  rintro rfl
  obtain ⟨a, ha, hpa⟩ := h
  obtain ⟨b, hb, hpb⟩ := h'
  obtain ⟨hab, hba⟩ := starts_ends_apart a ha b hb
  exact (List.prefix_or_prefix_of_prefix hpa hpb).elim hab hba

theorem MarkAt.append (h : MarkAt ms t p) (u : Bytes) : MarkAt ms (t ++ u) p := by
  obtain ⟨m, hm, hp⟩ := h
  by_cases hle : p ≤ t.length
  · refine ⟨m, hm, ?_⟩
    rw [List.drop_append_of_le_length hle]
    exact hp.trans (List.prefix_append _ _)
  · rw [List.drop_eq_nil_of_le (by omega), List.prefix_nil] at hp
    exact ⟨m, hm, hp ▸ List.nil_prefix⟩

/-- A marker that was not there before ends in what was added. -/
theorem MarkAt.of_append (h : MarkAt ms (t ++ u) p) :
    MarkAt ms t p ∨ ∃ m ∈ ms, m <+: (t ++ u).drop p ∧ t.length < p + m.length := by
  obtain ⟨m, hm, hp⟩ := h
  by_cases hlt : t.length < p + m.length
  · exact Or.inr ⟨m, hm, hp, hlt⟩
  · left
    refine ⟨m, hm, ?_⟩
    rw [List.drop_append_of_le_length (by omega)] at hp
    apply List.prefix_of_prefix_length_le hp (List.prefix_append _ _)
    rw [List.length_drop]
    omega

theorem MarkAt.end_le (hms : ∀ m ∈ ms, m ∈ toolStarts ++ toolEnds) (h : MarkAt ms t p) :
    p + 3 ≤ t.length := by
  obtain ⟨m, hm, hp⟩ := h
  have hlen := hp.length_le
  have htag := (toolMarks_tags m (hms m hm)).1.2.2.1
  rw [List.length_drop] at hlen
  omega

theorem getElem?_of_prefix {m s : Bytes} (h : m <+: s.drop p) {i : ℕ} (hi : i < m.length) :
    m[i]? = s[p + i]? := by
  obtain ⟨rest, hrest⟩ := h
  have hdrop : (s.drop p)[i]? = s[p + i]? := List.getElem?_drop
  rw [← hdrop, ← hrest, List.getElem?_append_left hi]

/-- A marker does not begin inside another one. -/
theorem marks_disjoint {m m' : Bytes} (hm : Dsml.IsTag m) (hm' : Dsml.IsTag m')
    (h : m <+: t.drop p) (h' : m' <+: t.drop q) (hpq : p < q) : p + m.length ≤ q := by
  by_contra hlt
  obtain ⟨x, rfl, hx⟩ := hm.cons
  obtain ⟨y, rfl, -⟩ := hm'.cons
  have hhead := getElem?_of_prefix h' (i := 0) (by simp)
  have hin := getElem?_of_prefix h (i := q - p) (by omega)
  rw [Nat.add_zero] at hhead
  rw [Nat.add_sub_cancel' hpq.le, ← hhead] at hin
  obtain ⟨k, hk⟩ : ∃ k, q - p = k + 1 := ⟨q - p - 1, by omega⟩
  rw [hk, List.getElem?_cons_succ, List.getElem?_cons_zero] at hin
  exact hx (List.mem_of_getElem? hin)

/-- A closing tag does not end inside a marker. -/
theorem mark_behind_close {m : Bytes} (hm : Dsml.IsTag m) (h : m <+: t.drop p) (hc : c ≤ t.length)
    (hclose : Chat.thinkClose <:+ t.take c) (hlt : c < p + m.length) : c ≤ p := by
  by_contra hpc
  obtain ⟨x, hx⟩ := hclose
  have hlen := congrArg List.length hx
  have h8 : Chat.thinkClose.length = 8 := by decide
  rw [List.length_append, List.length_take, h8] at hlen
  have hlast : t[c - 1]? = some 62 := by
    have htake : (t.take c)[c - 1]? = t[c - 1]? := List.getElem?_take_of_lt (by omega)
    rw [← htake, ← hx, List.getElem?_append_right (by omega)]
    have hidx : c - 1 - x.length = 7 := by omega
    rw [hidx]
    decide
  have hin := getElem?_of_prefix h (i := c - 1 - p) (by omega)
  rw [show p + (c - 1 - p) = c - 1 by omega, hlast] at hin
  have hmem : 62 ∈ m.dropLast := by
    apply List.mem_of_getElem? (i := c - 1 - p)
    rw [List.getElem?_dropLast, if_pos (by omega)]
    exact hin
  exact hm.2.2.2.1 hmem

end Marks

section Observe
variable {ms : List Bytes} {t : Bytes} {start : ℕ} {seen : MarkersSeen}

theorem markAt_drop :
    (∃ p, start ≤ p ∧ MarkAt ms t p) ↔ ∃ m ∈ ms, m <:+: t.drop start := by
  constructor
  · rintro ⟨p, hp, m, hm, hpre⟩
    refine ⟨m, hm, ?_⟩
    rw [infix_iff_drop]
    refine ⟨p - start, ?_⟩
    rwa [List.drop_drop, Nat.add_sub_cancel' hp]
  · rintro ⟨m, hm, hin⟩
    obtain ⟨j, hj⟩ := infix_iff_drop.1 hin
    rw [List.drop_drop] at hj
    exact ⟨start + j, Nat.le_add_right _ _, m, hm, hj⟩

theorem firstOf_drop_none (hnul : 0 ∉ t) (ms : List Bytes) (start : ℕ) :
    firstOf ms (cstr (t.drop start)) = none ↔ ¬ ∃ p, start ≤ p ∧ MarkAt ms t p := by
  rw [cstr_eq_self fun h => hnul (List.mem_of_mem_drop h), firstOf_none, markAt_drop]
  push Not
  rfl

/-- The first marker of a part of the text. -/
theorem firstOf_drop_some (hnul : 0 ∉ t) {r : ℕ × Bytes}
    (h : firstOf ms (cstr (t.drop start)) = some r) :
    MarkAt ms t (start + r.1) ∧ ∀ p, start ≤ p → MarkAt ms t p → start + r.1 ≤ p := by
  rw [cstr_eq_self fun hmem => hnul (List.mem_of_mem_drop hmem)] at h
  have hfirst := @firstOf_some _ _ r.2 _ _ r.1 h
  constructor
  · obtain ⟨hfind, xs, ys, hms, -⟩ := hfirst
    refine ⟨r.2, by rw [hms]; simp, ?_⟩
    rw [← List.drop_drop]
    exact (find_some hfind).1
  · rintro p hp ⟨m, hm, hpre⟩
    by_contra hlt
    apply hfirst.least m hm (p - start) (by omega)
    rwa [List.drop_drop, Nat.add_sub_cancel' hp]

theorem observe_start (hnul : 0 ∉ t) :
    (observeToolMarkers (t.drop start) seen).start = true ↔
      seen.start = true ∨ ∃ p, start ≤ p ∧ MarkAt toolStarts t p := by
  have hnone := firstOf_drop_none hnul toolStarts start
  show (seen.start || (findAnyToolStart (t.drop start)).isSome) = true ↔ _
  rw [Bool.or_eq_true]
  apply or_congr Iff.rfl
  unfold findAnyToolStart
  rw [Option.isSome_map, ← not_iff_not, ← hnone]
  simp

/-- Where a start was seen before, any end marker ends the block; else only one behind the first
start marker does. -/
theorem observe_stop (hnul : 0 ∉ t) (hstop : seen.stop = false) :
    (observeToolMarkers (t.drop start) seen).stop = true ↔
      if seen.start then ∃ q, start ≤ q ∧ MarkAt toolEnds t q
      else ∃ p q, start ≤ p ∧ p < q ∧ MarkAt toolStarts t p ∧ MarkAt toolEnds t q := by
  have hends : ∀ k, (findAnyToolEnd (t.drop k)).isSome = true ↔
      ∃ q, k ≤ q ∧ MarkAt toolEnds t q := by
    intro k
    have hnone := firstOf_drop_none hnul toolEnds k
    unfold findAnyToolEnd
    rw [Option.isSome_map, ← not_iff_not, ← hnone]
    simp
  unfold observeToolMarkers
  simp only [hstop, Bool.false_or]
  cases hseen : seen.start with
  | true =>
    simp only [if_true, Option.bind_some]
    exact hends start
  | false =>
    simp only [Bool.false_eq_true, if_false]
    unfold findAnyToolStart
    cases hfirst : firstOf toolStarts (cstr (t.drop start)) with
    | none =>
      simp only [Option.map_none, Option.bind_none, Option.isSome_none, Bool.false_eq_true,
        false_iff]
      rintro ⟨p, q, hp, -, hmark, -⟩
      exact (firstOf_drop_none hnul _ _).1 hfirst ⟨p, hp, hmark⟩
    | some r =>
      obtain ⟨hmark, hleast⟩ := firstOf_drop_some hnul hfirst
      simp only [Option.map_some, Option.bind_some]
      rw [List.drop_drop, hends]
      constructor
      · rintro ⟨q, hq, hend⟩
        exact ⟨start + r.1, q, Nat.le_add_right _ _,
          lt_of_le_of_ne hq (hmark.apart hend), hmark, hend⟩
      · rintro ⟨p, q, hp, hpq, hmarkp, hend⟩
        exact ⟨q, (hleast p hp hmarkp).trans hpq.le, hend⟩

end Observe

end Ds4.Stream
