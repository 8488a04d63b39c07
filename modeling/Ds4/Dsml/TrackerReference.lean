import Ds4.Dsml.TrackerRuns

/-! The tracker and the reference recognizer, each compared with the walk over the tool
block. -/
namespace Ds4.Dsml
open Ds4.Search Ds4.Resumable

section Fresh
variable {raw : Bytes} {syn : DsmlSyntax} {n : ℕ} {r : Stop TrackPoint Empty DsmlDecodeState}

theorem drop_tail {c : UInt8} {v : Bytes} {pos : ℕ} (h : raw.drop pos = c :: v) :
    raw.drop (pos + 1) = v := by
  rw [← List.drop_drop, h, List.drop_one, List.tail_cons]

/-- Behind a string value that begins at `pos`. -/
theorem runs_stringBody {v : Bytes} {pos : ℕ} (hv : raw.drop pos = v)
    (ih : ∀ p' > pos, ∀ r', trackMachine.Runs raw ⟨.structural syn, p'⟩ r' →
      r'.verdict = blockState syn n (raw.drop p'))
    (h : trackMachine.Runs raw ⟨.stringBody syn, pos⟩ r) :
    r.verdict = match find syn.paramEnd v with
      | some k => blockState syn n (v.drop (k + syn.paramEnd.length))
      | none => if tailHeld syn v then .structural else .stringBody := by
  induction v generalizing pos r with
  | nil =>
    have hle : ¬ pos < raw.length := by
      have := List.drop_eq_nil_iff.mp hv
      omega
    have hs : trackStep raw ⟨.stringBody syn, pos⟩ = .wait ⟨.stringBody syn, pos⟩ .stringBody := by
      simp only [trackStep, if_neg hle]
    rw [h.unique (.wait hs)]
    simp [find, syn.paramEnd_tag.ne_nil, tailHeld]
  | cons c v ihv =>
    have hlt : pos < raw.length := by
      have := congrArg List.length hv
      rw [List.length_drop, List.length_cons] at this
      omega
    by_cases hend : syn.paramEnd <+: c :: v
    · have hs : trackStep raw ⟨.stringBody syn, pos⟩
          = .go ⟨.structural syn, pos + syn.paramEnd.length⟩ [] := by
        simp only [trackStep, if_pos hlt, hv, if_pos hend]
      obtain ⟨r', hr, rfl⟩ := h.of_go hs
      have := syn.paramEnd_tag.2.2.1
      simp only [ih _ (by omega) _ hr, find_prefix hend, ← List.drop_drop, hv, Nat.zero_add]
    · by_cases hheld : Held syn (c :: v)
      · have hs : trackStep raw ⟨.stringBody syn, pos⟩
            = .wait ⟨.stringBody syn, pos⟩ .structural := by
          simp only [trackStep, if_pos hlt, hv, if_neg hend]
          rw [if_pos (rawPartialLitMin_iff.mpr (hv.symm ▸ hheld))]
        have hnone : find syn.paramEnd (c :: v) = none :=
          find_eq_none_iff.mpr fun j _ => not_prefix_behind_held hheld j
        rw [h.unique (.wait hs), hnone]
        simp [tailHeld, hheld]
      · have hs : trackStep raw ⟨.stringBody syn, pos⟩
            = .go ⟨.stringBody syn, pos + 1⟩ [] := by
          simp only [trackStep, if_pos hlt, hv, if_neg hend]
          rw [if_neg fun he => hheld (hv ▸ rawPartialLitMin_iff.mp he)]
        obtain ⟨r', hr, rfl⟩ := h.of_go hs
        have hnext := ihv (drop_tail hv) (fun p' hp' => ih p' (by omega)) hr
        simp only [hnext, find, if_neg hend, tailHeld, hheld, decide_false, Bool.false_or]
        cases find syn.paramEnd v with
        | none => rfl
        | some k => simp [show k + 1 + syn.paramEnd.length = (k + syn.paramEnd.length) + 1 by omega]

/-- Behind a JSON value that begins at `pos`. -/
theorem runs_jsonParam {v : Bytes} {pos : ℕ} {inString escaped : Bool} (hv : raw.drop pos = v)
    (ih : ∀ p' > pos, ∀ r', trackMachine.Runs raw ⟨.structural syn, p'⟩ r' →
      r'.verdict = blockState syn n (raw.drop p'))
    (h : trackMachine.Runs raw ⟨.jsonParam syn inString escaped, pos⟩ r) :
    r.verdict = match jsonScan syn inString escaped v with
      | (k, .closed) => blockState syn n (v.drop (k + syn.paramEnd.length))
      | (_, .held) => .structural
      | (_, .cut s) => if s then .jsonString else .jsonStructural := by
  induction v generalizing pos inString escaped r with
  | nil =>
    have hs : trackStep raw ⟨.jsonParam syn inString escaped, pos⟩
        = .wait ⟨.jsonParam syn inString escaped, pos⟩
          (if inString then .jsonString else .jsonStructural) := by
      simp only [trackStep, hv]
    rw [h.unique (.wait hs)]
    rfl
  | cons c v ihv =>
    by_cases hend : inString = false ∧ syn.paramEnd <+: c :: v
    · have hs : trackStep raw ⟨.jsonParam syn inString escaped, pos⟩
          = .go ⟨.structural syn, pos + syn.paramEnd.length⟩ [] := by
        simp only [trackStep, hv, if_pos hend]
      obtain ⟨r', hr, rfl⟩ := h.of_go hs
      have := syn.paramEnd_tag.2.2.1
      simp only [ih _ (by omega) _ hr, ← List.drop_drop, hv, jsonScan, if_pos hend, Nat.zero_add]
    · by_cases hheld : inString = false ∧ Held syn (c :: v)
      · have hs : trackStep raw ⟨.jsonParam syn inString escaped, pos⟩
            = .wait ⟨.jsonParam syn inString escaped, pos⟩ .structural := by
          simp only [trackStep, hv, if_neg hend]
          rw [if_pos ⟨hheld.1, rawPartialLitMin_iff.mpr (hv.symm ▸ hheld.2)⟩]
        rw [h.unique (.wait hs)]
        simp only [jsonScan, if_neg hend, if_pos hheld]
      · have hs : trackStep raw ⟨.jsonParam syn inString escaped, pos⟩
            = .go ⟨.jsonParam syn (jsonAdvance inString escaped c).1
                (jsonAdvance inString escaped c).2, pos + 1⟩ [] := by
          simp only [trackStep, hv, if_neg hend]
          rw [if_neg fun he => hheld ⟨he.1, hv ▸ rawPartialLitMin_iff.mp he.2⟩]
        obtain ⟨r', hr, rfl⟩ := h.of_go hs
        have hnext := ihv (drop_tail hv) (fun p' hp' => ih p' (by omega)) hr
        simp only [hnext, jsonScan, if_neg hend, if_neg hheld]
        generalize jsonScan syn _ _ v = e
        obtain ⟨k, e⟩ := e
        cases e with
        | closed =>
          simp [show k + 1 + syn.paramEnd.length = (k + syn.paramEnd.length) + 1 by omega]
        | held => rfl
        | cut s => rfl

theorem skipAsciiWs_cons {c : UInt8} {t : Bytes} (h : isSpace c = true) :
    skipAsciiWs (c :: t) = skipAsciiWs t := by
  simp [skipAsciiWs, h]

theorem blockState_skip {c : UInt8} {t : Bytes} (h : isSpace c = true) :
    blockState syn (n + 1) (c :: t) = blockState syn (n + 1) t := by
  simp only [blockState, blockItem, skipAsciiWs_cons h]

/-- What the tracker does with the item that stands at `pos`. -/
def Takes (raw : Bytes) (syn : DsmlSyntax) (pos : ℕ) : Item → Prop
  | .stop state => ∃ w, trackStep raw ⟨.structural syn, pos⟩ = .wait w state
  | .tag rest => ∃ p > pos, raw.drop p = rest ∧
      trackStep raw ⟨.structural syn, pos⟩ = .go ⟨.structural syn, p⟩ []
  | .text v => ∃ p > pos, raw.drop p = v ∧
      trackStep raw ⟨.structural syn, pos⟩ = .go ⟨.stringBody syn, p⟩ []
  | .json v => ∃ p > pos, raw.drop p = v ∧
      trackStep raw ⟨.structural syn, pos⟩ = .go ⟨.jsonParam syn false false, p⟩ []

theorem takes_item (syn : DsmlSyntax) {c : UInt8} {v : Bytes} {pos : ℕ}
    (hv : raw.drop pos = c :: v) (hws : ¬ isSpace c = true) :
    Takes raw syn pos (blockItem syn (c :: v)) := by
  have hskip : skipAsciiWs (c :: v) = c :: v := by simp [skipAsciiWs, hws]
  have hdrop : ∀ m, raw.drop (pos + m) = (c :: v).drop m := fun m => by rw [← List.drop_drop, hv]
  simp only [blockItem, hskip]
  rw [if_neg (List.cons_ne_nil c v)]
  split_ifs with htools hinvoke hstart hparam
  · exact ⟨_, by simp only [trackStep, hv, if_neg hws, if_pos htools]; rfl⟩
  · refine ⟨pos + syn.invokeEnd.length, ?_, hdrop _, ?_⟩
    · have := syn.invokeEnd_tag.2.2.1
      omega
    · simp only [trackStep, hv, if_neg hws, if_neg htools, if_pos hinvoke]
  · cases hf : find [62] (c :: v) with
    | none =>
      exact ⟨_, by simp only [trackStep, hv, if_neg hws, if_neg htools, if_neg hinvoke,
        if_pos hstart, hf]; rfl⟩
    | some i =>
      refine ⟨pos + i + 1, by omega, hdrop (i + 1), ?_⟩
      simp only [trackStep, hv, if_neg hws, if_neg htools, if_neg hinvoke, if_pos hstart, hf]
  · cases hf : find [62] (c :: v) with
    | none =>
      exact ⟨_, by simp only [trackStep, hv, if_neg hws, if_neg htools, if_neg hinvoke,
        if_neg hstart, if_pos hparam, hf]; rfl⟩
    | some i =>
      dsimp only
      split_ifs with hstring
      · refine ⟨pos + i + 1, by omega, hdrop (i + 1), ?_⟩
        simp only [trackStep, hv, if_neg hws, if_neg htools, if_neg hinvoke, if_neg hstart,
          if_pos hparam, hf, if_pos hstring]
      · refine ⟨pos + i + 1, by omega, hdrop (i + 1), ?_⟩
        simp only [trackStep, hv, if_neg hws, if_neg htools, if_neg hinvoke, if_neg hstart,
          if_pos hparam, hf, if_neg hstring]
  · exact ⟨_, by simp only [trackStep, hv, if_neg hws, if_neg htools, if_neg hinvoke,
      if_neg hstart, if_neg hparam]; rfl⟩

/-- A fresh run inside a block reaches the state that the walk leads to. -/
theorem runs_structural {k pos : ℕ} (hk : raw.length - pos = k) (hn : k < n)
    (h : trackMachine.Runs raw ⟨.structural syn, pos⟩ r) :
    r.verdict = blockState syn n (raw.drop pos) := by
  induction k using Nat.strong_induction_on generalizing pos n r with
  | _ k ih =>
    obtain ⟨n, rfl⟩ : ∃ j, n = j + 1 := ⟨n - 1, by omega⟩
    cases hv : raw.drop pos with
    | nil =>
      have hs : trackStep raw ⟨.structural syn, pos⟩ =
        .wait ⟨.structural syn, pos⟩ .structural := by
        simp only [trackStep, hv]
      rw [h.unique (.wait hs)]
      simp [blockState, blockItem, skipAsciiWs]
    | cons c v =>
      have hpos : pos < raw.length := by
        have := congrArg List.length hv
        rw [List.length_drop, List.length_cons] at this
        omega
      -- a step that goes on has read something, so one item less is enough behind it
      have hnext : ∀ p' > pos, ∀ r', trackMachine.Runs raw ⟨.structural syn, p'⟩ r' →
          r'.verdict = blockState syn n (raw.drop p') := fun p' hp' r' hr =>
        ih _ (by omega) rfl (by omega) hr
      by_cases hws : isSpace c = true
      · have hs : trackStep raw ⟨.structural syn, pos⟩ = .go ⟨.structural syn, pos + 1⟩ [] := by
          simp only [trackStep, hv, if_pos hws]
        obtain ⟨r', hr, rfl⟩ := h.of_go hs
        rw [blockState_skip hws, ← drop_tail hv]
        exact ih _ (by omega) rfl (by omega) hr
      · have htakes := takes_item syn hv hws
        simp only [blockState]
        cases hitem : blockItem syn (c :: v) with
        | stop state =>
          rw [hitem] at htakes
          obtain ⟨w, hs⟩ := htakes
          rw [h.unique (.wait hs)]
        | tag rest =>
          rw [hitem] at htakes
          obtain ⟨p, hp, rfl, hs⟩ := htakes
          obtain ⟨r', hr, rfl⟩ := h.of_go hs
          exact hnext p hp r' hr
        | text t =>
          rw [hitem] at htakes
          obtain ⟨p, hp, hpt, hs⟩ := htakes
          obtain ⟨r', hr, rfl⟩ := h.of_go hs
          exact runs_stringBody hpt (fun p' hp' => hnext p' (by omega)) hr
        | json t =>
          rw [hitem] at htakes
          obtain ⟨p, hp, hpt, hs⟩ := htakes
          obtain ⟨r', hr, rfl⟩ := h.of_go hs
          exact runs_jsonParam hpt (fun p' hp' => hnext p' (by omega)) hr

/-- The decode state of a text by the walk over its first tool block. -/
def textState (raw : Bytes) : DsmlDecodeState :=
  match dsmlFindToolStart raw with
  | none => .outside
  | some (pos, syn) => blockState syn (raw.length + 1) (raw.drop pos)

theorem runs_search (h : trackMachine.Runs raw ⟨.search, 0⟩ r) : r.verdict = textState raw := by
  have hfrom : dsmlFindToolStartFrom raw 0 = dsmlFindToolStart raw :=
    dsmlFindToolStartFrom_eq (by simp)
  unfold textState
  cases hf : dsmlFindToolStart raw with
  | none =>
    have hs : trackStep raw ⟨.search, 0⟩
        = .wait ⟨.search, raw.length - dsmlMaxToolStartLen⟩ .outside := by
      simp only [trackStep, hfrom, hf]
    rw [h.unique (.wait hs)]
  | some x =>
    have hs : trackStep raw ⟨.search, 0⟩ = .go ⟨.structural x.2, x.1⟩ [] := by
      simp only [trackStep, hfrom, hf]
    obtain ⟨r', hr, rfl⟩ := h.of_go hs
    exact runs_structural rfl (by omega) hr

end Fresh

section Reference
variable {raw : Bytes} {syn : DsmlSyntax} {n pos : ℕ}

theorem tailHeld_iff {v : Bytes} : tailHeld syn v = true ↔
    ∃ t, t <:+ v ∧ Held syn t := by
  induction v with
  | nil =>
    simp only [tailHeld, Bool.false_eq_true, List.suffix_nil, exists_eq_left, false_iff]
    exact fun h => absurd h.1 (by simp)
  | cons c v ih =>
    simp only [tailHeld, Bool.or_eq_true, decide_eq_true_eq, ih, List.suffix_cons_iff]
    constructor
    · rintro (h | ⟨t, ht, h⟩)
      · exact ⟨_, Or.inl rfl, h⟩
      · exact ⟨t, Or.inr ht, h⟩
    · rintro ⟨t, rfl | ht, h⟩
      · exact Or.inl h
      · exact Or.inr ⟨t, ht, h⟩

theorem rawSuffixPartialLit_iff : rawSuffixPartialLit raw syn.paramEnd 2 = true ↔
    ∃ t, t <:+ raw ∧ Held syn t := by
  have h2 := syn.paramEnd_tag.2.2.1
  simp only [rawSuffixPartialLit, List.any_eq_true, List.mem_range, Bool.and_eq_true,
    decide_eq_true_eq]
  constructor
  · rintro ⟨n, hn, hmin, heq⟩
    have hle : n ≤ raw.length ∧ n < syn.paramEnd.length := by
      split_ifs at hn <;> omega
    refine ⟨_, List.drop_suffix (raw.length - n) raw, ?_, ?_, heq ▸ List.take_prefix _ _⟩ <;>
      rw [List.length_drop] <;> omega
  · rintro ⟨t, ht, hmin, hlt, hpre⟩
    have hle := ht.length_le
    refine ⟨t.length, by split_ifs <;> omega, hmin, ?_⟩
    rw [← List.suffix_iff_eq_drop.mp ht, ← List.prefix_iff_eq_take.mp hpre]

theorem Held.notMem {t : Bytes} (h : Held syn t) : 62 ∉ t := fun hm => by
  have hpre : t <+: syn.paramEnd.dropLast := by
    refine List.prefix_of_prefix_length_le h.2.2 (List.dropLast_prefix _) ?_
    have := h.2.1
    rw [List.length_dropLast]
    omega
  exact syn.paramEnd_tag.2.2.2.1 (hpre.subset hm)

/-- Behind a tag, a begun closing tag at the end of the text lies in what follows the tag. -/
theorem rawSuffixPartialLit_behind (a v : Bytes) :
    rawSuffixPartialLit (a ++ 62 :: v) syn.paramEnd 2 = tailHeld syn v := by
  rw [Bool.eq_iff_iff, rawSuffixPartialLit_iff, tailHeld_iff]
  constructor
  · rintro ⟨t, ht, hheld⟩
    refine ⟨t, ?_, hheld⟩
    rcases List.suffix_or_suffix_of_suffix ht (List.suffix_append a (62 :: v)) with hs | hs
    · rcases List.suffix_cons_iff.mp hs with rfl | hs
      · exact absurd List.mem_cons_self hheld.notMem
      · exact hs
    · exact absurd (hs.subset List.mem_cons_self) hheld.notMem
  · rintro ⟨t, ht, hheld⟩
    exact ⟨t, ht.trans ((List.suffix_cons 62 v).trans (List.suffix_append a _)), hheld⟩

theorem jsonScan_ends {v : Bytes} {inString escaped : Bool} {k : ℕ} {e : JsonEnd}
    (h : jsonScan syn inString escaped v = (k, e)) :
    (e = .closed → syn.paramEnd <+: v.drop k) ∧ (e = .held → Held syn (v.drop k)) := by
  induction v generalizing inString escaped k with
  | nil =>
    obtain ⟨-, rfl⟩ := Prod.mk.inj h
    exact ⟨by simp, by simp⟩
  | cons c v ih =>
    simp only [jsonScan] at h
    split_ifs at h with hend hheld
    · obtain ⟨rfl, rfl⟩ := Prod.mk.inj h
      exact ⟨fun _ => hend.2, by simp⟩
    · obtain ⟨rfl, rfl⟩ := Prod.mk.inj h
      exact ⟨by simp, fun _ => hheld.2⟩
    · obtain ⟨rfl, rfl⟩ := Prod.mk.inj h
      exact ih rfl

theorem scan_of_held {t : Bytes} (hsuf : rawSuffixPartialLit raw syn.paramEnd 2 = true)
    (hend : ∀ j, ¬ syn.paramEnd <+: t.drop j) (hq : 34 ∉ t) (escaped : Bool) :
    dsmlDecodeScanJsonParam raw syn false escaped t = .structural := by
  induction t generalizing escaped with
  | nil => simp [dsmlDecodeScanJsonParam, hsuf]
  | cons c t ih =>
    have hc : c ≠ 34 := fun hc => hq (hc ▸ List.mem_cons_self)
    have hadv : jsonAdvance false escaped c = (false, escaped) := by simp [jsonAdvance, hc]
    simp only [dsmlDecodeScanJsonParam, hadv]
    rw [if_neg fun he => hend 0 he.2]
    exact ih (fun j => hend (j + 1)) (fun hm => hq (List.mem_cons_of_mem _ hm)) escaped

/-- The reference's verdict on a JSON value by how the value ends. -/
def jsonVerdict (suffixHeld : Bool) : JsonEnd → DsmlDecodeState
  | .closed => .structural
  | .held => .structural
  | .cut true => .jsonString
  | .cut false => if suffixHeld then .structural else .jsonStructural

theorem scan_eq_verdict {v : Bytes} {inString escaped : Bool} (hv : v <:+ raw) :
    dsmlDecodeScanJsonParam raw syn inString escaped v =
      jsonVerdict (rawSuffixPartialLit raw syn.paramEnd 2) (jsonScan syn inString escaped v).2 := by
  induction v generalizing inString escaped with
  | nil => cases inString <;> simp [dsmlDecodeScanJsonParam, jsonScan, jsonVerdict]
  | cons c v ih =>
    simp only [jsonScan]
    split_ifs with hend hheld
    · simp only [dsmlDecodeScanJsonParam, if_pos hend, jsonVerdict]
    · obtain ⟨rfl, hheld⟩ := hheld
      exact scan_of_held (rawSuffixPartialLit_iff.mpr ⟨_, hv, hheld⟩)
        (not_prefix_behind_held hheld) (quote_notMem_held hheld) escaped
    · simp only [dsmlDecodeScanJsonParam, if_neg hend]
      exact ih ((List.suffix_cons c v).trans hv)

/-- Behind its tag a JSON value is scanned as the walk scans it. -/
theorem scan_behind {a v : Bytes} (hraw : raw = a ++ 62 :: v) :
    dsmlDecodeScanJsonParam raw syn false false v =
      jsonVerdict false (jsonScan syn false false v).2 := by
  have hsuf : v <:+ raw := hraw ▸ (List.suffix_cons 62 v).trans (List.suffix_append a _)
  rw [scan_eq_verdict hsuf]
  cases he : (jsonScan syn false false v).2 with
  | closed => rfl
  | held => rfl
  | cut inString =>
    cases inString with
    | true => rfl
    | false => rw [hraw, rawSuffixPartialLit_behind, tailHeld_of_cut he]

theorem find_of_closesFirst {v : Bytes} {k : ℕ} (hfirst : ClosesFirst syn v) :
    (jsonScan syn false false v = (k, .closed) → find syn.paramEnd v = some k) ∧
      (jsonScan syn false false v = (k, .held) → find syn.paramEnd v = none) := by
  constructor
  · intro he
    rw [ClosesFirst, he] at hfirst
    replace hfirst := hfirst.resolve_left (by simp [JsonEnd.isCut])
    have hend := (jsonScan_ends he).1 rfl
    refine find_eq_some_iff.mpr ⟨⟨hend, ?_⟩, hfirst⟩
    have := syn.paramEnd_tag.2.2.1
    have hlen := hend.length_le
    rw [List.length_drop] at hlen
    omega
  · intro he
    rw [ClosesFirst, he] at hfirst
    replace hfirst := hfirst.resolve_left (by simp [JsonEnd.isCut])
    have hheld := (jsonScan_ends he).2 rfl
    refine find_eq_none_iff.mpr fun j _ => ?_
    by_cases hj : j < k
    · exact hfirst j hj
    · have := not_prefix_behind_held hheld (j - k)
      rwa [List.drop_drop, show k + (j - k) = j by omega] at this

theorem drop_skipAsciiWs (t : Bytes) : t.drop (t.takeWhile isSpace).length = skipAsciiWs t := by
  conv_lhs => arg 2; rw [← List.takeWhile_append_dropWhile (p := isSpace) (l := t)]
  rw [List.drop_left]
  rfl

/-- The byte found in front of a position. -/
theorem behind_of_find {t : Bytes} {i : ℕ} (h : find [62] t = some i) :
    ∃ a, t = a ++ 62 :: t.drop (i + 1) := by
  obtain ⟨x, hx⟩ := (find_some h).1
  refine ⟨t.take i, ?_⟩
  conv_lhs => rw [← List.take_append_drop i t]
  rw [← List.drop_drop, ← hx]
  rfl

/-- The reference follows the walk where no JSON value hides a closing tag in a string. -/
theorem dsmlDecodeLoop_eq (h : ∀ v ∈ jsonValues syn n (raw.drop pos), ClosesFirst syn v) :
    dsmlDecodeLoop raw syn n pos = blockState syn n (raw.drop pos) := by
  induction n generalizing pos with
  | zero => rfl
  | succ n ih =>
    have hrest : raw.drop (pos + ((raw.drop pos).takeWhile isSpace).length)
        = skipAsciiWs (raw.drop pos) := by
      rw [← List.drop_drop, drop_skipAsciiWs]
    generalize hp : pos + ((raw.drop pos).takeWhile isSpace).length = p at hrest
    have hdrop : ∀ m, raw.drop (p + m) = (skipAsciiWs (raw.drop pos)).drop m := fun m => by
      rw [← List.drop_drop, hrest]
    simp only [jsonValues, blockItem] at h
    simp only [dsmlDecodeLoop, blockState, blockItem, hp, hrest]
    generalize skipAsciiWs (raw.drop pos) = t at h hrest hdrop ⊢
    by_cases hnil : t = []
    · simp only [if_pos hnil]
    by_cases htools : syn.toolCallsEnd <+: t
    · simp only [if_neg hnil, if_pos htools]
    by_cases hinvoke : syn.invokeEnd <+: t
    · simp only [if_neg hnil, if_neg htools, if_pos hinvoke, ← hdrop] at h ⊢
      exact ih h
    simp only [if_neg hnil, if_neg htools, if_neg hinvoke] at h ⊢
    by_cases hstart : syn.invokeStart <+: t
    · simp only [if_pos hstart] at h ⊢
      cases hf : find [62] t with
      | none => rfl
      | some i =>
        simp only [hf, ← hdrop] at h ⊢
        exact ih h
    by_cases hparam : syn.paramStart <+: t
    · simp only [if_neg hstart, if_pos hparam] at h ⊢
      cases hf : find [62] t with
      | none => rfl
      | some i =>
        simp only [hf] at h ⊢
        obtain ⟨a, ha⟩ : ∃ a, raw = a ++ 62 :: t.drop (i + 1) := by
          obtain ⟨a, ha⟩ := behind_of_find hf
          refine ⟨raw.take p ++ a, ?_⟩
          rw [List.append_assoc, ← ha, ← hrest, List.take_append_drop]
        rw [show p + i + 1 = p + (i + 1) by omega, hdrop (i + 1)]
        generalize hv : t.drop (i + 1) = v at h ha ⊢
        have hbehind : ∀ m, raw.drop (p + (i + 1) + m) = v.drop m := fun m => by
          rw [← List.drop_drop, hdrop, hv]
        by_cases hstring : dsmlAttrIsStringTrue (t.take (i + 1)) = true
        · simp only [if_pos hstring] at h ⊢
          cases hk : find syn.paramEnd v with
          | none => simp only [ha, rawSuffixPartialLit_behind]
          | some k =>
            simp only [hk, ← hbehind] at h ⊢
            rw [Nat.add_assoc _ k]
            exact ih h
        · simp only [if_neg hstring, List.mem_cons, forall_eq_or_imp] at h ⊢
          obtain ⟨hfirst, h⟩ := h
          rw [scan_behind ha]
          cases he : jsonScan syn false false v with
          | mk k e =>
            cases e with
            | closed =>
              simp only [he, ← hbehind] at h
              simp only [jsonVerdict, ↓reduceIte, (find_of_closesFirst hfirst).1 he, ← hbehind]
              rw [Nat.add_assoc _ k]
              exact ih h
            | held => simp only [jsonVerdict, ↓reduceIte, (find_of_closesFirst hfirst).2 he]
            | cut inString => cases inString <;> simp [jsonVerdict]
    · simp only [if_neg hstart, if_neg hparam]

/-- The JSON values of a text's first tool block. -/
def textJsonValues (raw : Bytes) : List (DsmlSyntax × Bytes) :=
  match dsmlFindToolStart raw with
  | none => []
  | some (pos, syn) => (jsonValues syn (raw.length + 1) (raw.drop pos)).map fun v => (syn, v)

theorem dsmlDecodeStateForText_eq (h : ∀ v ∈ textJsonValues raw, ClosesFirst v.1 v.2) :
    dsmlDecodeStateForText raw = textState raw := by
  unfold textJsonValues at h
  unfold dsmlDecodeStateForText textState
  cases hf : dsmlFindToolStart raw with
  | none => rfl
  | some x =>
    simp only [hf] at h
    exact dsmlDecodeLoop_eq fun v hv => h (x.2, v) (List.mem_map_of_mem hv)

end Reference

section Runs
variable {q : Bytes} {dt : DsmlDecodeTracker}

/-- The trackers reached by updates with growing texts, each of which meets `Ok`. -/
inductive TrackerRun (Ok : TrackPoint → Bytes → Prop) : Bytes → DsmlDecodeTracker → Prop
  | init : TrackerRun Ok [] dsmlDecodeTrackerInit
  | update {p q dt} : TrackerRun Ok p dt → p <+: q → Ok dt.point q →
      TrackerRun Ok q (dsmlDecodeTrackerUpdate dt q)

/-- A tracker whose updates are cut well stands where a fresh run would stand. -/
theorem TrackerRun.fresh (h : TrackerRun CutOk q dt) :
    trackMachine.Runs q ⟨.search, 0⟩ ⟨dt.point, [], dt.decode⟩ := by
  induction h with
  | init => exact .wait rfl
  | update _ hq hcut ih => exact resume_update hq hcut ih (update_runs _ _)

/-- In a run of which no update is cut behind the `<` of a closing tag, the tracker holds the
reference's decode state on each text of which no JSON value hides a closing tag. -/
theorem tracker_eq_reference (h : TrackerRun CutOk q dt)
    (hvalues : ∀ v ∈ textJsonValues q, ClosesFirst v.1 v.2) :
    dt.decode = dsmlDecodeStateForText q := by
  have hfresh := runs_search h.fresh
  rw [dsmlDecodeStateForText_eq hvalues]
  exact hfresh

/-- A JSON value whose closing tag has begun with `</par`. -/
def begunCall : Bytes :=
  lit "<tool_calls><invoke name=\"a\"><parameter name=\"x\">\"<\"</par"

theorem begunCall_agrees :
    (dsmlDecodeTrackerUpdate
        (dsmlDecodeTrackerUpdate dsmlDecodeTrackerInit (begunCall.take 54)) begunCall).decode
      = dsmlDecodeStateForText begunCall := by
  have hpoint : (dsmlDecodeTrackerUpdate dsmlDecodeTrackerInit (begunCall.take 54)).point
      = ⟨.jsonParam dsmlPlain false false, 52⟩ := by decide
  refine tracker_eq_reference (.update (.update .init (List.nil_prefix) ?_)
    (List.take_prefix 54 begunCall) ?_) (by decide)
  · intro syn hsyn
    simp [dsmlDecodeTrackerInit] at hsyn
  · intro syn hsyn
    rw [hpoint] at hsyn ⊢
    obtain rfl : dsmlPlain = syn := by simpa using hsyn
    decide

/-- A string value behind whose `v<` the text is cut. -/
def cutCall : Bytes :=
  lit "<tool_calls><invoke name=\"a\"><parameter name=\"x\" string=\"true\">v</parameter>"

/-- The tracker has gone past the `<` and misses the closing tag. -/
theorem cutCall_disagrees :
    ¬ ∀ q dt, TrackerRun (fun _ _ => True) q dt → dt.decode = dsmlDecodeStateForText q := by
  intro h
  have := h _ _ (.update (.update .init (List.nil_prefix) trivial)
    (List.take_prefix 65 cutCall) trivial)
  revert this
  decide

end Runs

end Ds4.Dsml
