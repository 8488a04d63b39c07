import Ds4.Prefill.Schedule
import Ds4.Parts.Ring

/-! The ring of raw rows over the runs of a session: chunks of a prefill, decoded tokens and
rows that a speculative suffix leaves behind the accepted frontier. -/
namespace Ds4.Prefill

open Parts (Extent Ring)

/-- The rows that a batch attends to, where the ring is large enough. -/
def rawSpanWanted (g : Graph) (pos0 nTokens : ℕ) : ℕ :=
  min (nTokens + if nTokens = 1 then g.rawWindow - 1 else g.rawWindow) (pos0 + nTokens)

/-- `metal_graph_raw_span_for_batch`. -/
def rawSpanForBatch (g : Graph) (pos0 nTokens : ℕ) : ℕ :=
  if nTokens = 0 then 0 else min (rawSpanWanted g pos0 nTokens) g.rawCap

/-- A session: the raw ring of a layer, and the number of accepted tokens. -/
structure Session where
  ring : Ring
  frontier : ℕ

def Session.fresh : Session := ⟨fun _ => none, 0⟩

/-- What a session may do, with prompts of at most `limit` tokens and at most `drafts` tokens of
a speculative suffix. The rows of a batch are stored in the order of their positions. -/
inductive Step (g : Graph) (limit drafts : ℕ) : Session → Session → Prop
  | restart (s : Session) : Step g limit drafts s .fresh
  | chunk (s : Session) (start nTokens : ℕ) (c : Extent)
      (hc : c ∈ chunkLoop g start (start + nTokens) start) (hlimit : start + nTokens ≤ limit)
      (hfrontier : c.off = s.frontier) :
      Step g limit drafts s ⟨Ring.storeRun g.rawCap s.ring c.off c.bytes, c.off + c.bytes⟩
  | token (s : Session) (hprompt : 0 < s.frontier) (hlimit : s.frontier ≤ limit) :
      Step g limit drafts s
        ⟨Ring.storeRun g.rawCap s.ring s.frontier 1, s.frontier + 1⟩
  | speculate (s : Session) (k accepted : ℕ) (hprompt : 0 < s.frontier) (hdrafts : k ≤ drafts)
      (hlimit : s.frontier + k ≤ limit) (haccepted : accepted ≤ k) :
      Step g limit drafts s
        ⟨Ring.storeRun g.rawCap s.ring s.frontier k, s.frontier + accepted⟩

abbrev Reachable (g : Graph) (limit drafts : ℕ) : Session → Prop :=
  Relation.ReflTransGen (Step g limit drafts) .fresh

/-- After the chunk's rows are stored, the ring holds the window before it and the chunk, and
its span is not cut. -/
def ChunkHeld (g : Graph) (s : Session) (c : Extent) : Prop :=
  (∀ p, c.off ≤ p + g.rawWindow → p < c.off + c.bytes →
    Ring.Holds g.rawCap (Ring.storeRun g.rawCap s.ring c.off c.bytes) p) ∧
  rawSpanForBatch g c.off c.bytes = rawSpanWanted g c.off c.bytes

/-- The rows of a speculative suffix leave the window of the frontier in the ring. -/
def SuffixHeld (g : Graph) (s : Session) (k : ℕ) : Prop :=
  ∀ p, s.frontier ≤ p + g.rawWindow → p < s.frontier →
    Ring.Holds g.rawCap (Ring.storeRun g.rawCap s.ring s.frontier k) p

/-- In every state that a session reaches, each chunk that takes the batched ring path and each
speculative suffix find and leave what attention reads. -/
def RingAlwaysHolds (g : Graph) (limit drafts : ℕ) : Prop :=
  ∀ s, Reachable g limit drafts s →
    (∀ start nTokens c, c ∈ chunkLoop g start (start + nTokens) start → start + nTokens ≤ limit →
      c.off = s.frontier → 0 < c.off → c.bytes ≤ g.rawCap → ChunkHeld g s c) ∧
    ∀ k, 0 < s.frontier → k ≤ drafts → s.frontier + k ≤ limit → SuffixHeld g s k

/-- The end of the first block that reaches beyond the window. -/
def windowBlocks (g : Graph) : ℕ := (g.rawWindow + g.prefillCap - 1) / g.prefillCap * g.prefillCap

/-- The ring has room for a window and a chunk, or for all positions, or for the blocks up to
the window and what is left behind them. -/
def ChunkFits (g : Graph) (limit : ℕ) : Prop :=
  limit ≤ g.rawCap ∨ g.rawWindow + g.prefillCap ≤ g.rawCap ∨
    (windowBlocks g ≤ g.rawCap ∧ limit + g.rawWindow ≤ windowBlocks g + g.rawCap)

def SuffixFits (g : Graph) (limit drafts : ℕ) : Prop :=
  limit ≤ g.rawCap ∨ g.rawWindow + drafts ≤ g.rawCap

section Held
variable {g : Graph} {limit drafts : ℕ} {s s' : Session}

/-- The rows of the window before the frontier are in the ring. -/
def WindowHeld (g : Graph) (s : Session) : Prop :=
  ∀ p, s.frontier ≤ p + g.rawWindow → p < s.frontier → Ring.Holds g.rawCap s.ring p

/-- Storing a run at the frontier keeps the window exactly if both fit the ring. -/
theorem window_kept (hheld : WindowHeld g s) {n : ℕ}
    (hfits : min s.frontier g.rawWindow + n ≤ g.rawCap) (p : ℕ)
    (hwindow : s.frontier ≤ p + g.rawWindow) (hp : p < s.frontier + n) :
    Ring.Holds g.rawCap (Ring.storeRun g.rawCap s.ring s.frontier n) p := by
  by_cases hbefore : p < s.frontier
  · unfold Ring.Holds
    rw [Ring.storeRun_kept hbefore (by omega)]
    exact hheld p hwindow hbefore
  · exact Ring.storeRun_own (by omega) hp (by omega)

theorem window_lost (g : Graph) (s : Session) (n : ℕ)
    (hlost : g.rawCap < min s.frontier g.rawWindow + n)
    (hn : 0 < min s.frontier g.rawWindow) :
    ¬ Ring.Holds g.rawCap (Ring.storeRun g.rawCap s.ring s.frontier n)
      (s.frontier - min s.frontier g.rawWindow) := by
  have hle := g.rawWindow_le
  apply Ring.storeRun_lost <;> omega

theorem localCap_cold (g : Graph) (pos0 : ℕ) : localCap g 0 pos0 = g.prefillCap := by
  unfold localCap chunkCap
  rw [if_neg (by tauto), if_neg (by tauto)]

/-- A chunk ends within its block. -/
theorem chunk_end_le {start stop pos0 : ℕ} (h : pos0 < stop) :
    pos0 + min (stop - pos0) (localCap g start pos0) ≤ nextBoundary g pos0 ∨
      (start = 0 ∧ pos0 % g.prefillCap ≠ 0) := by
  by_cases hresumed : start ≠ 0
  · left
    rw [chunk_end hresumed h]
    omega
  · obtain rfl : start = 0 := by omega
    have hdiv := Nat.div_add_mod' pos0 g.prefillCap
    unfold nextBoundary
    rw [localCap_cold, Nat.add_mul, Nat.one_mul]
    omega

theorem chunk_within {start stop pos0 : ℕ} {c : Extent}
    (haligned : start ≠ 0 ∨ pos0 % g.prefillCap = 0 ∨ stop ≤ pos0)
    (hc : c ∈ chunkLoop g start stop pos0) :
    c.off + c.bytes ≤ stop ∧ c.off + c.bytes ≤ nextBoundary g c.off := by
  fun_induction chunkLoop g start stop pos0 with
  | case1 pos0 h ih =>
    rcases List.mem_cons.mp hc with rfl | hc
    · constructor
      · show pos0 + min (stop - pos0) (localCap g start pos0) ≤ stop
        omega
      · show pos0 + min (stop - pos0) (localCap g start pos0) ≤ nextBoundary g pos0
        rcases chunk_end_le h with hend | hcold
        · exact hend
        · omega
    · apply ih _ hc
      by_cases hresumed : start ≠ 0
      · exact .inl hresumed
      obtain rfl : start = 0 := by omega
      right
      rw [localCap_cold]
      by_cases hmore : stop ≤ pos0 + min (stop - pos0) g.prefillCap
      · exact .inr hmore
      · have hzero : pos0 % g.prefillCap = 0 := by omega
        have hfull : min (stop - pos0) g.prefillCap = g.prefillCap := by omega
        rw [hfull, Nat.add_mod_right, hzero]
        exact .inl rfl
  | case2 => cases hc

theorem nextBoundary_windowBlocks {pos : ℕ} (hpos : pos < windowBlocks g) :
    nextBoundary g pos ≤ windowBlocks g := by
  unfold nextBoundary windowBlocks at *
  apply Nat.mul_le_mul_right
  exact Nat.succ_le_of_lt ((Nat.div_lt_iff_lt_mul g.prefillCap_pos).mpr hpos)

/-- Where the ring fits the chunks, each keeps the window before it. -/
theorem chunk_fits (hfits : ChunkFits g limit) {start nTokens : ℕ} {c : Extent}
    (hc : c ∈ chunkLoop g start (start + nTokens) start) (hlimit : start + nTokens ≤ limit) :
    min c.off g.rawWindow + c.bytes ≤ g.rawCap := by
  have haligned : start ≠ 0 ∨ start % g.prefillCap = 0 ∨ start + nTokens ≤ start := by
    by_cases hzero : start = 0
    · rw [hzero, Nat.zero_mod]
      exact .inr (.inl rfl)
    · exact .inl hzero
  obtain ⟨hstop, hblock⟩ := chunk_within haligned hc
  have hsize := nextBoundary_le g c.off
  rcases hfits with hall | hroom | ⟨hblocks, hrest⟩
  · omega
  · omega
  · by_cases hbefore : c.off < windowBlocks g
    · have hle := nextBoundary_windowBlocks hbefore
      omega
    · omega

theorem suffix_fits (hfits : SuffixFits g limit drafts) {frontier k : ℕ} (hdrafts : k ≤ drafts)
    (hlimit : frontier + k ≤ limit) : min frontier g.rawWindow + k ≤ g.rawCap := by
  rcases hfits with hall | hroom <;> omega

/-- One step of a session keeps the window. -/
theorem windowHeld_step (hchunks : ChunkFits g limit) (hsuffix : SuffixFits g limit drafts)
    (hheld : WindowHeld g s) (hstep : Step g limit drafts s s') : WindowHeld g s' := by
  have hle := g.rawWindow_le
  cases hstep with
  | restart =>
    intro p _ hp
    exact absurd hp (Nat.not_lt_zero p)
  | chunk start nTokens c hc hlimit hfrontier =>
    intro p hwindow hp
    have hfits := chunk_fits hchunks hc hlimit
    rw [hfrontier] at hfits hp hwindow ⊢
    exact window_kept hheld hfits p (by simp only at hwindow; omega) hp
  | token hprompt hlimit =>
    intro p hwindow hp
    -- the row that a token replaces has just left the window
    simp only at hwindow hp ⊢
    by_cases hlast : p = s.frontier
    · rw [hlast]
      exact Ring.storeRun_own le_rfl (by omega) (by omega)
    · unfold Ring.Holds
      rw [Ring.storeRun_kept (by omega) (by omega)]
      exact hheld p (by omega) (by omega)
  | speculate k accepted hprompt hdrafts hlimit haccepted =>
    intro p hwindow hp
    simp only at hwindow hp ⊢
    exact window_kept hheld (suffix_fits hsuffix hdrafts hlimit) p (by omega) (by omega)

/-- In a whole run the window stays in the ring. -/
theorem windowHeld_run (hchunks : ChunkFits g limit) (hsuffix : SuffixFits g limit drafts)
    (hrun : Reachable g limit drafts s) : WindowHeld g s := by
  induction hrun with
  | refl =>
    intro p _ hp
    exact absurd hp (Nat.not_lt_zero p)
  | tail _ hstep ih => exact windowHeld_step hchunks hsuffix ih hstep

theorem rawSpan_uncut {pos0 n : ℕ} (hpos : 0 < pos0) (hn : 0 < n)
    (hfits : min pos0 g.rawWindow + n ≤ g.rawCap) :
    rawSpanForBatch g pos0 n = rawSpanWanted g pos0 n := by
  have hle := g.rawWindow_le
  unfold rawSpanForBatch rawSpanWanted
  split_ifs <;> omega

theorem ring_holds_of_fits (hchunks : ChunkFits g limit) (hsuffix : SuffixFits g limit drafts) :
    RingAlwaysHolds g limit drafts := by
  intro s hrun
  have hheld := windowHeld_run hchunks hsuffix hrun
  constructor
  · intro start nTokens c hc hlimit hfrontier hpos hcap
    have hfits := chunk_fits hchunks hc hlimit
    refine ⟨fun p hwindow hp => ?_, rawSpan_uncut hpos (chunkLoop_sizes hc).1 hfits⟩
    rw [hfrontier] at hfits hp hwindow ⊢
    exact window_kept hheld hfits p hwindow hp
  · intro k hprompt hdrafts hlimit p hwindow hp
    exact window_kept hheld (suffix_fits hsuffix hdrafts hlimit) p hwindow (by omega)

end Held

section Lost
variable {g : Graph} {limit drafts : ℕ}

/-- A session reaches every number of tokens with a prompt of one token and decoding. -/
theorem reach_frontier (g : Graph) (limit drafts : ℕ) {n : ℕ} (hpos : 0 < n) (hlimit : n ≤ limit) :
    ∃ s, Reachable g limit drafts s ∧ s.frontier = n := by
  induction n, hpos using Nat.le_induction with
  | base =>
    have hc : (⟨0, 1⟩ : Extent) ∈ chunkLoop g 0 (0 + 1) 0 := by
      have hcap := g.prefillCap_pos
      have hone : min (0 + 1 - 0) (localCap g 0 0) = 1 := by
        rw [localCap_cold]
        omega
      rw [chunkLoop_of_lt (by omega), hone]
      exact List.mem_cons_self
    exact ⟨_, Relation.ReflTransGen.single (.chunk .fresh 0 1 ⟨0, 1⟩ hc (by omega) rfl), rfl⟩
  | succ n hn ih =>
    obtain ⟨s, hrun, hfrontier⟩ := ih (by omega)
    refine ⟨_, hrun.tail (.token s (by omega) (by omega)), ?_⟩
    show s.frontier + 1 = n + 1
    omega

/-- The first chunk of a range that a session resumes. -/
theorem first_chunk_mem {start stop : ℕ} (hresumed : start ≠ 0) (hlt : start < stop) :
    (⟨start, min (min stop (nextBoundary g start)) (start + g.rawCap) - start⟩ : Extent) ∈
      chunkLoop g start stop start := by
  have hend := chunk_end (g := g) hresumed hlt
  have hsize : min (stop - start) (localCap g start start) =
      min (min stop (nextBoundary g start)) (start + g.rawCap) - start := by omega
  rw [chunkLoop_of_lt hlt, hsize]
  exact List.mem_cons_self

/-- A resumed chunk that does not fit behind the window takes a row from it. -/
theorem resumed_chunk_lost (hholds : RingAlwaysHolds g limit drafts) (start : ℕ)
    (hpos : 0 < start) (hlt : start < limit) :
    min start g.rawWindow + (min (min limit (nextBoundary g start)) (start + g.rawCap) - start) ≤
      g.rawCap := by
  by_contra hlost
  have hwindow := g.rawWindow_pos
  have hgt := nextBoundary_gt g start
  obtain ⟨s, hrun, rfl⟩ := reach_frontier g limit drafts hpos hlt.le
  have hmem := first_chunk_mem (g := g) (by omega) hlt
  have hrange : s.frontier + (limit - s.frontier) = limit := by omega
  obtain ⟨hheld, -⟩ := (hholds s hrun).1 s.frontier (limit - s.frontier) _ (by rwa [hrange])
    hrange.le rfl hpos (by simp only; omega)
  apply window_lost g s (min (min limit (nextBoundary g s.frontier)) (s.frontier + g.rawCap) -
    s.frontier) (by omega) (by omega)
  apply hheld
  · simp only
    omega
  · simp only
    omega

theorem windowBlocks_bounds (g : Graph) :
    g.rawWindow ≤ windowBlocks g ∧ windowBlocks g < g.rawWindow + g.prefillCap ∧
      g.prefillCap ≤ windowBlocks g := by
  have hcap := g.prefillCap_pos
  have hwindow := g.rawWindow_pos
  have hdiv := Nat.div_add_mod' (g.rawWindow + g.prefillCap - 1) g.prefillCap
  have hmod := Nat.mod_lt (g.rawWindow + g.prefillCap - 1) hcap
  have hone : 1 ≤ (g.rawWindow + g.prefillCap - 1) / g.prefillCap :=
    (Nat.one_le_div_iff hcap).mpr (by omega)
  have hfirst := Nat.mul_le_mul_right g.prefillCap hone
  unfold windowBlocks
  omega

theorem chunkFits_of_holds (hholds : RingAlwaysHolds g limit drafts) : ChunkFits g limit := by
  by_contra hnot
  unfold ChunkFits at hnot
  push Not at hnot
  obtain ⟨hlimit, hroom, hblocks⟩ := hnot
  have hle := g.rawWindow_le
  have hwindow := g.rawWindow_pos
  have hcap := g.prefillCap_pos
  obtain ⟨hlow, hhigh, hblock⟩ := windowBlocks_bounds g
  by_cases hwide : g.rawCap < g.prefillCap
  · -- the chunk behind the first token fills the ring
    have hheld := resumed_chunk_lost hholds 1 Nat.one_pos (by omega)
    have hnext : nextBoundary g 1 = g.prefillCap := by
      unfold nextBoundary
      rw [Nat.div_eq_of_lt (by omega)]
      omega
    omega
  · by_cases hover : g.rawCap < windowBlocks g
    · -- the block before the end of the window
      have hstart : windowBlocks g - g.prefillCap =
          ((g.rawWindow + g.prefillCap - 1) / g.prefillCap - 1) * g.prefillCap := by
        unfold windowBlocks
        rw [Nat.sub_mul, Nat.one_mul]
      have hnext : nextBoundary g (windowBlocks g - g.prefillCap) = windowBlocks g := by
        unfold nextBoundary
        rw [hstart, Nat.mul_div_cancel _ hcap, Nat.add_mul, ← hstart, Nat.one_mul]
        omega
      have hheld := resumed_chunk_lost hholds (windowBlocks g - g.prefillCap)
        (by omega) (by omega)
      omega
    · have hnext : nextBoundary g (windowBlocks g) = windowBlocks g + g.prefillCap := by
        unfold nextBoundary windowBlocks
        rw [Nat.mul_div_cancel _ hcap, Nat.add_mul _ 1, Nat.one_mul]
      have hheld := resumed_chunk_lost hholds (windowBlocks g) (by omega) (by omega)
      have hrest := hblocks (by omega)
      omega

theorem suffixFits_of_holds (hholds : RingAlwaysHolds g limit drafts) :
    SuffixFits g limit drafts := by
  by_contra hnot
  unfold SuffixFits at hnot
  push Not at hnot
  obtain ⟨hlimit, hroom⟩ := hnot
  have hle := g.rawWindow_le
  have hwindow := g.rawWindow_pos
  obtain ⟨s, hrun, hfrontier⟩ := reach_frontier g limit drafts
    hwindow (by omega)
  have hheld := (hholds s hrun).2 (g.rawCap + 1 - g.rawWindow) (by omega) (by omega) (by omega)
  apply window_lost g s (g.rawCap + 1 - g.rawWindow) (by omega) (by omega)
  apply hheld <;> omega

/-- The ring holds what attention reads, in every state of every run, exactly if it fits the
chunks and the speculative suffixes. -/
theorem ring_holds_iff (g : Graph) (limit drafts : ℕ) :
    RingAlwaysHolds g limit drafts ↔ ChunkFits g limit ∧ SuffixFits g limit drafts :=
  ⟨fun hholds => ⟨chunkFits_of_holds hholds, suffixFits_of_holds hholds⟩,
    fun hfits => ring_holds_of_fits hfits.1 hfits.2⟩

end Lost

section Sessions

/-- The rows that a session may write for a speculative suffix: at most sixteen drafts, and no
more than a batch takes, except for the two of the exact verifier. -/
def draftRows (g : Graph) (mtpDraftTokens : ℕ) : ℕ :=
  if mtpDraftTokens ≤ 1 then 0 else min (min mtpDraftTokens 16) (max g.prefillCap 2)

/-- The environment sets the capacity of the ring. -/
def Overridden : EnvNumber → Prop
  | .value v => 0 < v
  | _ => False

theorem rawCapForContext_default {env : EnvNumber} (h : ¬ Overridden env)
    (ctxSize prefillCap : ℕ) : rawCapForContext env ctxSize prefillCap =
      max (min (alignUp (max (min (rawWindowFor ctxSize + prefillCap) ctxSize) 1) 256) 8192)
        (rawWindowFor ctxSize) := by
  unfold rawCapForContext
  cases env with
  | unset => rfl
  | noNumber => rfl
  | value v => exact if_neg h

theorem alignUp_bounds (n : ℕ) : n ≤ alignUp n 256 ∧ alignUp n 256 < n + 256 ∧
    256 ∣ alignUp n 256 := by
  unfold alignUp
  split_ifs <;> omega

theorem defaultPrefillCap_bounds (env : EnvNumber) {ctxSize : ℕ} (hctx : 0 < ctxSize) :
    0 < defaultPrefillCapForPrompt env ctxSize ∧
      defaultPrefillCapForPrompt env ctxSize ≤ ctxSize := by
  unfold defaultPrefillCapForPrompt
  rw [if_neg (by omega)]
  cases env with
  | unset =>
    dsimp only
    split_ifs <;> omega
  | noNumber => exact ⟨hctx, le_rfl⟩
  | value v =>
    dsimp only
    split_ifs <;> omega

theorem sessionGraph_sizes (chunkEnv rawEnv : EnvNumber) {ctxSize : ℕ} (hctx : 0 < ctxSize)
    (hraw : ¬ Overridden rawEnv) :
    (sessionGraph chunkEnv rawEnv ctxSize).rawWindow = min 128 ctxSize ∧
      (sessionGraph chunkEnv rawEnv ctxSize).prefillCap =
        defaultPrefillCapForPrompt chunkEnv ctxSize ∧
      (sessionGraph chunkEnv rawEnv ctxSize).rawCap =
        min (min (alignUp (min (min 128 ctxSize + defaultPrefillCapForPrompt chunkEnv ctxSize)
          ctxSize) 256) 8192) ctxSize := by
  obtain ⟨hpos, -⟩ := defaultPrefillCap_bounds chunkEnv hctx
  have hwindow : rawWindowFor ctxSize = min 128 ctxSize := by
    unfold rawWindowFor
    omega
  refine ⟨?_, ?_, ?_⟩
  · show allocatedWindow _ ctxSize = _
    unfold allocatedWindow
    rw [if_neg (by omega), hwindow]
  · exact Nat.max_eq_left hpos
  · show allocatedRawCap _ ctxSize = _
    unfold allocatedRawCap
    dsimp only
    rw [if_neg (by omega), rawCapForContext_default hraw, hwindow]
    generalize defaultPrefillCapForPrompt chunkEnv ctxSize = prefillCap at hpos ⊢
    have hone : max (min (min 128 ctxSize + prefillCap) ctxSize) 1 =
        min (min 128 ctxSize + prefillCap) ctxSize := by omega
    rw [hone]
    have halign := alignUp_bounds (min (min 128 ctxSize + prefillCap) ctxSize)
    omega

/-- The sizes of a ring that the environment does not set. -/
theorem default_fits_iff (chunkEnv rawEnv : EnvNumber) (ctxSize mtpDraftTokens : ℕ)
    (hraw : ¬ Overridden rawEnv) :
    (ChunkFits (sessionGraph chunkEnv rawEnv ctxSize) (ctxSize - 1) ∧
        SuffixFits (sessionGraph chunkEnv rawEnv ctxSize) (ctxSize - 1)
          (draftRows (sessionGraph chunkEnv rawEnv ctxSize) mtpDraftTokens)) ↔
      ctxSize ≤ 8193 ∨ defaultPrefillCapForPrompt chunkEnv ctxSize ≤ 8064 ∨
        (defaultPrefillCapForPrompt chunkEnv ctxSize ≤ 8192 ∧
          ctxSize ≤ defaultPrefillCapForPrompt chunkEnv ctxSize + 8065) := by
  by_cases hctx : ctxSize = 0
  · rw [hctx]
    constructor
    · intro _
      exact .inl (by omega)
    · intro _
      exact ⟨.inl (Nat.zero_le _), .inl (Nat.zero_le _)⟩
  obtain ⟨hwindow, hchunk, hcap⟩ :=
    sessionGraph_sizes chunkEnv rawEnv (Nat.pos_of_ne_zero hctx) hraw
  have hdrafts : draftRows (sessionGraph chunkEnv rawEnv ctxSize) mtpDraftTokens ≤ 16 := by
    unfold draftRows
    split_ifs <;> omega
  have hbounds := defaultPrefillCap_bounds chunkEnv (Nat.pos_of_ne_zero hctx)
  obtain ⟨hlow, hhigh, hblock⟩ := windowBlocks_bounds (sessionGraph chunkEnv rawEnv ctxSize)
  have hblocks : 128 ≤ defaultPrefillCapForPrompt chunkEnv ctxSize →
      windowBlocks (sessionGraph chunkEnv rawEnv ctxSize) =
        defaultPrefillCapForPrompt chunkEnv ctxSize := by
    intro hwide
    have hone : (min 128 ctxSize + defaultPrefillCapForPrompt chunkEnv ctxSize - 1) /
        defaultPrefillCapForPrompt chunkEnv ctxSize = 1 := by
      apply Nat.div_eq_of_lt_le <;> omega
    unfold windowBlocks
    rw [hwindow, hchunk, hone, Nat.one_mul]
  unfold ChunkFits SuffixFits
  rw [hwindow] at hlow
  rw [hwindow, hchunk] at hhigh
  rw [hchunk] at hblock
  rw [hwindow, hchunk, hcap]
  generalize draftRows (sessionGraph chunkEnv rawEnv ctxSize) mtpDraftTokens = drafts at *
  generalize windowBlocks (sessionGraph chunkEnv rawEnv ctxSize) = blocks at *
  generalize defaultPrefillCapForPrompt chunkEnv ctxSize = prefillCap at *
  have halign := alignUp_bounds (min (min 128 ctxSize + prefillCap) ctxSize)
  generalize alignUp (min (min 128 ctxSize + prefillCap) ctxSize) 256 = aligned at *
  omega

/-- For every context, chunk setting, ring setting and draft depth: the ring of a session always
holds what attention reads exactly if it has room for the chunks and for the suffixes. A session
takes prompts shorter than its context. -/
theorem rawRing_holds_iff (chunkEnv rawEnv : EnvNumber) (ctxSize mtpDraftTokens : ℕ) :
    (RingAlwaysHolds (sessionGraph chunkEnv rawEnv ctxSize) (ctxSize - 1)
        (draftRows (sessionGraph chunkEnv rawEnv ctxSize) mtpDraftTokens) ↔
      ChunkFits (sessionGraph chunkEnv rawEnv ctxSize) (ctxSize - 1) ∧
        SuffixFits (sessionGraph chunkEnv rawEnv ctxSize) (ctxSize - 1)
          (draftRows (sessionGraph chunkEnv rawEnv ctxSize) mtpDraftTokens)) ∧
    (¬ Overridden rawEnv →
      (RingAlwaysHolds (sessionGraph chunkEnv rawEnv ctxSize) (ctxSize - 1)
        (draftRows (sessionGraph chunkEnv rawEnv ctxSize) mtpDraftTokens) ↔
      ctxSize ≤ 8193 ∨ defaultPrefillCapForPrompt chunkEnv ctxSize ≤ 8064 ∨
        (defaultPrefillCapForPrompt chunkEnv ctxSize ≤ 8192 ∧
          ctxSize ≤ defaultPrefillCapForPrompt chunkEnv ctxSize + 8065))) := by
  constructor
  · exact ring_holds_iff _ _ _
  · intro hraw
    rw [ring_holds_iff]
    exact default_fits_iff chunkEnv rawEnv ctxSize mtpDraftTokens hraw

/-- Chunks of 8192 tokens leave no room for the window in a ring of 8192 rows. -/
theorem fullChunks_lose : ¬ RingAlwaysHolds (sessionGraph (.value 8192) .unset 32768) 32767
    (draftRows (sessionGraph (.value 8192) .unset 32768) 1) := by
  have hchunk : defaultPrefillCapForPrompt (.value 8192) 32768 = 8192 := by decide
  intro hholds
  have hfits := (default_fits_iff (.value 8192) .unset 32768 1 id).mp
    ((ring_holds_iff _ _ _).mp hholds)
  rw [hchunk] at hfits
  omega

end Sessions

end Ds4.Prefill
