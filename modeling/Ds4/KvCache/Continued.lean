import Ds4.KvCache.Lengths
import Mathlib.Algebra.BigOperators.Ring.List

/-! The checkpoints that a generation run stores as it passes the frontiers. -/
namespace Ds4.KvCache

section Loop
variable (opt : KvCacheOptions)

/-- `kv_cache_continued_store_target`, once it has the step. -/
def storeTarget (step last live : ℤ) : ℤ :=
  if step ≤ 0 then 0
  else if live < opt.minTokens then 0
  else if live.tmod step ≠ 0 then 0
  else if live ≤ last then 0
  else live

/-- `kv_cache_continued_store_target`. -/
def kvCacheContinuedStoreTarget (enabled : Bool) (last live : ℤ) : Option ℤ :=
  (kvCacheContinuedStep opt enabled).map fun step => storeTarget opt step last live

/-- A run with its live tokens, `continued_last_store_tokens` and the stores it has attempted. -/
structure Decoding where
  live : ℤ
  last : ℤ
  attempts : List ℤ

/-- A round of the decode loop: inside a tool call or not, whether a store would succeed, and the
tokens that the evaluation accepts. -/
structure Round where
  toolCall : Bool
  stored : Bool
  accepted : ℕ

/-- `kv_cache_maybe_store_continued`. -/
def maybeStoreContinued (enabled stored : Bool) (d : Decoding) : Option Decoding :=
  (kvCacheContinuedStoreTarget opt enabled d.last d.live).map fun target =>
    if target = 0 then d
    else { d with
      last := if stored = true then max d.last target else d.last
      attempts := d.attempts ++ [target] }

/-- A round of the loop in `generate_job`. -/
def decodeRound (enabled : Bool) (d : Decoding) (r : Round) : Option Decoding :=
  (if r.toolCall = true then some d else maybeStoreContinued opt enabled r.stored d).map fun d =>
    { d with live := d.live + r.accepted }

def decodeLoop (enabled : Bool) (start last : ℤ) (rounds : List Round) : Option Decoding :=
  rounds.foldlM (decodeRound opt enabled) ⟨start, last, []⟩

end Loop

/-- The live tokens before a round, or at the end. -/
def liveAt (start : ℤ) (done : List Round) : ℤ :=
  start + ((done.map Round.accepted).sum : ℕ)

/-- The rounds that some round of a run comes after. -/
def Before (rounds done : List Round) : Prop := ∃ r, done ++ [r] <+: rounds

/-- A store is attempted at each frontier beyond the last one stored, or at the frontier after it,
before the run goes past both. -/
def FrontierKept (step start last : ℤ) (d : Decoding) : Prop :=
  ∀ m, step ∣ m → last < m → start ≤ m → m + step < d.live →
    ∃ c ∈ d.attempts, m ≤ c ∧ c ≤ m + step

/-- The accepted tokens add up to one of the two frontiers before some round. -/
def LandsOn (minTokens step start last : ℤ) (rounds : List Round) : Prop :=
  ∀ m, step ∣ m → last < m → start ≤ m → m + step < liveAt start rounds →
    ∃ done, Before rounds done ∧ (liveAt start done = m ∨ liveAt start done = m + step) ∧
      minTokens ≤ liveAt start done

section Counts
variable {start : ℤ} {rounds done : List Round} {r : Round}

@[simp] theorem liveAt_nil : liveAt start [] = start := by
  rw [liveAt, List.map_nil, List.sum_nil, Nat.cast_zero, add_zero]

@[simp] theorem liveAt_append (more : List Round) :
    liveAt start (done ++ more) = liveAt (liveAt start done) more := by
  unfold liveAt
  rw [List.map_append, List.sum_append, Nat.cast_add, add_assoc]

@[simp] theorem liveAt_singleton : liveAt start [r] = start + r.accepted := by
  rw [liveAt, List.map_singleton, List.sum_singleton]

theorem le_liveAt : start ≤ liveAt start rounds := by
  unfold liveAt
  omega

theorem liveAt_mono (h : done <+: rounds) : liveAt start done ≤ liveAt start rounds := by
  obtain ⟨more, rfl⟩ := h
  rw [liveAt_append]
  exact le_liveAt

theorem Before.le (h : Before rounds done) : liveAt start done ≤ liveAt start rounds := by
  obtain ⟨r, h⟩ := h
  exact liveAt_mono ((List.prefix_append _ _).trans h)

theorem Before.mono {whole : List Round} (h : Before rounds done) (hw : rounds <+: whole) :
    Before whole done := h.imp fun _ hr => hr.trans hw

theorem not_before_nil : ¬ Before [] done := by
  rintro ⟨r, h⟩
  simpa using List.prefix_nil.1 h

theorem before_append_singleton :
    Before (rounds ++ [r]) done ↔ Before rounds done ∨ done = rounds := by
  constructor
  · rintro ⟨s, h⟩
    rcases List.prefix_concat_iff.1 h with h | h
    · exact Or.inr (List.append_inj_left' h rfl)
    · exact Or.inl ⟨s, h⟩
  · rintro (h | rfl)
    · exact h.mono (List.prefix_append _ _)
    · exact ⟨r, List.prefix_rfl⟩

/-- A round that starts with fewer tokens than some prefix of the run has comes inside it. -/
theorem Before.within {whole : List Round} (h : Before whole done) (hr : rounds <+: whole)
    (hlt : liveAt start done < liveAt start rounds) : Before rounds done := by
  obtain ⟨r, hd⟩ := h
  rcases List.prefix_or_prefix_of_prefix hd hr with hin | hout
  · exact ⟨r, hin⟩
  · rcases List.prefix_concat_iff.1 hout with heq | hle
    · exact ⟨r, heq ▸ List.prefix_rfl⟩
    · have hcount : liveAt start rounds ≤ liveAt start done := liveAt_mono hle
      exact absurd hcount (not_le.2 hlt)

end Counts

section Run
variable {opt : KvCacheOptions} {step start last : ℤ} {rounds : List Round} {d : Decoding}

/-- The counts at which a run attempts its stores. -/
def Attempted (opt : KvCacheOptions) (step start last : ℤ) (rounds : List Round) (c : ℤ) : Prop :=
  (last < c ∧ opt.minTokens ≤ c ∧ step ∣ c) ∧ ∃ done, Before rounds done ∧ liveAt start done = c

/-- What a run has done after some rounds. -/
structure Traced (opt : KvCacheOptions) (step start last : ℤ) (rounds : List Round)
    (d : Decoding) : Prop where
  live : d.live = liveAt start rounds
  kept_last : d.last = last ∨ d.last ∈ d.attempts
  le_last : last ≤ d.last
  attempts : ∀ c, c ∈ d.attempts ↔ Attempted opt step start last rounds c

theorem storeTarget_eq (hpos : 0 < step) (last live : ℤ) :
    storeTarget opt step last live =
      if opt.minTokens ≤ live ∧ step ∣ live ∧ last < live then live else 0 := by
  have hdvd : live.tmod step = 0 ↔ step ∣ live := (Int.dvd_iff_tmod_eq_zero).symm
  unfold storeTarget
  rw [if_neg (not_le.2 hpos)]
  by_cases hmin : live < opt.minTokens
  · rw [if_pos hmin, if_neg fun h => absurd h.1 (not_le.2 hmin)]
  · rw [if_neg hmin]
    by_cases hfront : step ∣ live
    · rw [if_neg (not_not.2 (hdvd.2 hfront))]
      by_cases hlast : live ≤ last
      · rw [if_pos hlast, if_neg fun h => absurd h.2.2 (not_lt.2 hlast)]
      · rw [if_neg hlast, if_pos ⟨not_lt.1 hmin, hfront, not_le.1 hlast⟩]
    · rw [if_pos (mt hdvd.1 hfront), if_neg fun h => hfront h.2.1]

theorem traced_nil : Traced opt step start last [] ⟨start, last, []⟩ where
  live := liveAt_nil.symm
  kept_last := Or.inl rfl
  le_last := le_rfl
  attempts := by
    intro c
    apply iff_of_false List.not_mem_nil
    rintro ⟨-, done, h, -⟩
    exact not_before_nil h

/-- A count that is attempted once more has been attempted before, unless it is new. -/
theorem attempted_append (r : Round) (c : ℤ) : Attempted opt step start last (rounds ++ [r]) c ↔
    Attempted opt step start last rounds c ∨
      (c = liveAt start rounds ∧ last < c ∧ opt.minTokens ≤ c ∧ step ∣ c) := by
  unfold Attempted
  constructor
  · rintro ⟨hc, done, hdone, rfl⟩
    rcases before_append_singleton.1 hdone with h | rfl
    · exact Or.inl ⟨hc, done, h, rfl⟩
    · exact Or.inr ⟨rfl, hc⟩
  · rintro (⟨hc, done, h, hlive⟩ | ⟨hlive, hc⟩)
    · exact ⟨hc, done, before_append_singleton.2 (Or.inl h), hlive⟩
    · exact ⟨hc, rounds, before_append_singleton.2 (Or.inr rfl), hlive.symm⟩

/-- The last store is behind the live tokens once the run has made one. -/
theorem Traced.last_le (h : Traced opt step start last rounds d) (hmem : d.last ∈ d.attempts) :
    d.last ≤ d.live := by
  obtain ⟨-, done, hdone, hlive⟩ := (h.attempts _).1 hmem
  rw [← hlive, h.live]
  exact hdone.le

/-- A count that the schedule would store and that the last store keeps from it is attempted. -/
theorem Traced.covered (h : Traced opt step start last rounds d) (hnew : last < d.live)
    (hold : d.live ≤ d.last) : d.live ∈ d.attempts := by
  rcases h.kept_last with heq | hmem
  · omega
  · rw [le_antisymm hold (h.last_le hmem)]
    exact hmem

/-- One round outside a tool call. -/
theorem Traced.round (hmin : 0 < opt.minTokens) (hstep : kvCacheContinuedStep opt true = some step)
    (hpos : 0 < step) (h : Traced opt step start last rounds d) {r : Round}
    (hr : r.toolCall = false) : ∃ d', decodeRound opt true d r = some d' ∧
      Traced opt step start last (rounds ++ [r]) d' := by
  rw [decodeRound, hr, if_neg Bool.false_ne_true, maybeStoreContinued, kvCacheContinuedStoreTarget,
    hstep, Option.map_some, Option.map_some, Option.map_some, storeTarget_eq hpos]
  refine ⟨_, rfl, ?_⟩
  have hlive : d.live + r.accepted = liveAt start (rounds ++ [r]) := by
    rw [liveAt_append, liveAt_singleton, h.live]
  by_cases hfront : opt.minTokens ≤ d.live ∧ step ∣ d.live ∧ d.last < d.live
  · have hne : d.live ≠ 0 := by omega
    have hle := h.le_last
    rw [if_pos hfront, if_neg hne]
    refine ⟨hlive, ?_, ?_, ?_⟩
    · dsimp only
      split_ifs with hstored
      · rw [max_eq_right hfront.2.2.le]
        exact Or.inr (by simp)
      · exact h.kept_last.imp_right (List.mem_append_left _)
    · dsimp only
      split_ifs with hstored
      · exact hle.trans (le_max_left _ _)
      · exact hle
    · intro c
      rw [List.mem_append, List.mem_singleton, attempted_append, h.attempts, ← h.live]
      apply or_congr_right
      constructor
      · rintro rfl
        exact ⟨rfl, by omega, hfront.1, hfront.2.1⟩
      · exact And.left
  · rw [if_neg hfront, if_pos rfl]
    refine ⟨hlive, h.kept_last, h.le_last, ?_⟩
    intro c
    rw [attempted_append, h.attempts, ← h.live]
    constructor
    · exact Or.inl
    · rintro (hc | ⟨rfl, hlast, hc, hdvd⟩)
      · exact hc
      · have hold : d.live ≤ d.last := not_lt.1 fun hlt => hfront ⟨hc, hdvd, hlt⟩
        exact (h.attempts _).1 (h.covered hlast hold)

/-- A run outside tool calls attempts a store at every count of a round's start that is a frontier
beyond the last store. -/
theorem decodeLoop_traced (start last : ℤ) (rounds : List Round) (hmin : 0 < opt.minTokens)
    (hstep : kvCacheContinuedStep opt true = some step) (hpos : 0 < step)
    (hout : ∀ r ∈ rounds, r.toolCall = false) :
    ∃ d, decodeLoop opt true start last rounds = some d ∧ Traced opt step start last rounds d := by
  induction rounds using List.reverseRecOn with
  | nil => exact ⟨_, rfl, traced_nil⟩
  | append_singleton rounds r ih =>
    obtain ⟨d, hd, htraced⟩ := ih fun x hx => hout x (List.mem_append_left _ hx)
    obtain ⟨d', hd', htraced'⟩ := htraced.round hmin hstep hpos (hout r (by simp))
    refine ⟨d', ?_, htraced'⟩
    rw [decodeLoop, List.foldlM_append, ← decodeLoop, hd]
    simp only [List.foldlM_cons, List.foldlM_nil, Option.bind_eq_bind, Option.bind_some, hd']
    rfl

end Run

section Frontiers
variable {opt : KvCacheOptions} {step start last : ℤ} {rounds : List Round} {d : Decoding}

theorem Traced.kept (h : Traced opt step start last rounds d) {whole : List Round}
    (hw : rounds <+: whole) (hlands : LandsOn opt.minTokens step start last whole)
    (hpos : 0 < step) : FrontierKept step start last d := by
  intro m hm hlast hstart hpast
  rw [h.live] at hpast
  obtain ⟨done, hdone, hcount, hmin⟩ :=
    hlands m hm hlast hstart (hpast.trans_le (liveAt_mono hw))
  have hle : m ≤ liveAt start done ∧ liveAt start done ≤ m + step := by omega
  have hin : Before rounds done := hdone.within hw (hle.2.trans_lt hpast)
  have hdvd : step ∣ liveAt start done := by
    rcases hcount with heq | heq
    · exact heq ▸ hm
    · exact heq ▸ dvd_add_self_right.2 hm
  refine ⟨liveAt start done, (h.attempts _).2 ⟨⟨by omega, hmin, hdvd⟩, done, hin, rfl⟩, hle⟩

theorem Traced.lands (h : Traced opt step start last rounds d)
    (hkept : FrontierKept step start last d) (hpos : 0 < step) :
    LandsOn opt.minTokens step start last rounds := by
  intro m hm hlast hstart hpast
  rw [← h.live] at hpast
  obtain ⟨c, hc, hlow, hhigh⟩ := hkept m hm hlast hstart hpast
  obtain ⟨⟨-, hmin, hdvd⟩, done, hdone, rfl⟩ := (h.attempts c).1 hc
  refine ⟨done, hdone, ?_, hmin⟩
  -- a multiple of the step between two neighbouring ones is one of them
  obtain ⟨k, hk⟩ := (Int.dvd_sub hdvd hm)
  have hrange : 0 ≤ step * k ∧ step * k ≤ step * 1 := by
    rw [← hk, mul_one]
    omega
  have hk0 : 0 ≤ k := nonneg_of_mul_nonneg_right hrange.1 hpos
  have hk1 : k ≤ 1 := le_of_mul_le_mul_left hrange.2 hpos
  have hk01 : k = 0 ∨ k = 1 := by omega
  rcases hk01 with rfl | rfl
  · exact Or.inl (by omega)
  · exact Or.inr (by omega)

end Frontiers

/-- No frontier is skipped in a run exactly when its rounds start on them. -/
theorem frontierKept_iff {args : List (KvCacheFlag × Bytes)} {opt : KvCacheOptions}
    {step start last : ℤ} {rounds : List Round} (hopt : parseOptions args = some opt)
    (hstep : kvCacheContinuedStep opt true = some step) (hpos : 0 < step)
    (hout : ∀ r ∈ rounds, r.toolCall = false) :
    (∀ done, done <+: rounds → ∃ d, decodeLoop opt true start last done = some d ∧
      FrontierKept step start last d) ↔ LandsOn opt.minTokens step start last rounds := by
  have hmin := (parseOptions_inRange hopt).minTokens.1
  constructor
  · intro h
    obtain ⟨d, hd, hkept⟩ := h rounds List.prefix_rfl
    obtain ⟨d', hd', htraced⟩ := decodeLoop_traced start last rounds hmin hstep hpos hout
    rw [hd] at hd'
    cases hd'
    exact htraced.lands hkept hpos
  · intro hlands done hdone
    obtain ⟨d, hd, htraced⟩ := decodeLoop_traced start last done hmin hstep hpos
      fun r hr => hout r (hdone.subset hr)
    exact ⟨d, hd, htraced.kept hdone hlands hpos⟩

/-- Rounds of two tokens from an even count, under a step of four. -/
theorem evenRounds_kept : kvCacheContinuedStep ⟨1, 30000, 4, 32, 0⟩ true = some 4 ∧
    ∀ done, done <+: List.replicate 4 (⟨false, true, 2⟩ : Round) →
      ∃ d, decodeLoop ⟨1, 30000, 4, 32, 0⟩ true 2 0 done = some d ∧ FrontierKept 4 2 0 d := by
  have hopt : parseOptions [(.minTokens, [49]), (.continuedIntervalTokens, [52]),
      (.boundaryAlignTokens, [48])] = some ⟨1, 30000, 4, 32, 0⟩ := by decide
  have hstep : kvCacheContinuedStep ⟨1, 30000, 4, 32, 0⟩ true = some 4 := by decide
  refine ⟨hstep, (frontierKept_iff hopt hstep (by decide) (by simp)).2 ?_⟩
  intro m hm _ hstart hpast
  have hend : liveAt 2 (List.replicate 4 ⟨false, true, 2⟩) = 10 := by decide
  have hm4 : m = 4 := by omega
  subst hm4
  exact ⟨[⟨false, true, 2⟩], ⟨⟨false, true, 2⟩, List.replicate 2 _, rfl⟩, Or.inl (by decide),
    by decide⟩

/-- Rounds of two tokens from an odd count pass both frontiers between two rounds. -/
theorem oddRounds_skip : parseOptions [] = some kvCacheDefaultOptions ∧
    kvCacheContinuedStep kvCacheDefaultOptions true = some 10240 ∧
    ∃ d, decodeLoop kvCacheDefaultOptions true 10239 0
        (List.replicate 5121 ⟨false, true, 2⟩) = some d ∧
      d.attempts = [] ∧ ¬ FrontierKept 10240 10239 0 d := by
  have hstep : kvCacheContinuedStep kvCacheDefaultOptions true = some 10240 := by decide
  refine ⟨by decide, hstep, ?_⟩
  obtain ⟨d, hd, htraced⟩ := decodeLoop_traced 10239 0
    (List.replicate 5121 ⟨false, true, 2⟩) (by decide) hstep (by decide)
    fun r hr => List.eq_of_mem_replicate hr ▸ rfl
  have hnone : d.attempts = [] := by
    rw [List.eq_nil_iff_forall_not_mem]
    intro c hc
    obtain ⟨⟨-, -, hdvd⟩, done, ⟨r, hdone⟩, rfl⟩ := (htraced.attempts c).1 hc
    have heven : 2 ∣ (done.map Round.accepted).sum := by
      apply List.dvd_sum
      intro n hn
      obtain ⟨x, hx, rfl⟩ := List.mem_map.1 hn
      have hmem := hdone.subset (List.mem_append_left _ hx)
      rw [List.eq_of_mem_replicate hmem]
    obtain ⟨k, hk⟩ := hdvd
    unfold liveAt at hk
    omega
  have hpast : 10240 + 10240 < d.live := by
    rw [htraced.live, liveAt, List.map_replicate, List.sum_replicate]
    decide
  refine ⟨d, hd, hnone, ?_⟩
  intro hkept
  obtain ⟨c, hc, -⟩ := hkept 10240 dvd_rfl (by decide) (by decide) hpast
  rw [hnone] at hc
  cases hc

end Ds4.KvCache
