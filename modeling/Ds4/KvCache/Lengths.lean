import Ds4.Packs.Number
import Mathlib.Data.Int.ConditionallyCompleteOrder
import Mathlib.Tactic.Linarith

/-! The lengths at which prompts and live sessions are stored, in the arithmetic of an `int`. -/
namespace Ds4.KvCache
open Ds4.Packs

def intMax : ℤ := 2 ^ 31 - 1

/-- A value an `int` holds; other results of its arithmetic are undefined. -/
def fitInt (v : ℤ) : Option ℤ := if -2 ^ 31 ≤ v ∧ v ≤ intMax then some v else none

def intAdd (a b : ℤ) : Option ℤ := fitInt (a + b)
def intSub (a b : ℤ) : Option ℤ := fitInt (a - b)
def intMul (a b : ℤ) : Option ℤ := fitInt (a * b)
def intDiv (a b : ℤ) : Option ℤ := if b = 0 then none else fitInt (a.tdiv b)
def intMod (a b : ℤ) : Option ℤ := (intDiv a b).map fun _ => a.tmod b

/-- `kv_cache_options`. -/
structure KvCacheOptions where
  minTokens : ℤ
  coldMaxTokens : ℤ
  continuedIntervalTokens : ℤ
  boundaryTrimTokens : ℤ
  boundaryAlignTokens : ℤ
  deriving DecidableEq

def kvCacheDefaultOptions : KvCacheOptions := ⟨512, 30000, 10000, 32, 2048⟩

section Arguments

/-- The values that `strtol` and the two argument parsers take: a whole number up to `INT_MAX`. -/
def parseAtLeast (least : ℤ) (s : Bytes) : Option ℤ :=
  if s = [] ∨ (strtoll s).rest ≠ [] ∨ (strtoll s).value < least ∨ intMax < (strtoll s).value
  then none else some (strtoll s).value

def parseIntArg : Bytes → Option ℤ := parseAtLeast 1
def parseNonnegIntArg : Bytes → Option ℤ := parseAtLeast 0

/-- The options of `parse_options` that set a length of the disk cache. -/
inductive KvCacheFlag where
  | minTokens | coldMaxTokens | continuedIntervalTokens | boundaryTrimTokens | boundaryAlignTokens

def setFlag (opt : KvCacheOptions) (arg : Bytes) : KvCacheFlag → Option KvCacheOptions
  | .minTokens => (parseIntArg arg).map fun v => { opt with minTokens := v }
  | .coldMaxTokens => (parseNonnegIntArg arg).map fun v => { opt with coldMaxTokens := v }
  | .continuedIntervalTokens =>
      (parseNonnegIntArg arg).map fun v => { opt with continuedIntervalTokens := v }
  | .boundaryTrimTokens =>
      (parseNonnegIntArg arg).map fun v => { opt with boundaryTrimTokens := v }
  | .boundaryAlignTokens =>
      (parseNonnegIntArg arg).map fun v => { opt with boundaryAlignTokens := v }

/-- `parse_options` on the disk cache's flags, in the order of the command line. -/
def parseOptions (args : List (KvCacheFlag × Bytes)) : Option KvCacheOptions :=
  (args.foldlM (fun opt a => setFlag opt a.2 a.1) kvCacheDefaultOptions).filter fun opt =>
    !decide (0 < opt.coldMaxTokens ∧ opt.coldMaxTokens < opt.minTokens)

/-- What the argument parsers leave of the options. -/
structure KvCacheOptions.InRange (opt : KvCacheOptions) : Prop where
  minTokens : 0 < opt.minTokens ∧ opt.minTokens ≤ intMax
  interval : 0 ≤ opt.continuedIntervalTokens ∧ opt.continuedIntervalTokens ≤ intMax
  trim : 0 ≤ opt.boundaryTrimTokens ∧ opt.boundaryTrimTokens ≤ intMax
  align : 0 ≤ opt.boundaryAlignTokens ∧ opt.boundaryAlignTokens ≤ intMax

variable {opt opt' : KvCacheOptions} {arg : Bytes}

theorem parseAtLeast_range {least v : ℤ} (h : parseAtLeast least arg = some v) :
    least ≤ v ∧ v ≤ intMax := by
  unfold parseAtLeast at h
  split_ifs at h with hbad
  rw [not_or, not_or, not_or] at hbad
  rw [← Option.some.inj h]
  exact ⟨not_lt.1 hbad.2.2.1, not_lt.1 hbad.2.2.2⟩

theorem setFlag_inRange {flag : KvCacheFlag} (hopt : opt.InRange)
    (h : setFlag opt arg flag = some opt') : opt'.InRange := by
  cases flag with
  | minTokens =>
    obtain ⟨v, hv, rfl⟩ := Option.map_eq_some_iff.1 h
    exact { hopt with minTokens := parseAtLeast_range hv }
  | coldMaxTokens =>
    obtain ⟨v, -, rfl⟩ := Option.map_eq_some_iff.1 h
    exact { hopt with }
  | continuedIntervalTokens =>
    obtain ⟨v, hv, rfl⟩ := Option.map_eq_some_iff.1 h
    exact { hopt with interval := parseAtLeast_range hv }
  | boundaryTrimTokens =>
    obtain ⟨v, hv, rfl⟩ := Option.map_eq_some_iff.1 h
    exact { hopt with trim := parseAtLeast_range hv }
  | boundaryAlignTokens =>
    obtain ⟨v, hv, rfl⟩ := Option.map_eq_some_iff.1 h
    exact { hopt with align := parseAtLeast_range hv }

theorem kvCacheDefaultOptions_inRange : kvCacheDefaultOptions.InRange := by
  constructor <;> decide

/-- Whatever the command line sets stays in range. -/
theorem parseOptions_inRange {args : List (KvCacheFlag × Bytes)}
    (h : parseOptions args = some opt) : opt.InRange := by
  have hrun : ∀ (args : List (KvCacheFlag × Bytes)) (start : KvCacheOptions), start.InRange →
      args.foldlM (fun opt a => setFlag opt a.2 a.1) start = some opt → opt.InRange := by
    intro args
    induction args with
    | nil =>
      intro start hstart h
      rw [List.foldlM_nil] at h
      exact Option.some.inj h ▸ hstart
    | cons a args ih =>
      intro start hstart h
      rw [List.foldlM_cons] at h
      obtain ⟨next, hnext, hrest⟩ := Option.bind_eq_some_iff.1 h
      exact ih next (setFlag_inRange hstart hnext) hrest
  exact hrun args kvCacheDefaultOptions kvCacheDefaultOptions_inRange
    (Option.filter_eq_some_iff.1 h).1

end Arguments

section Functions
variable (opt : KvCacheOptions)

/-- The rounding in `kv_cache_store_len`. -/
def alignStable (stable : ℤ) : Option ℤ :=
  if 0 < opt.boundaryAlignTokens then
    (intMod stable opt.boundaryAlignTokens).bind fun r => intSub stable r
  else some stable

/-- `kv_cache_store_len`. -/
def kvCacheStoreLen (tokens : ℤ) : Option ℤ :=
  (intAdd opt.minTokens opt.boundaryTrimTokens).bind fun least =>
    if least < tokens then
      (intSub tokens opt.boundaryTrimTokens).bind fun head =>
        (alignStable opt head).map fun stable =>
          if opt.minTokens ≤ stable then stable else tokens
    else some tokens

/-- The rounding in `kv_cache_continued_step`. -/
def alignStep (step : ℤ) : Option ℤ :=
  let align := opt.boundaryAlignTokens
  if 0 < align then
    (intAdd step align).bind fun sum => (intSub sum 1).bind fun top =>
      (intDiv top align).bind fun blocks => (intMul blocks align).map fun step =>
        if step ≤ 0 then align else step
  else some step

/-- `kv_cache_continued_step`. -/
def kvCacheContinuedStep (enabled : Bool) : Option ℤ :=
  if enabled = false ∨ opt.continuedIntervalTokens ≤ 0 then some 0
  else alignStep opt opt.continuedIntervalTokens

/-- Whole blocks, where the configuration asks for them. -/
def Aligned (n : ℤ) : Prop := 0 < opt.boundaryAlignTokens → opt.boundaryAlignTokens ∣ n

/-- The longest aligned part of a prompt without its end, or the whole prompt where that part is
shorter than what is worth storing. -/
inductive StoreLength (tokens : ℤ) : ℤ → Prop
  | stable {n : ℤ} (aligned : Aligned opt n) (enough : opt.minTokens ≤ n)
      (trimmed : n + opt.boundaryTrimTokens ≤ tokens)
      (longest : ∀ m, Aligned opt m → m + opt.boundaryTrimTokens ≤ tokens → m ≤ n) :
      StoreLength tokens n
  | whole (short : tokens ≤ opt.minTokens + opt.boundaryTrimTokens ∨
      ∀ m, Aligned opt m → m + opt.boundaryTrimTokens ≤ tokens → m < opt.minTokens) :
      StoreLength tokens tokens

/-- No step, or the interval rounded up to whole blocks. -/
inductive ContinuedStep (enabled : Bool) : ℤ → Prop
  | off (h : enabled = false ∨ opt.continuedIntervalTokens = 0) : ContinuedStep enabled 0
  | every {step : ℤ} (on : enabled = true) (aligned : Aligned opt step) (pos : 0 < step)
      (interval : opt.continuedIntervalTokens ≤ step)
      (least : ∀ m, Aligned opt m → opt.continuedIntervalTokens ≤ m → step ≤ m) :
      ContinuedStep enabled step

end Functions

section Exact
variable {opt : KvCacheOptions} {tokens : ℤ}

theorem fitInt_of_mem {v : ℤ} (hlow : 0 ≤ v) (hhigh : v ≤ intMax) : fitInt v = some v :=
  if_pos ⟨by omega, hhigh⟩

theorem intDiv_nonneg {a b : ℤ} (ha : 0 ≤ a) (hmax : a ≤ intMax) (hb : 0 < b) :
    intDiv a b = some (a / b) := by
  have hle : a / b ≤ a := Int.ediv_le_self b ha
  rw [intDiv, if_neg hb.ne', Int.tdiv_eq_ediv_of_nonneg ha]
  exact fitInt_of_mem (Int.ediv_nonneg ha hb.le) (hle.trans hmax)

theorem intMod_nonneg {a b : ℤ} (ha : 0 ≤ a) (hmax : a ≤ intMax) (hb : 0 < b) :
    intMod a b = some (a % b) := by
  rw [intMod, intDiv_nonneg ha hmax hb, Option.map_some, Int.tmod_eq_emod_of_nonneg ha]

/-- A length with the part of a block at its end left out. -/
def alignDown (opt : KvCacheOptions) (n : ℤ) : ℤ :=
  if 0 < opt.boundaryAlignTokens then n - n % opt.boundaryAlignTokens else n

theorem alignStable_eq {n : ℤ} (hlow : 0 ≤ n) (hhigh : n ≤ intMax) :
    alignStable opt n = some (alignDown opt n) := by
  unfold alignStable alignDown
  split_ifs with halign
  · have hrest := Int.emod_nonneg n halign.ne'
    have hbelow := Int.mul_ediv_add_emod n opt.boundaryAlignTokens
    have hblocks := mul_nonneg halign.le (Int.ediv_nonneg hlow halign.le)
    rw [intMod_nonneg hlow hhigh halign, Option.bind_some, intSub]
    exact fitInt_of_mem (by omega) (by omega)
  · rfl

theorem alignDown_aligned (n : ℤ) : Aligned opt (alignDown opt n) := by
  intro halign
  rw [alignDown, if_pos halign]
  exact Int.dvd_self_sub_emod

theorem alignDown_le (opt : KvCacheOptions) (n : ℤ) : alignDown opt n ≤ n := by
  unfold alignDown
  split_ifs with halign
  · have hrest := Int.emod_nonneg n halign.ne'
    omega
  · exact le_rfl

/-- Nothing aligned lies between a length and what is left of it. -/
theorem le_alignDown {m n : ℤ} (hm : Aligned opt m) (hle : m ≤ n) : m ≤ alignDown opt n := by
  unfold alignDown
  split_ifs with halign
  · obtain ⟨k, rfl⟩ := hm halign
    have hk : k ≤ n / opt.boundaryAlignTokens := (Int.le_ediv_iff_mul_le halign).2 (by linarith)
    have hmul := mul_le_mul_of_nonneg_left hk halign.le
    have hsplit := Int.mul_ediv_add_emod n opt.boundaryAlignTokens
    omega
  · exact hle

/-- Without an overflow of the sum the store length is the rounded one where that is long enough. -/
theorem kvCacheStoreLen_eq (hopt : opt.InRange) (htokens : tokens ≤ intMax)
    (hsum : opt.minTokens + opt.boundaryTrimTokens ≤ intMax) :
    kvCacheStoreLen opt tokens = some
      (if opt.minTokens + opt.boundaryTrimTokens < tokens ∧
          opt.minTokens ≤ alignDown opt (tokens - opt.boundaryTrimTokens)
        then alignDown opt (tokens - opt.boundaryTrimTokens) else tokens) := by
  have hmin := hopt.minTokens.1
  have htrim := hopt.trim.1
  rw [kvCacheStoreLen, intAdd, fitInt_of_mem (by omega) hsum, Option.bind_some]
  by_cases hlong : opt.minTokens + opt.boundaryTrimTokens < tokens
  · rw [if_pos hlong, intSub, fitInt_of_mem (by omega) (by omega), Option.bind_some,
      alignStable_eq (by omega) (by omega), Option.map_some]
    simp only [hlong, true_and]
  · rw [if_neg hlong, if_neg fun h => hlong h.1]

theorem kvCacheStoreLen_length (hopt : opt.InRange) (htokens : tokens ≤ intMax)
    (hsum : opt.minTokens + opt.boundaryTrimTokens ≤ intMax) :
    ∃ n, kvCacheStoreLen opt tokens = some n ∧ StoreLength opt tokens n := by
  refine ⟨_, kvCacheStoreLen_eq hopt htokens hsum, ?_⟩
  have hbelow := alignDown_le opt (tokens - opt.boundaryTrimTokens)
  have hbest : ∀ m, Aligned opt m → m + opt.boundaryTrimTokens ≤ tokens →
      m ≤ alignDown opt (tokens - opt.boundaryTrimTokens) :=
    fun m hm hle => le_alignDown hm (by omega)
  split_ifs with h
  · exact StoreLength.stable (alignDown_aligned _) h.2 (by omega) hbest
  · apply StoreLength.whole
    rcases not_and_or.1 h with hshort | hsmall
    · exact Or.inl (not_lt.1 hshort)
    · exact Or.inr fun m hm hle => (hbest m hm hle).trans_lt (not_le.1 hsmall)

theorem StoreLength.range {n : ℤ} (h : StoreLength opt tokens n) (hopt : opt.InRange)
    (htokens : 0 ≤ tokens) : 0 ≤ n ∧ n ≤ tokens := by
  have hmin := hopt.minTokens.1
  have htrim := hopt.trim.1
  cases h with
  | stable _ enough trimmed _ => exact ⟨by omega, by omega⟩
  | whole _ => exact ⟨htokens, le_rfl⟩

/-- An interval with its last block filled up. -/
def alignUp (opt : KvCacheOptions) (n : ℤ) : ℤ :=
  if 0 < opt.boundaryAlignTokens
  then (n + opt.boundaryAlignTokens - 1) / opt.boundaryAlignTokens * opt.boundaryAlignTokens
  else n

theorem alignUp_aligned (n : ℤ) : Aligned opt (alignUp opt n) := by
  intro halign
  rw [alignUp, if_pos halign]
  exact Dvd.intro_left _ rfl

theorem alignUp_le {n m : ℤ} (hm : Aligned opt m) (hle : n ≤ m) : alignUp opt n ≤ m := by
  unfold alignUp
  split_ifs with halign
  · obtain ⟨k, rfl⟩ := hm halign
    have hk : (n + opt.boundaryAlignTokens - 1) / opt.boundaryAlignTokens < k + 1 := by
      apply Int.ediv_lt_of_lt_mul halign
      linarith
    rw [mul_comm opt.boundaryAlignTokens k]
    exact mul_le_mul_of_nonneg_right (by omega) halign.le
  · exact hle

theorem le_alignUp (opt : KvCacheOptions) (n : ℤ) : n ≤ alignUp opt n := by
  unfold alignUp
  split_ifs with halign
  · have hsplit := Int.mul_ediv_add_emod (n + opt.boundaryAlignTokens - 1) opt.boundaryAlignTokens
    have hrest := Int.emod_lt_of_pos (n + opt.boundaryAlignTokens - 1) halign
    rw [mul_comm] at hsplit
    omega
  · exact le_rfl

theorem alignStep_eq {n : ℤ} (hpos : 0 < n) (hsum : n + opt.boundaryAlignTokens ≤ intMax) :
    alignStep opt n = some (alignUp opt n) := by
  have hup := le_alignUp opt n
  unfold alignStep
  by_cases h : 0 < opt.boundaryAlignTokens
  · have hblocks : (n + opt.boundaryAlignTokens - 1) / opt.boundaryAlignTokens *
        opt.boundaryAlignTokens = alignUp opt n := by rw [alignUp, if_pos h]
    have hroom : alignUp opt n ≤ n + opt.boundaryAlignTokens - 1 := by
      rw [← hblocks]
      exact Int.ediv_mul_le _ h.ne'
    simp only [if_pos h]
    rw [intAdd, fitInt_of_mem (by omega) hsum, Option.bind_some, intSub,
      fitInt_of_mem (by omega) (by omega), Option.bind_some,
      intDiv_nonneg (by omega) (by omega) h, Option.bind_some, intMul, hblocks,
      fitInt_of_mem (by omega) (by omega), Option.map_some, if_neg (by omega)]
  · simp only [if_neg h, alignUp]

theorem kvCacheContinuedStep_step (hopt : opt.InRange) (enabled : Bool)
    (hsum : opt.continuedIntervalTokens + opt.boundaryAlignTokens ≤ intMax) :
    ∃ step, kvCacheContinuedStep opt enabled = some step ∧ ContinuedStep opt enabled step := by
  have hlow := hopt.interval.1
  by_cases hoff : enabled = false ∨ opt.continuedIntervalTokens ≤ 0
  · refine ⟨0, if_pos hoff, ContinuedStep.off ?_⟩
    exact hoff.imp_right fun h => le_antisymm h hlow
  · obtain ⟨hon, hpos⟩ := not_or.1 hoff
    have hup := le_alignUp opt opt.continuedIntervalTokens
    refine ⟨alignUp opt opt.continuedIntervalTokens, ?_, ?_⟩
    · rw [kvCacheContinuedStep, if_neg hoff,
        alignStep_eq (not_le.1 hpos) hsum]
    · exact ContinuedStep.every (Bool.eq_true_of_not_eq_false hon) (alignUp_aligned _)
        (by omega) hup fun m hm hle => alignUp_le hm hle

end Exact

/-- The lengths and the step that accepted options give, where the two sums are `int` values. -/
theorem kvCache_lengths {args : List (KvCacheFlag × Bytes)} {opt : KvCacheOptions}
    (h : parseOptions args = some opt) :
    (opt.minTokens + opt.boundaryTrimTokens ≤ intMax → ∀ tokens, 0 ≤ tokens → tokens ≤ intMax →
      ∃ n, kvCacheStoreLen opt tokens = some n ∧ (0 ≤ n ∧ n ≤ tokens) ∧
        StoreLength opt tokens n) ∧
    (opt.continuedIntervalTokens + opt.boundaryAlignTokens ≤ intMax → ∀ enabled,
      ∃ step, kvCacheContinuedStep opt enabled = some step ∧ ContinuedStep opt enabled step) := by
  have hopt := parseOptions_inRange h
  constructor
  · intro hsum tokens hlow hhigh
    obtain ⟨n, hn, hlength⟩ := kvCacheStoreLen_length hopt hhigh hsum
    exact ⟨n, hn, hlength.range hopt hlow, hlength⟩
  · exact fun hsum enabled => kvCacheContinuedStep_step hopt enabled hsum

/-- A trim of 0 and blocks of 1000. -/
theorem thousandBlocks_stored :
    (∃ n, kvCacheStoreLen ⟨512, 30000, 10000, 0, 1000⟩ 3500 = some n ∧ (0 ≤ n ∧ n ≤ 3500) ∧
      StoreLength ⟨512, 30000, 10000, 0, 1000⟩ 3500 n) ∧
    ∃ step, kvCacheContinuedStep ⟨512, 30000, 10000, 0, 1000⟩ true = some step ∧
      ContinuedStep ⟨512, 30000, 10000, 0, 1000⟩ true step := by
  have h : parseOptions [(.boundaryTrimTokens, [48]), (.boundaryAlignTokens, [49, 48, 48, 48])] =
      some ⟨512, 30000, 10000, 0, 1000⟩ := by decide
  obtain ⟨hlen, hstep⟩ := kvCache_lengths h
  exact ⟨hlen (by decide) 3500 (by decide) (by decide), hstep (by decide) true⟩

/-- A short prompt is stored whole, with the end of it that the trim would leave out. -/
theorem shortPrompt_whole :
    parseOptions [] = some kvCacheDefaultOptions ∧
    kvCacheStoreLen kvCacheDefaultOptions 1695 = some 1695 ∧
    ¬ Aligned kvCacheDefaultOptions 1695 := by
  refine ⟨by decide, by decide, ?_⟩
  intro h
  exact absurd (h (by decide)) (by decide)

end Ds4.KvCache
