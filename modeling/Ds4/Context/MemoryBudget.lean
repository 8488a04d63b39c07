import Ds4.Context.Open

/-! The memory of an opened context: its sizes as numbers without a bound, and when they fit. -/
namespace Ds4.Context
open Ds4.Packs (Pack TmPack TmEntry packOpen tmPackOpen add64 mul64)

/-- The largest end of a GPU's TurboMind entries, as numbers without a bound. -/
def tmEnd (p : TmPack) (gpu : ℤ) : ℕ :=
  (p.entries.toFinset.filter fun e => e.owningGpu = gpu).sup fun e => max e.weightEnd e.scaleEnd

namespace ContextOptions
variable (o : ContextOptions)

/-- The weights of a GPU reach as far as the entries of both indexes. -/
def trueArena (i : ℕ) : ℕ :=
  max ((o.packIndex.bind fun f => (packOpen f.1 f.2).toOption).elim 0 fun p => packEnd p i)
    ((o.turbomindPackIndex.bind fun f => (tmPackOpen f.1 f.2).toOption).elim 0 fun p => tmEnd p i)

def trueRelay (width : ℕ) : ℕ := relayBuffers * o.relayMaxActiveSlots * hcRows * hcCols * width

/-- The planned KV bytes: those of the option, or the aligned regions of the stage. -/
def truePlannedKv (i : ℕ) : ℕ :=
  if o.kv.kvCtxTokens = 0 then o.kv.plannedKvBytesPerGpu
  else Context.arenaBytes o.kv.kvCtxTokens o.kv.kvActiveSlots i

/-- What a GPU needs, without its reserve. -/
def trueUsed (i : ℕ) : ℕ :=
  o.trueArena i + o.scratchBytesPerGpu + o.trueRelay 2 +
    (if o.enableF32DebugRelay then o.trueRelay 4 else 0) + o.truePlannedKv i +
    onLastStage i o.outputHeadReserveBytes + onLastStage i o.mtpReserveBytes

end ContextOptions

/-- Every GPU of an opened context holds what it needs and its reserve; no size of the plan is
saturated and no sum has wrapped. -/
structure MemoryAdmitted (o : ContextOptions) (ctx : OpenContext) : Prop where
  fits : ∀ i < expectedGpus,
    o.trueUsed i + o.reserveBytesPerGpu ≤ (ctx.stages i).deviceTotalBytes
  planned : ∀ i < expectedGpus, (ctx.stages i).plannedKvBytes = o.truePlannedKv i
  used : ∀ i < expectedGpus, checkedStageUsed (ctx.stages i) = o.trueUsed i

section Budget
variable {o : ContextOptions} {ctx : OpenContext} {p : TmPack} {b b' : BindContext}

theorem le_tmEnd {e : TmEntry} {i : ℕ} (he : e ∈ p.entries) (hg : e.owningGpu = i) :
    e.weightEnd ≤ tmEnd p i ∧ e.scaleEnd ≤ tmEnd p i := by
  have hmem : e ∈ p.entries.toFinset.filter fun e => e.owningGpu = (i : ℤ) :=
    Finset.mem_filter.2 ⟨List.mem_toFinset.2 he, hg⟩
  have hend : max e.weightEnd e.scaleEnd ≤ tmEnd p i :=
    Finset.le_sup (f := fun e : TmEntry => max e.weightEnd e.scaleEnd) hmem
  exact ⟨(le_max_left _ _).trans hend, (le_max_right _ _).trans hend⟩

/-- An arena does not grow beyond the last expert. -/
theorem bindTmEntries_le (es : List TmEntry) : ∀ b : BindContext, (∀ e ∈ es, e ∈ p.entries) →
    bindTmEntries b es = .ok b' → ∀ i : ℕ,
    (b'.stages i).arenaBytes ≤ max (b.stages i).arenaBytes (tmEnd p i) := by
  induction es with
  | nil =>
    intro b _ h i
    cases h
    exact le_max_left _ _
  | cons e es ih =>
    intro b hes h i
    rw [bindTmEntries] at h
    cases hb : bindTmPackEntry b e with
    | error err =>
      rw [hb] at h
      cases h
    | ok mid =>
      rw [hb] at h
      refine (ih mid (fun x hx => hes x (List.mem_cons_of_mem e hx)) h i).trans ?_
      apply max_le _ (le_max_right _ _)
      have hgpu := bindTmPackEntry_owner hb
      obtain ⟨policy, rfl⟩ := bindTmPackEntry_ok hb
      by_cases hi : i = e.owningGpu.toNat
      · have hown : e.owningGpu = i := by omega
        obtain ⟨hw, hs⟩ := le_tmEnd (hes e List.mem_cons_self) hown
        have hw64 : e.weightEnd64 ≤ e.weightEnd :=
          (Nat.mod_le _ _).trans (Nat.add_le_add_left (Nat.mod_le _ _) _)
        have hs64 : e.scaleEnd64 ≤ e.scaleEnd :=
          (Nat.mod_le _ _).trans (Nat.add_le_add_left (Nat.mod_le _ _) _)
        have hgrow : ((placeTmEntry b e policy).stages i).arenaBytes =
            growArena (b.stages i).arenaBytes e := by
          rw [hi]
          simp [placeTmEntry]
        rw [hgrow]
        unfold growArena
        omega
      · have hsame : ((placeTmEntry b e policy).stages i).arenaBytes = (b.stages i).arenaBytes := by
          simp [placeTmEntry, Function.update_of_ne hi]
        rw [hsame]
        exact le_max_left _ _

/-- Where no end leaves the 64 bits, an arena ends behind the last expert, or where it did. -/
theorem bindTmPack_arena {i : ℕ} (hbind : bindTmPack b p = .ok b') (h : tmEnd p i < 2 ^ 64) :
    (b'.stages i).arenaBytes = max (b.stages i).arenaBytes (tmEnd p i) := by
  obtain ⟨hmono, hends⟩ := bindTmEntries_arena _ b hbind
  apply le_antisymm (bindTmEntries_le _ b (fun e he => he) hbind i)
  apply max_le (hmono i)
  apply Finset.sup_le
  intro e he
  obtain ⟨hmem, hg⟩ := Finset.mem_filter.1 he
  rw [List.mem_toFinset] at hmem
  obtain ⟨hweight, hscale⟩ := le_tmEnd hmem hg
  obtain ⟨hw, hs⟩ := hends e hmem
  have hguard := p.guarded e hmem
  rw [(Packs.weightEnd64_eq hguard (by unfold TmEntry.weightEnd at hweight; omega)).1] at hw
  rw [(Packs.scaleEnd64_eq hguard (by unfold TmEntry.scaleEnd at hscale; omega)).1] at hs
  rw [hg, Int.toNat_natCast] at hw hs
  exact max_le hw hs

/-- The stages that the budget was checked of. -/
theorem validateMemoryBudget_ok {stages : ℕ → StageInfo} (is : List ℕ)
    (h : validateMemoryBudget stages is = .ok ()) : ∀ i ∈ is,
    checkedStageUsed (stages i) + (stages i).reserveBytes ≤ (stages i).deviceTotalBytes := by
  induction is with
  | nil =>
    intro i hi
    cases hi
  | cons j is ih =>
    unfold validateMemoryBudget at h
    simp only at h
    split_ifs at h with hover
    intro i hi
    rcases List.mem_cons.1 hi with rfl | hi
    · omega
    · exact ih h i hi

/-- What was found good on the way to an opened context. -/
theorem contextOpen_ok (hprod : o.requireProductionTopology = true) (h : contextOpen o = .ok ctx) :
    ∃ plan total bound mid, openPlan o.kv = .ok plan ∧ o.validateTopology = .ok total ∧
      o.bindPackIndex = .ok mid ∧ o.bindTmPackIndex mid = .ok bound ∧
      ctx.stages = o.stage plan (fun i => (bound.stages i).arenaBytes) total ∧
      validateMemoryBudget ctx.stages (List.range expectedGpus) = .ok () := by
  unfold contextOpen at h
  simp only [hprod, Bool.true_eq_false, if_false] at h
  split_ifs at h
  cases hplan : openPlan o.kv with
  | error e =>
    rw [hplan] at h
    cases h
  | ok plan =>
    rw [hplan] at h
    cases htop : o.validateTopology with
    | error e =>
      rw [htop] at h
      cases h
    | ok total =>
      rw [htop] at h
      cases hpack : o.bindPackIndex with
      | error e =>
        rw [hpack] at h
        cases h
      | ok mid =>
        rw [hpack] at h
        cases htm : o.bindTmPackIndex mid with
        | error e =>
          simp only [htm] at h
          cases h
        | ok bound =>
          simp only [htm] at h
          cases hbudget : validateMemoryBudget
              (o.stage plan (fun i => (bound.stages i).arenaBytes) total)
              (List.range expectedGpus) with
          | error e =>
            rw [hbudget] at h
            cases h
          | ok u =>
            rw [hbudget] at h
            obtain rfl := Except.ok.inj h
            exact ⟨plan, total, bound, mid, rfl, rfl, rfl, htm, rfl, hbudget⟩

/-- The memory of a device is a number of 64 bits. -/
theorem validateTopology_lt (hprod : o.requireProductionTopology = true) {total : ℕ → ℕ}
    (h : o.validateTopology = .ok total) (i : ℕ) : total i < 2 ^ 64 := by
  unfold ContextOptions.validateTopology at h
  simp only [hprod, Bool.true_eq_false, if_false] at h
  split_ifs at h
  cases hfacts : ContextOptions.checkFacts 0 o.deviceFacts with
  | error e =>
    rw [hfacts] at h
    cases h
  | ok u =>
    rw [hfacts] at h
    cases hpeers : ContextOptions.checkPeers 0 o.deviceFacts with
    | error e =>
      rw [hpeers] at h
      cases h
    | ok v =>
      rw [hpeers] at h
      obtain rfl := Except.ok.inj h
      simp only
      cases hi : o.deviceFacts[i]? with
      | none => exact Nat.two_pow_pos 64
      | some f => exact f.totalGlobalMem_lt

/-- The plan of an opened context plans what the layers need, where no GPU's sum leaves 64 bits. -/
theorem plannedKv_eq {plan : Option KvPlan} (hplan : openPlan o.kv = .ok plan)
    (hfit : ∀ i < expectedGpus, o.truePlannedKv i < 2 ^ 64) (arena total : ℕ → ℕ) {i : ℕ}
    (hi : i < expectedGpus) : (o.stage plan arena total i).plannedKvBytes = o.truePlannedKv i := by
  unfold openPlan at hplan
  cases herror : o.kv.error with
  | some e =>
    rw [herror] at hplan
    cases hplan
  | none =>
    rw [herror] at hplan
    simp only [Except.ok.injEq] at hplan
    unfold applyDerivedKvPlan at hplan
    by_cases hctx : o.kv.kvCtxTokens = 0
    · rw [if_pos hctx] at hplan
      rw [← hplan, ContextOptions.truePlannedKv, if_pos hctx]
      rfl
    · have hslots : o.kv.kvActiveSlots ≠ 0 := by
        intro hslots
        rw [KvOptions.error, if_pos ⟨hctx, hslots⟩] at herror
        cases herror
      have hsizes : SizesFit o.kv.kvCtxTokens o.kv.kvActiveSlots := by
        intro stage hstage
        have h := hfit stage hstage
        rw [ContextOptions.truePlannedKv, if_neg hctx] at h
        unfold maxU64
        omega
      rw [if_neg hctx] at hplan
      rw [← hplan, ContextOptions.truePlannedKv, if_neg hctx]
      exact (stageKv_region hsizes hctx hslots hi).2

theorem relayBytes_eq {width : ℕ} (h : o.trueRelay width < 2 ^ 64) :
    o.relayBytes width = o.trueRelay width := by
  unfold ContextOptions.relayBytes mul64
  unfold ContextOptions.trueRelay relayBuffers hcRows hcCols at h ⊢
  simp only [Nat.mod_mul_mod]
  exact Nat.mod_eq_of_lt h

/-- An arena is as large as the weights of its GPU, where no end leaves the 64 bits. -/
theorem trueArena_eq {mid bound : PackBindContext} (hpack : o.bindPackIndex = .ok mid)
    (htm : o.bindTmPackIndex mid = .ok bound) {i : ℕ} (hi : i < expectedGpus)
    (h : o.trueArena i < 2 ^ 64) : (bound.stages i).arenaBytes = o.trueArena i := by
  unfold ContextOptions.trueArena at h ⊢
  have hmid : (mid.stages i).arenaBytes =
      (o.packIndex.bind fun f => (packOpen f.1 f.2).toOption).elim 0 fun p => packEnd p i := by
    unfold ContextOptions.bindPackIndex at hpack
    cases hindex : o.packIndex with
    | none =>
      rw [hindex] at hpack
      obtain rfl := Except.ok.inj hpack
      rfl
    | some f =>
      rw [hindex] at hpack h
      obtain ⟨path, content⟩ := f
      simp only at hpack
      simp only [Option.bind_some] at h ⊢
      cases hopen : packOpen path content with
      | error e =>
        rw [hopen] at hpack
        cases hpack
      | ok p =>
        rw [hopen] at hpack h
        have hend : packEnd p i < 2 ^ 64 := (le_max_left _ _).trans_lt h
        rw [bindPack_arena hpack hi, packArenaBytes_eq hend]
        rfl
  rw [← hmid]
  unfold ContextOptions.bindTmPackIndex at htm
  cases hindex : o.turbomindPackIndex with
  | none =>
    rw [hindex] at htm
    obtain rfl := Except.ok.inj htm
    exact (max_eq_left (Nat.zero_le _)).symm
  | some f =>
    rw [hindex] at htm h
    obtain ⟨path, content⟩ := f
    simp only at htm
    simp only [Option.bind_some] at h ⊢
    cases hopen : tmPackOpen path content with
    | error e =>
      rw [hopen] at htm
      cases htm
    | ok p =>
      rw [hopen] at htm h
      simp only at htm
      cases hbind : bindTmPack mid.toBindContext p with
      | error e =>
        rw [hbind] at htm
        cases htm
      | ok b =>
        rw [hbind] at htm
        obtain rfl := Except.ok.inj htm
        exact bindTmPack_arena hbind ((le_max_right _ _).trans_lt h)

/-- A sum that fits is the sum the code compares. -/
theorem checkedStageUsed_eq {s : StageInfo}
    (h : s.arenaBytes + s.scratchBytes + s.relayF16Bytes + s.relayF32DebugBytes +
      s.plannedKvBytes + s.outputHeadReserveBytes + s.mtpReserveBytes < 2 ^ 64) :
    checkedStageUsed s = s.arenaBytes + s.scratchBytes + s.relayF16Bytes + s.relayF32DebugBytes +
      s.plannedKvBytes + s.outputHeadReserveBytes + s.mtpReserveBytes := by
  unfold checkedStageUsed add64
  omega

/-- An opened context has the memory it needs on every GPU exactly when no GPU's true sum leaves
the 64 bits that the code adds in. -/
theorem memoryAdmitted_iff (hprod : o.requireProductionTopology = true)
    (h : contextOpen o = .ok ctx) :
    MemoryAdmitted o ctx ↔ ∀ i < expectedGpus, o.trueUsed i < 2 ^ 64 := by
  obtain ⟨plan, total, bound, mid, hplan, htop, hpack, htm, hstages, hbudget⟩ :=
    contextOpen_ok hprod h
  have htotal : ∀ i, (ctx.stages i).deviceTotalBytes = total i := by
    intro i
    rw [hstages]
    rfl
  constructor
  · intro hadmitted i hi
    have hle := hadmitted.fits i hi
    have hlt := validateTopology_lt hprod htop i
    rw [htotal] at hle
    omega
  · intro hfit
    have hparts : ∀ j < expectedGpus, o.truePlannedKv j < 2 ^ 64 := by
      intro j hj
      have hj' := hfit j hj
      unfold ContextOptions.trueUsed at hj'
      omega
    have hplanned : ∀ i < expectedGpus, (ctx.stages i).plannedKvBytes = o.truePlannedKv i := by
      intro i hi
      rw [hstages]
      exact plannedKv_eq hplan hparts _ _ hi
    have hsum : ∀ i < expectedGpus, checkedStageUsed (ctx.stages i) = o.trueUsed i := by
      intro i hi
      have hused := hfit i hi
      unfold ContextOptions.trueUsed at hused ⊢
      have harena := trueArena_eq hpack htm hi (by omega)
      have hrelay : o.relayBytes 2 = o.trueRelay 2 := relayBytes_eq (by omega)
      have hdebug : (if o.enableF32DebugRelay then o.relayBytes 4 else 0) =
          if o.enableF32DebugRelay then o.trueRelay 4 else 0 := by
        by_cases hd : o.enableF32DebugRelay = true
        · rw [if_pos hd] at hused ⊢
          rw [if_pos hd]
          exact relayBytes_eq (by omega)
        · rw [if_neg hd, if_neg hd]
      have hparts : (ctx.stages i).arenaBytes + (ctx.stages i).scratchBytes +
          (ctx.stages i).relayF16Bytes + (ctx.stages i).relayF32DebugBytes +
          (ctx.stages i).plannedKvBytes + (ctx.stages i).outputHeadReserveBytes +
          (ctx.stages i).mtpReserveBytes = o.trueArena i + o.scratchBytesPerGpu + o.trueRelay 2 +
            (if o.enableF32DebugRelay then o.trueRelay 4 else 0) + o.truePlannedKv i +
            onLastStage i o.outputHeadReserveBytes + onLastStage i o.mtpReserveBytes := by
        rw [hplanned i hi, hstages]
        simp only [ContextOptions.stage]
        rw [harena, hrelay, hdebug]
      rw [checkedStageUsed_eq (hparts ▸ hused), hparts]
    refine ⟨?_, hplanned, hsum⟩
    intro i hi
    have hchecked := validateMemoryBudget_ok _ hbudget i (List.mem_range.2 hi)
    have hreserve : (ctx.stages i).reserveBytes = o.reserveBytesPerGpu := by
      rw [hstages]
      rfl
    rwa [hsum i hi, hreserve] at hchecked

end Budget

section Sample

theorem sampleMem_lt : 32 * 1024 * 1024 * 1024 < 2 ^ 64 := by norm_num

/-- A V100 with 32 GiB that reaches all the others. -/
def sampleDevice (i : ℕ) : DeviceFact :=
  ⟨i, 7, 32 * 1024 * 1024 * 1024, fun _ => true, sampleMem_lt⟩

theorem sampleTokens_lt : 8192 < 2 ^ 64 := by norm_num

theorem hugeTokens_lt : 2 ^ 62 < 2 ^ 64 := by norm_num

theorem oneSlot_lt : 1 < 2 ^ 64 := by norm_num

def sampleKv : KvOptions := ⟨8192, 1, 0, sampleTokens_lt, oneSlot_lt⟩

/-- More tokens than any memory holds the rows of. -/
def hugeKv : KvOptions := ⟨2 ^ 62, 1, 0, hugeTokens_lt, oneSlot_lt⟩

/-- The production topology, without indexes. -/
def sampleOptions (kv : KvOptions) : ContextOptions :=
  ⟨none, none, 8, true, false, 1024, 1, 2 * 1024 * 1024 * 1024, kv, 0, 0,
    (List.range 8).map sampleDevice⟩

theorem sampleOptions_admitted : ∃ ctx, contextOpen (sampleOptions sampleKv) = .ok ctx ∧
    MemoryAdmitted (sampleOptions sampleKv) ctx := by
  have hopen : (contextOpen (sampleOptions sampleKv)).toOption.isSome = true := by decide
  cases h : contextOpen (sampleOptions sampleKv) with
  | error e =>
    rw [h] at hopen
    cases hopen
  | ok ctx =>
    have hfit : ∀ i < 8, (sampleOptions sampleKv).trueUsed i < 2 ^ 64 := by decide
    exact ⟨ctx, rfl, (memoryAdmitted_iff rfl h).2 hfit⟩

/-- A plan that saturates is taken: the sum wraps. -/
theorem saturatedPlan_opened : ∃ ctx, contextOpen (sampleOptions hugeKv) = .ok ctx ∧
    ¬ MemoryAdmitted (sampleOptions hugeKv) ctx := by
  have htotal : (contextOpen (sampleOptions hugeKv)).toOption.map
      (fun ctx => (ctx.stages 0).deviceTotalBytes) = some (32 * 1024 * 1024 * 1024) := by
    decide
  cases h : contextOpen (sampleOptions hugeKv) with
  | error e =>
    rw [h] at htotal
    cases htotal
  | ok ctx =>
    rw [h] at htotal
    refine ⟨ctx, rfl, ?_⟩
    intro hadmitted
    have hlarge : 2 ^ 64 ≤ (sampleOptions hugeKv).trueUsed 0 := by decide
    have hfit := hadmitted.fits 0 (by decide)
    have hmem : (ctx.stages 0).deviceTotalBytes = 32 * 1024 * 1024 * 1024 :=
      Option.some.inj htotal
    rw [hmem] at hfit
    omega

end Sample

end Ds4.Context
