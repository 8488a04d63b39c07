import Ds4.Context.Policy
import Ds4.Packs.Turbomind

/-! Binding of the TurboMind index into a context: the arenas of the GPUs grow until they hold
every entry. -/
namespace Ds4.Context
open Ds4.Packs (TmEntry TmPack mul64 add64 tmPackSidecarBytes tmPackOpen)

/-- What binding changes of a stage. -/
structure BoundStage where
  tensorCount : ℕ
  arenaBytes : ℕ

/-- What binding changes of a layer. -/
structure BoundLayer where
  tensorCount : ℕ
  hasMxfp4Expert : Bool

/-- The parts of a context that binding reads and writes. -/
structure BindContext where
  expectedGpus : ℤ
  stages : ℕ → BoundStage
  layers : ℕ → BoundLayer
  tmDescs : List (TmEntry × Policy)
  execCounts : ExecKind → ℕ

def isRoutedExpertId (id : Bytes) : Bool :=
  strstr id (lit ".ffn_gate_exps.weight") || strstr id (lit ".ffn_up_exps.weight") ||
  strstr id (lit ".ffn_gate_up_exps.weight") || strstr id (lit ".ffn_gate_up_exps.tp0.weight") ||
  strstr id (lit ".ffn_gate_up_exps.tp1.weight") || strstr id (lit ".ffn_down_exps.tp0.weight") ||
  strstr id (lit ".ffn_down_exps.tp1.weight") || strstr id (lit ".ffn_down_exps.weight")

def isTpRoutedExpertId (id : Bytes) : Bool :=
  strstr id (lit ".ffn_gate_up_exps.tp0.weight") ||
  strstr id (lit ".ffn_gate_up_exps.tp1.weight") ||
  strstr id (lit ".ffn_down_exps.tp0.weight") || strstr id (lit ".ffn_down_exps.tp1.weight")

/-- The shape of an entry has the sizes its columns name. -/
def shapeMatches (e : TmEntry) : Bool :=
  (parseShapeDims e.sourceShape).map Prod.fst == some [e.k, e.n, e.expertsTotal]

/-- The arena behind the two comparisons. -/
def growArena (arena : ℕ) (e : TmEntry) : ℕ := max (max arena e.weightEnd64) e.scaleEnd64

/-- What is written once an entry is found good. -/
def placeTmEntry (ctx : BindContext) (e : TmEntry) (policy : Policy) : BindContext :=
  let gpu := e.owningGpu.toNat
  let layer := e.layerId.toNat
  { ctx with
    stages := Function.update ctx.stages gpu
      ⟨(ctx.stages gpu).tensorCount + 1, growArena (ctx.stages gpu).arenaBytes e⟩
    layers := Function.update ctx.layers layer ⟨(ctx.layers layer).tensorCount + 1, true⟩
    tmDescs := ctx.tmDescs ++ [(e, policy)]
    execCounts := Function.update ctx.execCounts policy.execKind
      (ctx.execCounts policy.execKind + 1) }

def maxGpu (ctx : BindContext) : ℤ := if 0 < ctx.expectedGpus then ctx.expectedGpus else 8

def bindTmPackEntry (ctx : BindContext) (e : TmEntry) : Except String BindContext :=
  let id := shown e.semanticTensorId
  if e.owningGpu < 0 ∨ maxGpu ctx ≤ e.owningGpu then
    .error (id ++ " has invalid TurboMind owning GPU " ++ toString e.owningGpu)
  else if e.layerId < 0 ∨ (nLayers : ℤ) ≤ e.layerId then
    .error (id ++ " has invalid TurboMind layer id " ++ toString e.layerId)
  else if isTpRoutedExpertId e.semanticTensorId = false ∧
      stageForLayer e.layerId.toNat ≠ e.owningGpu.toNat then
    .error (id ++ " TurboMind owner gpu " ++ toString e.owningGpu ++ " does not match layer " ++
      toString e.layerId ++ " stage " ++ toString (stageForLayer e.layerId.toNat))
  else if isRoutedExpertId e.semanticTensorId = false then
    .error (id ++ " TurboMind binding is not a routed expert tensor")
  else if strEqCi e.sourceDtype (lit "mxfp4") = false then
    .error (id ++ " TurboMind source dtype must be mxfp4")
  else if shapeMatches e = false then
    .error (id ++ " TurboMind shape does not match n/k/expert metadata")
  else
    match classifyOrDie e.sourceDtype e.runtimeLayout e.kernelFamily with
    | .error err => .error err
    | .ok policy =>
        if e.weightEnd64 < e.weightOffset ∨ e.scaleEnd64 < e.scaleOffset then
          .error (id ++ " TurboMind arena span overflows")
        else .ok (placeTmEntry ctx e policy)

/-- `ds4_tm_pack_for_each`, with the binding of an entry. -/
def bindTmEntries : BindContext → List TmEntry → Except String BindContext
  | ctx, [] => .ok ctx
  | ctx, e :: es =>
      match bindTmPackEntry ctx e with
      | .error err => .error err
      | .ok ctx' => bindTmEntries ctx' es

def bindTmPack (ctx : BindContext) (p : TmPack) : Except String BindContext :=
  bindTmEntries ctx p.entries

/-- `grow_span_for_turbomind_view`, on the view of an entry. -/
def growSpanForTurbomindView (e : TmEntry) (span : ℕ) : Option ℕ :=
  if e.weightEnd64 < e.weightOffset ∨ e.scaleEnd64 < e.scaleOffset then none
  else some (growArena span e)

section Bind
variable {ctx ctx' : BindContext} {e : TmEntry} {es : List TmEntry}

theorem le_growArena (arena : ℕ) (e : TmEntry) :
    arena ≤ growArena arena e ∧ e.weightEnd64 ≤ growArena arena e ∧
      e.scaleEnd64 ≤ growArena arena e := by
  unfold growArena
  omega

/-- An entry that is bound was placed. -/
theorem bindTmPackEntry_ok (h : bindTmPackEntry ctx e = .ok ctx') :
    ∃ policy, ctx' = placeTmEntry ctx e policy := by
  unfold bindTmPackEntry at h
  cases hp : classifyOrDie e.sourceDtype e.runtimeLayout e.kernelFamily with
  | error err =>
    simp only [hp] at h
    split_ifs at h
  | ok policy =>
    simp only [hp] at h
    split_ifs at h
    exact ⟨policy, (Except.ok.inj h).symm⟩

/-- The owner of an entry that is bound is a GPU. -/
theorem bindTmPackEntry_owner (h : bindTmPackEntry ctx e = .ok ctx') : 0 ≤ e.owningGpu := by
  unfold bindTmPackEntry at h
  by_contra hneg
  rw [if_pos (Or.inl (not_le.1 hneg))] at h
  cases h

/-- One entry: no arena shrinks, and its own holds both of its ends. -/
theorem bindTmPackEntry_arena (h : bindTmPackEntry ctx e = .ok ctx') :
    (∀ gpu, (ctx.stages gpu).arenaBytes ≤ (ctx'.stages gpu).arenaBytes) ∧
      e.weightEnd64 ≤ (ctx'.stages e.owningGpu.toNat).arenaBytes ∧
      e.scaleEnd64 ≤ (ctx'.stages e.owningGpu.toNat).arenaBytes := by
  obtain ⟨policy, rfl⟩ := bindTmPackEntry_ok h
  have hgrow := le_growArena (ctx.stages e.owningGpu.toNat).arenaBytes e
  have hown : ((placeTmEntry ctx e policy).stages e.owningGpu.toNat).arenaBytes =
      growArena (ctx.stages e.owningGpu.toNat).arenaBytes e := by
    simp [placeTmEntry]
  constructor
  · intro gpu
    by_cases hg : gpu = e.owningGpu.toNat
    · rw [hg, hown]
      exact hgrow.1
    · simp [placeTmEntry, Function.update_of_ne hg]
  · rw [hown]
    exact hgrow.2

/-- All of them: every arena holds what was bound into it. -/
theorem bindTmEntries_arena (es : List TmEntry) : ∀ ctx : BindContext,
    bindTmEntries ctx es = .ok ctx' →
    (∀ gpu, (ctx.stages gpu).arenaBytes ≤ (ctx'.stages gpu).arenaBytes) ∧
      ∀ e ∈ es, e.weightEnd64 ≤ (ctx'.stages e.owningGpu.toNat).arenaBytes ∧
        e.scaleEnd64 ≤ (ctx'.stages e.owningGpu.toNat).arenaBytes := by
  induction es with
  | nil =>
    intro ctx h
    cases h
    constructor
    · exact fun gpu => le_refl _
    · intro e he
      cases he
  | cons e es ih =>
    intro ctx h
    rw [bindTmEntries] at h
    cases hb : bindTmPackEntry ctx e with
    | error err =>
      rw [hb] at h
      cases h
    | ok mid =>
      rw [hb] at h
      obtain ⟨hmono, hown⟩ := bindTmPackEntry_arena hb
      obtain ⟨hmono', hrest⟩ := ih mid h
      constructor
      · exact fun gpu => (hmono gpu).trans (hmono' gpu)
      · intro x hx
        rcases List.mem_cons.1 hx with rfl | hx
        · exact ⟨hown.1.trans (hmono' _), hown.2.trans (hmono' _)⟩
        · exact hrest x hx

end Bind

/-- Every range of the index ends below `2 ^ 64`, inside its file, inside the arena it is bound
into and inside every span grown for it. -/
def RealExtents (p : TmPack) : Prop :=
  ∀ e ∈ p.entries,
    (e.weightEnd < 2 ^ 64 ∧ e.scaleEnd < 2 ^ 64) ∧
    (∃ n, tmPackSidecarBytes p e.sidecarFile = some n ∧ e.weightEnd ≤ n ∧ e.scaleEnd ≤ n) ∧
    (∀ ctx ctx', bindTmPack ctx p = .ok ctx' →
      e.weightEnd ≤ (ctx'.stages e.owningGpu.toNat).arenaBytes ∧
      e.scaleEnd ≤ (ctx'.stages e.owningGpu.toNat).arenaBytes) ∧
    (∀ span, ∃ n, growSpanForTurbomindView e span = some n ∧ e.weightEnd ≤ n ∧ e.scaleEnd ≤ n)

/-- No product of the index leaves the 64 bits. -/
def SmallProducts (p : TmPack) : Prop :=
  ∀ e ∈ p.entries, e.weightBytes < 2 ^ 64 ∧ e.scaleBytes < 2 ^ 64

/-- The overflow check of a row bounds the sums, never the products: the extents are real exactly
when the products are small. -/
theorem realExtents_iff {path : String} {content : Bytes} {p : TmPack}
    (_ : tmPackOpen path content = .ok p) : RealExtents p ↔ SmallProducts p := by
  constructor
  · intro h e he
    obtain ⟨⟨hw, hs⟩, -⟩ := h e he
    unfold TmEntry.weightEnd at hw
    unfold TmEntry.scaleEnd at hs
    omega
  · intro h e he
    have hg := p.guarded e he
    obtain ⟨hw, hwlt⟩ := Packs.weightEnd64_eq hg (h e he).1
    obtain ⟨hs, hslt⟩ := Packs.scaleEnd64_eq hg (h e he).2
    refine ⟨⟨hwlt, hslt⟩, ?_, ?_, ?_⟩
    · rw [← hw, ← hs]
      exact Packs.sidecarBytes_covers he
    · intro ctx ctx' hbind
      rw [← hw, ← hs]
      exact (bindTmEntries_arena _ ctx hbind).2 e he
    · intro span
      have hnowrap : ¬ (e.weightEnd64 < e.weightOffset ∨ e.scaleEnd64 < e.scaleOffset) := by
        rw [hw, hs]
        unfold TmEntry.weightEnd TmEntry.scaleEnd
        omega
      rw [growSpanForTurbomindView, if_neg hnowrap, ← hw, ← hs]
      exact ⟨_, rfl, (le_growArena span e).2⟩

/-- A row of two experts, with the bytes of the weights of one of them as given. -/
def sampleTmRow (bytes : String) : Bytes :=
  lit "blk.0.ffn_up_exps.weight\tt\tmxfp4\t[32x8x2]\trow\t0\t0\tmxfp4\t8\t32\t2\t2\t" ++
    lit bytes ++ lit "\t1\t0\t0\t0\tgpu0.turbomind\t0\t0\ts\t0\t0\tc\t1"

def sampleTmIndex (bytes : String) : Bytes :=
  Packs.tmPackHeader ++ [10] ++ sampleTmRow bytes ++ [10]

/-- What the sample index holds, as far as its extents go. -/
def sizesOf (p : TmPack) : List (ℕ × ℕ × ℕ) :=
  p.entries.map fun e => (e.expertsPacked, e.weightBytesPerExpert, e.scaleBytesPerExpert)

theorem sampleTmIndex_small : ∃ p, tmPackOpen "tm_index.tsv" (sampleTmIndex "16") = .ok p ∧
    RealExtents p := by
  have h : (tmPackOpen "tm_index.tsv" (sampleTmIndex "16")).toOption.map sizesOf =
      some [(2, 16, 1)] := by
    decide +kernel
  cases hp : tmPackOpen "tm_index.tsv" (sampleTmIndex "16") with
  | error err =>
    rw [hp] at h
    cases h
  | ok p =>
    rw [hp] at h
    have hsizes : sizesOf p = [(2, 16, 1)] := Option.some.inj h
    refine ⟨p, rfl, (realExtents_iff hp).2 ?_⟩
    intro e he
    have hmem : (e.expertsPacked, e.weightBytesPerExpert, e.scaleBytesPerExpert) ∈ sizesOf p :=
      List.mem_map_of_mem he
    rw [hsizes, List.mem_singleton, Prod.mk.injEq, Prod.mk.injEq] at hmem
    rw [TmEntry.weightBytes, TmEntry.scaleBytes, hmem.1, hmem.2.1, hmem.2.2]
    decide

/-- Two experts of `2 ^ 63` bytes: the product is 0, the row is taken, the range ends beyond the
64 bits. -/
theorem wrappedProduct_accepted :
    ∃ p, tmPackOpen "tm_index.tsv" (sampleTmIndex "9223372036854775808") = .ok p ∧
      ¬ RealExtents p := by
  have h : (tmPackOpen "tm_index.tsv" (sampleTmIndex "9223372036854775808")).toOption.map sizesOf =
      some [(2, 2 ^ 63, 1)] := by
    decide +kernel
  cases hp : tmPackOpen "tm_index.tsv" (sampleTmIndex "9223372036854775808") with
  | error err =>
    rw [hp] at h
    cases h
  | ok p =>
    rw [hp] at h
    have hsizes : sizesOf p = [(2, 2 ^ 63, 1)] := Option.some.inj h
    refine ⟨p, rfl, ?_⟩
    intro hreal
    have hmem : ((2, 2 ^ 63, 1) : ℕ × ℕ × ℕ) ∈ sizesOf p := by
      rw [hsizes]
      exact List.mem_singleton.2 rfl
    obtain ⟨e, he, hsize⟩ := List.mem_map.1 hmem
    rw [Prod.mk.injEq, Prod.mk.injEq] at hsize
    obtain ⟨⟨hw, -⟩, -⟩ := hreal e he
    rw [TmEntry.weightEnd, TmEntry.weightBytes, hsize.1, hsize.2.1] at hw
    omega

end Ds4.Context
