import Ds4.Context.Open
import Ds4.Context.ShapeText

/-! The tensors of a layer, looked up in an open context by their names. -/
namespace Ds4.Context
open Ds4.Packs (PackEntry Pack TmEntry TmPack printDecimal add64 packOpen)

/-- `ds4_tensor_binding`: the columns of a row, its policy and its dimensions. -/
structure TensorBinding extends PackEntry where
  policy : Policy
  shape : List ℕ

/-- `ds4_turbomind_binding`. -/
structure TurbomindBinding extends TmEntry where
  policy : Policy
  shape : List ℕ

/-- A dimension; behind the last one they are zero. -/
def TensorBinding.dim (b : TensorBinding) (i : ℕ) : ℕ := b.shape.getD i 0

def TurbomindBinding.dim (b : TurbomindBinding) (i : ℕ) : ℕ := b.shape.getD i 0

/-- The bytes of the arena that hold the tensor. -/
def TensorBinding.extent (b : TensorBinding) : Parts.Extent := ⟨b.shardOffset, b.byteLength⟩

def fillBinding (desc : PackEntry × Policy) : Except String TensorBinding :=
  match parseShapeDims desc.1.sourceShape with
  | none => .error (shown desc.1.semanticTensorId ++ " has invalid source shape " ++
      shown desc.1.sourceShape)
  | some (dims, _) => .ok ⟨desc.1, desc.2, dims⟩

def fillTmBinding (desc : TmEntry × Policy) : Except String TurbomindBinding :=
  match parseShapeDims desc.1.sourceShape with
  | none => .error (shown desc.1.semanticTensorId ++ " has invalid TurboMind source shape " ++
      shown desc.1.sourceShape)
  | some (dims, _) => .ok ⟨desc.1, desc.2, dims⟩

def lookupTensorBinding (ctx : PackBindContext) (id : Bytes) : Except String TensorBinding :=
  if id = [] then .error "missing semantic tensor id"
  else
    match ctx.descs.find? fun desc => desc.1.semanticTensorId == id with
    | none => .error ("missing tensor descriptor " ++ shown id)
    | some desc => fillBinding desc

def lookupTurbomindBinding (ctx : PackBindContext) (id : Bytes) :
    Except String TurbomindBinding :=
  if id = [] then .error "missing semantic tensor id"
  else
    match ctx.tmDescs.find? fun desc => desc.1.semanticTensorId == id with
    | none => .error ("missing TurboMind tensor descriptor " ++ shown id)
    | some desc => fillTmBinding desc

/-- The name `blk.N.suffix`, in a buffer of 192 bytes. -/
def layerTensorId (layer : ℤ) (suffix : String) : Except String Bytes :=
  if layer < 0 ∨ (nLayers : ℤ) ≤ layer then .error ("bad layer id " ++ toString layer)
  else if suffix = "" then .error "missing layer tensor suffix"
  else
    let id := lit "blk." ++ printDecimal layer.toNat ++ lit "." ++ lit suffix
    if 192 ≤ id.length then .error "layer tensor id too long" else .ok id

def requireLayerTensorBinding (ctx : PackBindContext) (layer : ℤ) (suffix : String) :
    Except String TensorBinding :=
  layerTensorId layer suffix >>= lookupTensorBinding ctx

def requireLayerTurbomindBinding (ctx : PackBindContext) (layer : ℤ) (suffix : String) :
    Except String TurbomindBinding :=
  layerTensorId layer suffix >>= lookupTurbomindBinding ctx

/-- What succeeds behind a step has the step's result. -/
theorem bind_eq_ok {α β : Type} {x : Except String α} {f : α → Except String β} {b : β} :
    (x >>= f) = .ok b ↔ ∃ a, x = .ok a ∧ f a = .ok b := by
  constructor
  · intro h
    cases x with
    | error e => cases h
    | ok a => exact ⟨a, rfl, h⟩
  · rintro ⟨a, rfl, h⟩
    exact h

/-- A row that was bound: its bytes are those of its shape, inside the arena of its GPU. -/
structure PlacedEntry (ctx : BindContext) (e : PackEntry) : Prop where
  bytes : expectedBytesForEntry e = some e.byteLength
  arena : e.shardOffset + e.byteLength ≤ (ctx.stages e.owningGpu.toNat).arenaBytes
  fits : e.shardOffset + e.byteLength < 2 ^ 64

section Placed
variable {p : Pack} {ctx ctx' : PackBindContext} {e : PackEntry} {gpu : ℤ}

theorem packArenaBytes_lt (p : Pack) (gpu : ℤ) : packArenaBytes p gpu < 2 ^ 64 := by
  have hfold : ∀ (es : List PackEntry) (stop : ℕ), stop < 2 ^ 64 → es.foldl (fun stop e =>
      if e.owningGpu = gpu ∧ stop < add64 e.shardOffset e.byteLength then
        add64 e.shardOffset e.byteLength
      else stop) stop < 2 ^ 64 := by
    intro es
    induction es with
    | nil => exact fun stop hstop => hstop
    | cons e es ih =>
      intro stop hstop
      rw [List.foldl_cons]
      apply ih
      split_ifs with hx
      · exact Nat.mod_lt _ (by norm_num)
      · exact hstop
  exact hfold p.entries 0 (by norm_num)

/-- What the checks of a row leave of it. -/
theorem bindPackEntry_checked (h : bindPackEntry p ctx e = .ok ctx') :
    (0 ≤ e.owningGpu ∧ e.owningGpu < maxGpu ctx.toBindContext) ∧
      expectedBytesForEntry e = some e.byteLength ∧
      e.shardOffset + e.byteLength ≤ packArenaBytes p e.owningGpu ∧
      ∃ policy, ctx'.descs = ctx.descs ++ [(e, policy)] := by
  unfold bindPackEntry at h
  cases hexp : expectedBytesForEntry e with
  | none =>
    simp only [hexp] at h
    split_ifs at h
  | some expected =>
    cases hpol : classifyOrDie e.sourceDtype e.runtimeLayout e.kernelFamily with
    | error err =>
      simp only [hexp, hpol] at h
      split_ifs at h
    | ok policy =>
      simp only [hexp, hpol] at h
      split_ifs at h with howner hlayer hstage hbytes harena
      rw [not_or, not_lt, not_le] at howner
      rw [not_ne_iff] at hbytes
      refine ⟨howner, by rw [hbytes], by omega, policy, ?_⟩
      rw [← Except.ok.inj h]
      unfold placePackEntry countLayerTensor
      split_ifs <;> rfl

/-- The rows bound so far pass the checks against the pack. -/
theorem bindPackEntries_checked (es : List PackEntry) : ∀ ctx : PackBindContext,
    bindPackEntries p ctx es = .ok ctx' → ∀ desc ∈ ctx'.descs, desc ∈ ctx.descs ∨
      (0 ≤ desc.1.owningGpu ∧ desc.1.owningGpu < maxGpu ctx'.toBindContext) ∧
        expectedBytesForEntry desc.1 = some desc.1.byteLength ∧
        desc.1.shardOffset + desc.1.byteLength ≤ packArenaBytes p desc.1.owningGpu := by
  induction es with
  | nil =>
    intro ctx h desc hdesc
    obtain rfl := Except.ok.inj h
    exact Or.inl hdesc
  | cons e es ih =>
    intro ctx h desc hdesc
    rw [bindPackEntries] at h
    cases hb : bindPackEntry p ctx e with
    | error err =>
      rw [hb] at h
      cases h
    | ok mid =>
      rw [hb] at h
      obtain ⟨howner, hbytes, harena, policy, hdescs⟩ := bindPackEntry_checked hb
      have hgpus : maxGpu ctx'.toBindContext = maxGpu ctx.toBindContext := by
        unfold maxGpu
        rw [(bindPackEntries_arena es mid h 0).2, (bindPackEntry_arena hb 0).2]
      rcases ih mid h desc hdesc with hmid | hchecked
      · rw [hdescs] at hmid
        rcases List.mem_append.1 hmid with hold | hnew
        · exact Or.inl hold
        · rw [List.mem_singleton.1 hnew, hgpus]
          exact Or.inr ⟨howner, hbytes, harena⟩
      · exact Or.inr hchecked

end Placed

section Open
variable {o : ContextOptions} {c : OpenContext} {mid bound : PackBindContext}

/-- What a context is opened from. -/
theorem contextOpen_bound (h : contextOpen o = .ok c) :
    (0 < o.expectedGpus ∧ o.expectedGpus ≤ 8) ∧ (∃ mid, o.bindPackIndex = .ok mid ∧
      o.bindTmPackIndex mid = .ok c.bound) ∧
      ∀ i, (c.stages i).arenaBytes = (c.bound.stages i).arenaBytes := by
  unfold contextOpen at h
  by_cases hgpus : o.expectedGpus ≤ 0 ∨ (expectedGpus : ℤ) < o.expectedGpus
  · rw [if_pos hgpus] at h
    cases h
  by_cases hslots : o.relayMaxActiveSlots = 0
  · rw [if_neg hgpus, if_pos hslots] at h
    cases h
  rw [if_neg hgpus, if_neg hslots] at h
  rw [not_or, not_le, not_lt] at hgpus
  refine ⟨hgpus, ?_⟩
  cases hplan : openPlan o.kv with
  | error e =>
    rw [hplan] at h
    cases h
  | ok plan =>
    cases htop : o.validateTopology with
    | error e =>
      rw [hplan, htop] at h
      cases h
    | ok total =>
      cases hpack : o.bindPackIndex with
      | error e =>
        rw [hplan, htop, hpack] at h
        cases h
      | ok mid =>
        cases htm : o.bindTmPackIndex mid with
        | error e =>
          simp only [hplan, htop, hpack, htm] at h
          cases h
        | ok bound =>
          simp only [hplan, htop, hpack, htm] at h
          split_ifs at h
          · obtain rfl := Except.ok.inj h
            exact ⟨⟨mid, rfl, htm⟩, fun i => rfl⟩
          · split at h
            · cases h
            · obtain rfl := Except.ok.inj h
              exact ⟨⟨mid, rfl, htm⟩, fun i => rfl⟩

/-- The rows of the pack index, behind `bind_pack`. -/
theorem bindPackIndex_placed (hgpus : 0 < o.expectedGpus ∧ o.expectedGpus ≤ 8)
    (h : o.bindPackIndex = .ok mid) :
    ∀ desc ∈ mid.descs, PlacedEntry mid.toBindContext desc.1 := by
  unfold ContextOptions.bindPackIndex at h
  cases hindex : o.packIndex with
  | none =>
    rw [hindex] at h
    obtain rfl := Except.ok.inj h
    intro desc hdesc
    cases hdesc
  | some f =>
    obtain ⟨path, content⟩ := f
    rw [hindex] at h
    simp only at h
    cases hopen : packOpen path content with
    | error e =>
      rw [hopen] at h
      cases h
    | ok p =>
      rw [hopen] at h
      intro desc hdesc
      rcases bindPackEntries_checked p.entries _ h desc hdesc with hold | ⟨howner, hbytes, hfits⟩
      · cases hold
      · have hmax : maxGpu mid.toBindContext ≤ 8 := by
          unfold maxGpu
          rw [(bindPackEntries_arena p.entries _ h 0).2]
          show (if 0 < o.expectedGpus then o.expectedGpus else 8) ≤ 8
          split_ifs
          · exact hgpus.2
          · exact le_rfl
        have hgpu : desc.1.owningGpu.toNat < expectedGpus := by
          unfold expectedGpus
          omega
        have hself : (desc.1.owningGpu.toNat : ℤ) = desc.1.owningGpu := Int.toNat_of_nonneg howner.1
        refine ⟨hbytes, ?_, hfits.trans_lt (packArenaBytes_lt p _)⟩
        rw [bindPack_arena h hgpu, hself]
        exact hfits

/-- The TurboMind index adds no rows to the others, and no arena shrinks behind it. -/
theorem bindTmPackIndex_keeps (h : o.bindTmPackIndex mid = .ok bound) :
    bound.descs = mid.descs ∧
      ∀ i, (mid.stages i).arenaBytes ≤ (bound.stages i).arenaBytes := by
  unfold ContextOptions.bindTmPackIndex at h
  cases hindex : o.turbomindPackIndex with
  | none =>
    rw [hindex] at h
    obtain rfl := Except.ok.inj h
    exact ⟨rfl, fun i => le_rfl⟩
  | some f =>
    obtain ⟨path, content⟩ := f
    rw [hindex] at h
    simp only at h
    cases hopen : Packs.tmPackOpen path content with
    | error e =>
      rw [hopen] at h
      cases h
    | ok p =>
      cases hbind : bindTmPack mid.toBindContext p with
      | error e =>
        simp only [hopen, hbind] at h
        cases h
      | ok ctx =>
        simp only [hopen, hbind] at h
        obtain rfl := Except.ok.inj h
        exact ⟨rfl, (bindTmEntries_arena p.entries _ hbind).1⟩

/-- Every row of an open context was placed. -/
theorem contextOpen_placed (h : contextOpen o = .ok c) :
    ∀ desc ∈ c.bound.descs, PlacedEntry c.bound.toBindContext desc.1 := by
  obtain ⟨hgpus, ⟨mid, hpack, htm⟩, -⟩ := contextOpen_bound h
  obtain ⟨hdescs, harenas⟩ := bindTmPackIndex_keeps htm
  intro desc hdesc
  rw [hdescs] at hdesc
  obtain ⟨hbytes, harena, hfits⟩ := bindPackIndex_placed hgpus hpack desc hdesc
  exact ⟨hbytes, harena.trans (harenas _), hfits⟩

end Open

/-- A tensor that was looked up: it is a placed row, with the dimensions of its shape. -/
structure PlacedBinding (ctx : BindContext) (b : TensorBinding) : Prop where
  entry : PlacedEntry ctx b.toPackEntry
  dims : parseShapeDims b.sourceShape = some (b.shape, b.shape.prod)
  nonzero : 0 ∉ b.shape

section Lookup
variable {ctx : PackBindContext} {layer : ℤ} {suffix : String} {b : TensorBinding}

theorem parseShapeDims_prod {s : Bytes} {dims : List ℕ} {n : ℕ}
    (h : parseShapeDims s = some (dims, n)) : n = dims.prod ∧ 0 ∉ dims := by
  unfold parseShapeDims at h
  split at h
  · obtain ⟨numerals, dims', hshape, rfl, hn, -⟩ := shapeDims_some _ _ 1 [] dims n (by decide)
      (Nat.zero_le _) h
    rw [Nat.one_mul] at hn
    exact ⟨hn, hshape.nonzero⟩
  · cases h

/-- What is looked up was placed, if all rows were. -/
theorem requireLayerTensorBinding_placed
    (hall : ∀ desc ∈ ctx.descs, PlacedEntry ctx.toBindContext desc.1)
    (h : requireLayerTensorBinding ctx layer suffix = .ok b) :
    PlacedBinding ctx.toBindContext b := by
  obtain ⟨id, -, hlookup⟩ := bind_eq_ok.1 h
  unfold lookupTensorBinding at hlookup
  split_ifs at hlookup
  cases hfind : ctx.descs.find? fun desc => desc.1.semanticTensorId == id with
  | none =>
    rw [hfind] at hlookup
    cases hlookup
  | some desc =>
    rw [hfind] at hlookup
    simp only [fillBinding] at hlookup
    cases hdims : parseShapeDims desc.1.sourceShape with
    | none =>
      rw [hdims] at hlookup
      cases hlookup
    | some read =>
      obtain ⟨dims, n⟩ := read
      rw [hdims] at hlookup
      obtain rfl := Except.ok.inj hlookup
      obtain ⟨rfl, hnonzero⟩ := parseShapeDims_prod hdims
      exact ⟨hall desc (List.mem_of_find?_eq_some hfind), hdims, hnonzero⟩

end Lookup

end Ds4.Context
