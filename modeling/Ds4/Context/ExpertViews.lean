import Ds4.Context.LayerState
import Mathlib.Algebra.Order.Ring.Star

/-! The matrices of single experts inside the routed tensors of a layer, and the span of the arena
that a choice of experts uses. -/
namespace Ds4.Context
open Ds4.Packs (mul64 add64 packHeader printDecimal)
open Ds4.Parts (Extent tile)

/-- `ds4_route_matrices`. -/
structure RouteMatrices where
  gate : BoundMatrix
  up : BoundMatrix
  down : BoundMatrix

namespace LayerState
variable (s : LayerState)

def routeMatrices (expert : ℕ) : Except String RouteMatrices := do
  check (s.routed.turbomind.isSome = true)
    ("source MXFP4 expert matrix view is unavailable for TurboMind-bound layer " ++
      toString s.layerId)
  check (s.routedExperts ≤ expert)
    ("expert " ++ toString expert ++ " outside routed expert count " ++ toString s.routedExperts)
  let gate ← makeMxfp4ExpertMatrix s.routed.gate expert "ffn_gate_exps.weight"
  let up ← makeMxfp4ExpertMatrix s.routed.up expert "ffn_up_exps.weight"
  let down ← makeMxfp4ExpertMatrix s.routed.down expert "ffn_down_exps.weight"
  return ⟨gate, up, down⟩

end LayerState

/-- `ds4_bound_matrix_arena_offset`. -/
def BoundMatrix.arenaOffset (m : BoundMatrix) : ℕ := add64 m.binding.shardOffset m.rel

/-- The bytes of the arena that a matrix is read from. -/
def BoundMatrix.view (m : BoundMatrix) : Extent := ⟨m.arenaOffset, m.bytes⟩

def growSpanForMatrix (m : BoundMatrix) (span : ℕ) : Option ℕ :=
  if maxU64 - m.arenaOffset < m.bytes then none
  else some (max span (m.arenaOffset + m.bytes))

/-- One matrix after the other. -/
def growSpan : List BoundMatrix → ℕ → Option ℕ
  | [], span => some span
  | m :: ms, span => (growSpanForMatrix m span).bind (growSpan ms)

/-- The overflow of a span as an error. -/
def orOverflow (span : Option ℕ) (err : String) : Except String ℕ := span.elim (.error err) .ok

/-- Two TurboMind tensors, if there are any. -/
def growSpanForSeparate : TurbomindGateUp → ℕ → Option ℕ
  | .fused _, span => some span
  | .separate gate up, span | .both _ gate up, span =>
      if gate.expertsPacked = 0 ∧ up.expertsPacked = 0 then some span
      else (growSpanForTurbomindView gate.toTmEntry span).bind
        (growSpanForTurbomindView up.toTmEntry)

def growSpanForFused : TurbomindGateUp → ℕ → Option ℕ
  | .separate _ _, span => some span
  | .fused gateUp, span | .both gateUp _ _, span => growSpanForTurbomindView gateUp.toTmEntry span

namespace LayerState
variable (s : LayerState)

def checkSelected (expert : ℤ) : Except String Unit :=
  check (expert < 0 ∨ (s.routedExperts : ℤ) ≤ expert)
    ("selected expert " ++ toString expert ++ " outside routed expert count")

/-- The loop over the selected experts of the pack. -/
def growSpanForExperts : List ℤ → ℕ → Except String ℕ
  | [], span => .ok span
  | expert :: rest, span => do
      s.checkSelected expert
      let route ← s.routeMatrices expert.toNat
      let span ← orOverflow (growSpan [route.gate, route.up, route.down] span)
        "routed FFN arena span overflow"
      growSpanForExperts rest span

/-- The loop over the selected experts of the TurboMind index. -/
def checkAllSelected : List ℤ → Except String Unit
  | [] => .ok ()
  | expert :: rest => do
      s.checkSelected expert
      checkAllSelected rest

/-- The matrices that every token of the layer uses. -/
def fixedMatrices : List BoundMatrix :=
  [s.matrices.router, s.matrices.sharedGate, s.matrices.sharedUp, s.matrices.sharedDown]

/-- `ds4_layer_state_ffn_arena_span`. -/
def ffnArenaSpan (selected : List ℤ) : Except String ℕ := do
  let span ← orOverflow (growSpan s.fixedMatrices 0) "fixed FFN arena span overflow"
  match s.routed.turbomind with
  | none => s.growSpanForExperts selected span
  | some t => do
      s.checkAllSelected selected
      orOverflow (((growSpanForFused t.gateUp span).bind (growSpanForSeparate t.gateUp)).bind
        (growSpanForTurbomindView t.down.toTmEntry)) "TurboMind routed FFN arena span overflow"

end LayerState

section Matrices
variable {dtype : String} {rowBytes : ℕ → ℕ} {ctx : BindContext} {b : TensorBinding}
  {label : String} {m : BoundMatrix} {n k : ℕ}

theorem makeMatrix_ok (h : makeMatrix dtype rowBytes b label = .ok m) :
    m.binding = b ∧ b.dtypeIs dtype ∧ m.bytes = mul64 m.rows (rowBytes m.cols) ∧
      m.bytes = b.byteLength ∧ m.rel = 0 := by
  unfold makeMatrix at h
  split_ifs at h with hkind
  simp only at h
  split_ifs at h with hbytes
  obtain rfl := Except.ok.inj h
  rw [not_or, not_not, not_not] at hkind
  rw [not_ne_iff] at hbytes
  exact ⟨rfl, hkind.2, rfl, hbytes, rfl⟩

/-- A tensor that has elements has bytes. -/
theorem sourceBytes_pos {d : SourceDtype} (hn : 0 < n) (h : sourceBytes d n = some k) : 0 < k := by
  unfold sourceBytes at h
  cases d with
  | unknown => cases h
  | bf16 | f32 | i32 | f8E4m3B128 =>
    simp only at h
    split_ifs at h
    have := Option.some.inj h
    omega
  | mxfp4 | fp4 =>
    simp only at h
    split_ifs at h
    have := Option.some.inj h
    omega

theorem PlacedBinding.prod_pos (h : PlacedBinding ctx b) : 0 < b.shape.prod :=
  Context.prod_pos h.nonzero

theorem PlacedBinding.sourceBytes_eq (h : PlacedBinding ctx b) :
    sourceBytes (sourceDtypeParse b.sourceDtype) b.shape.prod = some b.byteLength := by
  have hbytes := h.entry.bytes
  unfold expectedBytesForEntry expectedBytes at hbytes
  rw [h.dims] at hbytes
  exact hbytes

/-- The rows of an F8 matrix are whole blocks: a row of another length would have no bytes. -/
theorem makeF8Matrix_cols (hplaced : PlacedBinding ctx b) (h : makeF8Matrix b label = .ok m) :
    0 < m.cols ∧ m.cols % 128 = 0 := by
  obtain ⟨-, -, hrows, hbytes, -⟩ := makeMatrix_ok h
  have hpos := sourceBytes_pos hplaced.prod_pos hplaced.sourceBytes_eq
  by_contra hcols
  have hzero : f8E4m3B128RowBytes m.cols = 0 := by
    apply if_pos
    omega
  rw [hzero, hbytes] at hrows
  exact absurd hrows hpos.ne'

/-- A row of whole blocks has 17 bytes for every 32 columns. -/
theorem mxfp4RowBytes_eq {cols : ℕ} (hpos : 0 < cols) (hcols : cols % 32 = 0)
    (hlt : cols < 2 ^ 32) : mxfp4RowBytes cols = cols / 32 * 17 := by
  have hmax : maxU64 = 18446744073709551615 := rfl
  unfold mxfp4RowBytes packedRowBytes
  rw [if_neg (by omega), if_neg (by omega)]

end Matrices

section Init
variable {ctx : PackBindContext} {layer : ℤ} {s : LayerState} {t : FixedTensors}
  {m : FixedMatrices} {r : RoutedTensors}

theorem checkOwners_ok {gpu : ℤ} {l : List (TensorBinding × String)} {u : Unit}
    (h : checkOwners gpu l = .ok u) : ∀ x ∈ l, x.1.owningGpu = gpu := by
  induction l with
  | nil =>
    intro x hx
    cases hx
  | cons y l ih =>
    unfold checkOwners checkSameOwner at h
    simp only [bind_eq_ok, check_eq_ok, not_ne_iff] at h
    obtain ⟨-, hown, hrest⟩ := h
    intro x hx
    rcases List.mem_cons.1 hx with rfl | hx
    · exact hown
    · exact ih hrest x hx

/-- A layer without TurboMind experts has those of the pack. -/
theorem bindRoutedExpertTensors_source (h : bindRoutedExpertTensors ctx layer = .ok r)
    (hsource : r.turbomind = none) : bindSourceExperts ctx layer = .ok r := by
  unfold bindRoutedExpertTensors at h
  simp only [bind_eq_ok] at h
  obtain ⟨tp2, -, h⟩ := h
  split at h
  · simp only [bindTurbomindExperts, bind_eq_ok] at h
    obtain ⟨-, -, pair, -, down, -, h⟩ := h
    obtain rfl := Except.ok.inj h
    cases hsource
  · exact h

theorem bindSourceExperts_placed
    (hall : ∀ desc ∈ ctx.descs, PlacedEntry ctx.toBindContext desc.1)
    (h : bindSourceExperts ctx layer = .ok r) : PlacedBinding ctx.toBindContext r.gate ∧
      PlacedBinding ctx.toBindContext r.up ∧ PlacedBinding ctx.toBindContext r.down := by
  simp only [bindSourceExperts, bind_eq_ok] at h
  obtain ⟨gate, hgate, up, hup, down, hdown, h⟩ := h
  obtain rfl := Except.ok.inj h
  exact ⟨requireLayerTensorBinding_placed hall hgate, requireLayerTensorBinding_placed hall hup,
    requireLayerTensorBinding_placed hall hdown⟩

/-- The tensors of the matrices that the sizes of a layer are read from. -/
theorem bindFixedTensors_placed
    (hall : ∀ desc ∈ ctx.descs, PlacedEntry ctx.toBindContext desc.1)
    (h : bindFixedTensors ctx layer = .ok t) : PlacedBinding ctx.toBindContext t.router ∧
      PlacedBinding ctx.toBindContext t.attnQA ∧ PlacedBinding ctx.toBindContext t.sharedGate ∧
      PlacedBinding ctx.toBindContext t.sharedUp ∧
      PlacedBinding ctx.toBindContext t.sharedDown := by
  simp only [bindFixedTensors, bind_eq_ok] at h
  obtain ⟨sharedGate, hgate, sharedUp, hup, sharedDown, hdown, router, hrouter, attnQA, hattn, _, -,
    _, -, _, -, _, -, _, -, _, -, _, -, _, -, _, -, _, -, _, -, _, -, _, -, _, -, _, -, h⟩ := h
  obtain rfl := Except.ok.inj h
  exact ⟨requireLayerTensorBinding_placed hall hrouter,
    requireLayerTensorBinding_placed hall hattn, requireLayerTensorBinding_placed hall hgate,
    requireLayerTensorBinding_placed hall hup, requireLayerTensorBinding_placed hall hdown⟩

theorem makeFixedMatrices_ok (h : makeFixedMatrices t = .ok m) :
    makeF32Matrix t.router "ffn_gate_inp.weight" = .ok m.router ∧
      makeF8Matrix t.attnQA "attn_q_a.weight" = .ok m.attnQA ∧
      makeF8Matrix t.sharedGate "ffn_gate_shexp.weight" = .ok m.sharedGate ∧
      makeF8Matrix t.sharedUp "ffn_up_shexp.weight" = .ok m.sharedUp ∧
      makeF8Matrix t.sharedDown "ffn_down_shexp.weight" = .ok m.sharedDown := by
  simp only [makeFixedMatrices, bind_eq_ok] at h
  obtain ⟨router, hrouter, attnQA, hattn, _, -, _, -, _, -, _, -, gate, hgate, up, hup, down,
    hdown, h⟩ := h
  obtain rfl := Except.ok.inj h
  exact ⟨hrouter, hattn, hgate, hup, hdown⟩

end Init

/-- The three products of an expert. -/
inductive Projection
  | gate
  | up
  | down
  deriving DecidableEq

def RouteMatrices.matrix (r : RouteMatrices) : Projection → BoundMatrix
  | .gate => r.gate
  | .up => r.up
  | .down => r.down

namespace LayerState
variable (s : LayerState)

def routedBinding : Projection → TensorBinding
  | .gate => s.routed.gate
  | .up => s.routed.up
  | .down => s.routed.down

/-- The columns of a projection; the rows of one are the columns of its inverse. -/
def width : Projection → ℕ
  | .gate | .up => s.hiddenSize
  | .down => s.intermediateSize

def height : Projection → ℕ
  | .gate | .up => s.intermediateSize
  | .down => s.hiddenSize

/-- The bytes of one expert. -/
def expertBytes (p : Projection) : ℕ := s.height p * (s.width p / 32 * 17)

end LayerState

/-- What the checks of a layer leave of its state. -/
structure LayerLaw (ctx : BindContext) (s : LayerState) : Prop where
  dims : ∀ p, ∃ experts, (s.routedBinding p).shape = [s.width p, s.height p, experts]
  experts : ∀ p, p ≠ .gate → (s.routedBinding p).dim 2 = s.routedExperts
  width : ∀ p, 0 < s.width p ∧ s.width p % 32 = 0 ∧ s.width p < 2 ^ 32
  owner : ∀ p, (s.routedBinding p).owningGpu = s.owningGpu
  fixed : ∀ m ∈ s.fixedMatrices, PlacedBinding ctx m.binding ∧
    m.bytes = m.binding.byteLength ∧ m.rel = 0

section Law
variable {ctx : PackBindContext} {layer : ℤ} {s : LayerState} {u : Unit} {p : Projection}

theorem shape_of_dims {b : TensorBinding} {w h : ℕ} (hlen : b.shape.length = 3)
    (hw : b.dim 0 = w) (hh : b.dim 1 = h) : ∃ experts, b.shape = [w, h, experts] := by
  obtain ⟨w', h', experts, hshape⟩ := List.length_eq_three.1 hlen
  unfold TensorBinding.dim at hw hh
  rw [hshape] at hw hh
  exact ⟨experts, by rw [hshape, ← hw, ← hh]; rfl⟩

theorem makeMatrix_lt {dtype : String} {rowBytes : ℕ → ℕ} {b : TensorBinding} {label : String}
    {m : BoundMatrix} (h : makeMatrix dtype rowBytes b label = .ok m) :
    m.rows < 2 ^ 32 ∧ m.cols < 2 ^ 32 := by
  unfold makeMatrix at h
  split_ifs at h
  simp only at h
  split_ifs at h
  obtain rfl := Except.ok.inj h
  exact ⟨Nat.mod_lt _ (by norm_num), Nat.mod_lt _ (by norm_num)⟩

theorem layerStateInit_law (hall : ∀ desc ∈ ctx.descs, PlacedEntry ctx.toBindContext desc.1)
    (h : layerStateInit ctx layer = .ok s) : LayerLaw ctx.toBindContext s := by
  simp only [layerStateInit, bind_eq_ok] at h
  obtain ⟨_, -, _, -, routed, -, fixed, hfixed, matrices, hmatrices, routing, -, compressor, -,
    indexer, -, _, hstate, h⟩ := h
  obtain rfl := Except.ok.inj h
  obtain ⟨hprouter, hpattn, hpgate, hpup, hpdown⟩ := bindFixedTensors_placed hall hfixed
  obtain ⟨hrouter, hattn, hgate, hup, hdown⟩ := makeFixedMatrices_ok hmatrices
  simp only [LayerState.checkState, bind_eq_ok, check_eq_ok, not_or, not_ne_iff] at hstate
  obtain ⟨_, howners, _, ⟨h3gate, h3up, h3down⟩, _, hattention, _, -, _, -, _, hrouted, _, -,
    hshared⟩ := hstate
  simp only [LayerState.checkAttention, bind_eq_ok, check_eq_ok, not_or, not_ne_iff] at hattention
  obtain ⟨_, ⟨hhidden, -⟩, -⟩ := hattention
  simp only [LayerState.checkRouted, bind_eq_ok, check_eq_ok, not_or, not_ne_iff] at hrouted
  obtain ⟨_, ⟨hnup, hndown⟩, hgate0, hup0, hgate1, hup1, hdown0, hdown1⟩ := hrouted
  simp only [LayerState.checkShared, check_eq_ok, not_or, not_ne_iff] at hshared
  obtain ⟨-, -, hinter, -⟩ := hshared
  have hown := checkOwners_ok howners
  have hhid := makeF8Matrix_cols hpattn hattn
  have hint := makeF8Matrix_cols hpdown hdown
  rw [hhidden] at hhid
  rw [hinter] at hint
  have hhidlt := (makeMatrix_lt hrouter).2
  have hintlt := (makeMatrix_lt hgate).1
  have hblock : ∀ {n : ℕ}, n % 128 = 0 → n % 32 = 0 := by
    intro n hn
    omega
  have hfix : ∀ {dtype rowBytes b label m}, PlacedBinding ctx.toBindContext b →
      makeMatrix dtype rowBytes b label = .ok m → PlacedBinding ctx.toBindContext m.binding ∧
        m.bytes = m.binding.byteLength ∧ m.rel = 0 := by
    intro dtype rowBytes b label m hb hm
    obtain ⟨rfl, -, -, hbytes, hrel⟩ := makeMatrix_ok hm
    exact ⟨hb, hbytes, hrel⟩
  constructor
  · intro p
    cases p with
    | gate => exact shape_of_dims h3gate hgate0 hgate1
    | up => exact shape_of_dims h3up hup0 hup1
    | down => exact shape_of_dims h3down hdown0 hdown1
  · intro p hp
    cases p with
    | gate => exact absurd rfl hp
    | up => exact hnup
    | down => exact hndown
  · intro p
    cases p with
    | gate | up => exact ⟨hhid.1, hblock hhid.2, hhidlt⟩
    | down => exact ⟨hint.1, hblock hint.2, hintlt⟩
  · intro p
    cases p with
    | gate => exact hown (routed.gate, "ffn_gate_exps.weight") (by simp [LayerState.owned])
    | up => exact hown (routed.up, "ffn_up_exps.weight") (by simp [LayerState.owned])
    | down => exact hown (routed.down, "ffn_down_exps.weight") (by simp [LayerState.owned])
  · intro m hm
    simp only [LayerState.fixedMatrices, List.mem_cons, List.not_mem_nil, or_false] at hm
    rcases hm with rfl | rfl | rfl | rfl
    · exact hfix hprouter hrouter
    · exact hfix hpgate hgate
    · exact hfix hpup hup
    · exact hfix hpdown hdown

/-- The routed tensors of a layer without TurboMind experts were placed. -/
theorem layerStateInit_source
    (hall : ∀ desc ∈ ctx.descs, PlacedEntry ctx.toBindContext desc.1)
    (h : layerStateInit ctx layer = .ok s) (hsource : s.routed.turbomind = none) (p : Projection) :
    PlacedBinding ctx.toBindContext (s.routedBinding p) := by
  simp only [layerStateInit, bind_eq_ok] at h
  obtain ⟨_, -, _, -, routed, hrouted, fixed, -, matrices, -, routing, -, compressor, -, indexer,
    -, _, -, h⟩ := h
  obtain rfl := Except.ok.inj h
  obtain ⟨hgate, hup, hdown⟩ :=
    bindSourceExperts_placed hall (bindRoutedExpertTensors_source hrouted hsource)
  cases p with
  | gate => exact hgate
  | up => exact hup
  | down => exact hdown

end Law

/-- The experts are rows of the pack, of MXFP4 blocks. -/
structure SourceExperts (s : LayerState) : Prop where
  source : s.routed.turbomind = none
  dtype : ∀ p, sourceDtypeParse (s.routedBinding p).sourceDtype = .mxfp4

section Experts
variable {ctx : BindContext} {s : LayerState} {p : Projection} {expert : ℕ}

/-- A routed tensor is the bytes of its experts. -/
theorem LayerLaw.byteLength (law : LayerLaw ctx s) (hsource : SourceExperts s)
    (hplaced : PlacedBinding ctx (s.routedBinding p)) :
    (s.routedBinding p).byteLength = (s.routedBinding p).dim 2 * s.expertBytes p ∧
      0 < (s.routedBinding p).dim 2 ∧ 0 < s.expertBytes p := by
  obtain ⟨experts, hshape⟩ := law.dims p
  obtain ⟨hwpos, hwblock, hwlt⟩ := law.width p
  have hnonzero := hplaced.nonzero
  have hbytes := hplaced.sourceBytes_eq
  have hdim : (s.routedBinding p).dim 2 = experts := by
    unfold TensorBinding.dim
    rw [hshape]
    rfl
  rw [hsource.dtype p, hshape] at hbytes
  rw [hshape, List.mem_cons, List.mem_cons, List.mem_cons, not_or, not_or, not_or] at hnonzero
  obtain ⟨-, hh, hexperts, -⟩ := hnonzero
  obtain ⟨k, hk⟩ := Nat.dvd_of_mod_eq_zero hwblock
  have hprod : [s.width p, s.height p, experts].prod = 32 * (experts * (s.height p * k)) := by
    simp only [List.prod_cons, List.prod_nil, hk]
    ring
  have hexpert : s.expertBytes p = s.height p * (k * 17) := by
    unfold LayerState.expertBytes
    rw [hk, Nat.mul_div_cancel_left k (by norm_num)]
  simp only [sourceBytes] at hbytes
  split_ifs at hbytes
  rw [hprod] at hbytes
  have hlength := Option.some.inj hbytes
  rw [hdim, hexpert]
  refine ⟨?_, by omega, Nat.mul_pos (by omega) (by omega)⟩
  rw [← hlength, Nat.mul_assoc 32, Nat.mul_div_cancel_left _ (by norm_num)]
  ring

theorem LayerLaw.height_lt (law : LayerLaw ctx s) (p : Projection) : s.height p < 2 ^ 32 := by
  cases p with
  | gate | up => exact (law.width .down).2.2
  | down => exact (law.width .gate).2.2

/-- A placed tensor fits the 64 bits. -/
theorem PlacedBinding.fits {b : TensorBinding} (h : PlacedBinding ctx b) :
    b.shardOffset + b.byteLength < 2 ^ 64 := h.entry.fits

/-- The matrix of an expert is its share of the tensor. -/
theorem makeMxfp4ExpertMatrix_view (law : LayerLaw ctx s) (hsource : SourceExperts s)
    (hplaced : PlacedBinding ctx (s.routedBinding p))
    (hdtype : (s.routedBinding p).dtypeIs "mxfp4")
    (hexpert : expert < (s.routedBinding p).dim 2) (label : String) :
    ∃ m, makeMxfp4ExpertMatrix (s.routedBinding p) expert label = .ok m ∧
      m.view = ⟨(s.routedBinding p).shardOffset + expert * s.expertBytes p, s.expertBytes p⟩ := by
  obtain ⟨experts, hshape⟩ := law.dims p
  obtain ⟨hwpos, hwblock, hwlt⟩ := law.width p
  obtain ⟨hlength, -, hpos⟩ := law.byteLength hsource hplaced
  have hfits := hplaced.fits
  have hshare : (expert + 1) * s.expertBytes p ≤ (s.routedBinding p).byteLength := by
    rw [hlength]
    exact Nat.mul_le_mul_right _ hexpert
  rw [Nat.add_mul, Nat.one_mul] at hshare
  have hcols : u32 ((s.routedBinding p).dim 0) = s.width p := by
    unfold TensorBinding.dim
    rw [hshape]
    exact Nat.mod_eq_of_lt hwlt
  have hrows : u32 ((s.routedBinding p).dim 1) = s.height p := by
    unfold TensorBinding.dim
    rw [hshape]
    exact Nat.mod_eq_of_lt (law.height_lt p)
  have hbytes : mul64 (s.height p) (mxfp4RowBytes (s.width p)) = s.expertBytes p := by
    rw [mxfp4RowBytes_eq hwpos hwblock hwlt]
    apply Nat.mod_eq_of_lt
    show s.expertBytes p < 2 ^ 64
    omega
  have hrel : mul64 expert (s.expertBytes p) = expert * s.expertBytes p :=
    Nat.mod_eq_of_lt (by omega)
  have hkind : ¬ ((s.routedBinding p).shape.length ≠ 3 ∨
      ¬ (s.routedBinding p).dtypeIs "mxfp4") := by
    rw [hshape]
    simp [hdtype]
  unfold makeMxfp4ExpertMatrix
  rw [if_neg hkind, if_neg (by omega)]
  simp only [hcols, hrows, hbytes, hrel]
  rw [if_neg (by omega)]
  refine ⟨_, rfl, ?_⟩
  have hend : (s.routedBinding p).shardOffset + expert * s.expertBytes p < 2 ^ 64 := by omega
  unfold BoundMatrix.view BoundMatrix.arenaOffset add64
  congr 1
  exact Nat.mod_eq_of_lt hend

/-- The three tensors, under the names that the errors give them. -/
theorem routeMatrices_iff {r : RouteMatrices} (hsource : s.routed.turbomind = none)
    (hexpert : expert < s.routedExperts) : s.routeMatrices expert = .ok r ↔
      makeMxfp4ExpertMatrix s.routed.gate expert "ffn_gate_exps.weight" = .ok r.gate ∧
      makeMxfp4ExpertMatrix s.routed.up expert "ffn_up_exps.weight" = .ok r.up ∧
      makeMxfp4ExpertMatrix s.routed.down expert "ffn_down_exps.weight" = .ok r.down := by
  simp only [LayerState.routeMatrices, bind_eq_ok, check_eq_ok, hsource]
  constructor
  · rintro ⟨_, -, _, -, gate, hgate, up, hup, down, hdown, h⟩
    obtain rfl := Except.ok.inj h
    exact ⟨hgate, hup, hdown⟩
  · rintro ⟨hgate, hup, hdown⟩
    exact ⟨⟨⟩, by simp, ⟨⟩, by omega, _, hgate, _, hup, _, hdown, rfl⟩

end Experts

/-- The end of a view. -/
def BoundMatrix.arenaEnd (m : BoundMatrix) : ℕ := m.view.off + m.view.bytes

/-- A span grown from another one: the least that holds it and the ends of the matrices. -/
structure GrownSpan (span : ℕ) (ms : List BoundMatrix) (n : ℕ) : Prop where
  start : span ≤ n
  holds : ∀ m ∈ ms, m.arenaEnd ≤ n
  least : ∀ k, span ≤ k → (∀ m ∈ ms, m.arenaEnd ≤ k) → n ≤ k

section Span
variable {s : LayerState} {span n n' : ℕ} {ms ms' : List BoundMatrix} {m : BoundMatrix}

theorem GrownSpan.append (h : GrownSpan span ms n) (h' : GrownSpan n ms' n') :
    GrownSpan span (ms ++ ms') n' := by
  constructor
  · exact h.start.trans h'.start
  · intro m hm
    rcases List.mem_append.1 hm with hm | hm
    · exact (h.holds m hm).trans h'.start
    · exact h'.holds m hm
  · intro k hspan hall
    apply h'.least k
    · exact h.least k hspan fun m hm => hall m (List.mem_append_left _ hm)
    · exact fun m hm => hall m (List.mem_append_right _ hm)

theorem growSpan_grown (ms : List BoundMatrix) : ∀ span, (∀ m ∈ ms, m.arenaEnd < 2 ^ 64) →
    ∃ n, growSpan ms span = some n ∧ GrownSpan span ms n := by
  induction ms with
  | nil =>
    intro span _
    refine ⟨span, rfl, le_rfl, ?_, fun k hk _ => hk⟩
    intro m hm
    cases hm
  | cons m ms ih =>
    intro span hfits
    have hm : m.arenaOffset + m.bytes < 2 ^ 64 := hfits m List.mem_cons_self
    have hmax : maxU64 = 2 ^ 64 - 1 := rfl
    obtain ⟨n, hgrow, hn⟩ := ih (max span (m.arenaOffset + m.bytes))
      fun x hx => hfits x (List.mem_cons_of_mem _ hx)
    refine ⟨n, ?_, ?_⟩
    · unfold growSpan growSpanForMatrix
      rw [if_neg (by omega)]
      exact hgrow
    · have hone : GrownSpan span [m] (max span (m.arenaOffset + m.bytes)) := by
        constructor
        · exact le_max_left _ _
        · intro x hx
          rw [List.mem_singleton.1 hx]
          exact le_max_right _ _
        · intro k hspan hall
          exact max_le hspan (hall m (List.mem_singleton.2 rfl))
      exact hone.append hn

/-- The matrices of selected experts. -/
def selectedMatrices (route : ℕ → RouteMatrices) (selected : List ℤ) : List BoundMatrix :=
  selected.flatMap fun expert =>
    [(route expert.toNat).gate, (route expert.toNat).up, (route expert.toNat).down]

theorem growSpanForExperts_grown {route : ℕ → RouteMatrices}
    (hroute : ∀ expert < s.routedExperts, s.routeMatrices expert = .ok (route expert))
    (hfits : ∀ expert < s.routedExperts, ∀ p, ((route expert).matrix p).arenaEnd < 2 ^ 64)
    (selected : List ℤ) : ∀ span, (∀ x ∈ selected, 0 ≤ x ∧ x < s.routedExperts) →
    ∃ n, s.growSpanForExperts selected span = .ok n ∧
      GrownSpan span (selectedMatrices route selected) n := by
  induction selected with
  | nil =>
    intro span _
    refine ⟨span, rfl, le_rfl, ?_, fun k hk _ => hk⟩
    intro m hm
    cases hm
  | cons x selected ih =>
    intro span hall
    obtain ⟨hx0, hxlt⟩ := hall x List.mem_cons_self
    have hx : x.toNat < s.routedExperts := by omega
    obtain ⟨mid, hmid, hgrown⟩ := growSpan_grown
      [(route x.toNat).gate, (route x.toNat).up, (route x.toNat).down] span (by
        intro m hm
        simp only [List.mem_cons, List.not_mem_nil, or_false] at hm
        rcases hm with rfl | rfl | rfl
        · exact hfits _ hx .gate
        · exact hfits _ hx .up
        · exact hfits _ hx .down)
    obtain ⟨n, hn, hrest⟩ := ih mid fun y hy => hall y (List.mem_cons_of_mem _ hy)
    refine ⟨n, ?_, hgrown.append hrest⟩
    simp only [LayerState.growSpanForExperts, bind_eq_ok]
    refine ⟨⟨⟩, ?_, _, hroute _ hx, mid, ?_, hn⟩
    · rw [LayerState.checkSelected, check_eq_ok]
      omega
    · rw [hmid]
      rfl

end Span

/-- Views that share a tensor out among them, inside an arena of so many bytes. -/
structure SharesOut (views : List Extent) (tensor : Extent) (arenaBytes : ℕ) : Prop where
  apart : views.Pairwise Extent.Apart
  inside : ∀ v ∈ views, v.Inside tensor
  arena : ∀ v ∈ views, v.Inside ⟨0, arenaBytes⟩
  cover : ∀ x, tensor.Has x → ∃ v ∈ views, v.Has x

/-- Every expert has its matrices; those of each projection share its tensor out; and the span of
selected experts is the least end of what is used. -/
def ExpertViewsTile (s : LayerState) (arenaBytes : ℕ) : Prop :=
  ∃ route : ℕ → RouteMatrices,
    (∀ expert < s.routedExperts, s.routeMatrices expert = .ok (route expert)) ∧
    (∀ p, SharesOut ((List.range s.routedExperts).map fun expert => ((route expert).matrix p).view)
      (s.routedBinding p).extent arenaBytes) ∧
    (∀ p p', (s.routedBinding p).extent.Apart (s.routedBinding p').extent →
      ∀ i < s.routedExperts, ∀ j < s.routedExperts,
        ((route i).matrix p).view.Apart ((route j).matrix p').view) ∧
    ∀ selected : List ℤ, (∀ x ∈ selected, 0 ≤ x ∧ x < s.routedExperts) →
      ∃ n, s.ffnArenaSpan selected = .ok n ∧
        IsLeast {k | ∀ m ∈ s.fixedMatrices ++ selectedMatrices route selected,
          m.view.off + m.view.bytes ≤ k} n

section Tile
variable {o : ContextOptions} {c : OpenContext} {layer : ℤ} {ctx : BindContext} {s : LayerState}
  {expert : ℕ}

/-- The share of an expert in a tensor. -/
def LayerState.share (s : LayerState) (p : Projection) (expert : ℕ) : Extent :=
  ⟨(s.routedBinding p).shardOffset + expert * s.expertBytes p, s.expertBytes p⟩

theorem routedExperts_pos (law : LayerLaw ctx s)
    (hplaced : ∀ p, PlacedBinding ctx (s.routedBinding p)) : 0 < s.routedExperts := by
  obtain ⟨experts, hshape⟩ := law.dims .up
  have hnonzero := (hplaced .up).nonzero
  rw [← law.experts .up (by decide)]
  unfold TensorBinding.dim
  rw [hshape] at hnonzero ⊢
  simp only [List.mem_cons, List.not_mem_nil, or_false, not_or] at hnonzero
  show 0 < experts
  omega

/-- The matrices of an expert that all three tensors have. -/
theorem routeMatrices_share (law : LayerLaw ctx s) (hsource : SourceExperts s)
    (hplaced : ∀ p, PlacedBinding ctx (s.routedBinding p))
    (hdtype : ∀ p, (s.routedBinding p).dtypeIs "mxfp4") (hexpert : expert < s.routedExperts) :
    ∃ r, s.routeMatrices expert = .ok r ∧ ∀ p, (r.matrix p).view = s.share p expert := by
  have hdim : ∀ p, expert < (s.routedBinding p).dim 2 := by
    intro p
    by_cases hp : p = .gate
    · rw [hp]
      exact hexpert.trans_le (Nat.mod_le _ _)
    · rw [law.experts p hp]
      exact hexpert
  have hview := fun p => makeMxfp4ExpertMatrix_view law hsource (hplaced p) (hdtype p) (hdim p)
  obtain ⟨gate, hgate, hgview⟩ := hview .gate "ffn_gate_exps.weight"
  obtain ⟨up, hup, huview⟩ := hview .up "ffn_up_exps.weight"
  obtain ⟨down, hdown, hdview⟩ := hview .down "ffn_down_exps.weight"
  refine ⟨⟨gate, up, down⟩, (routeMatrices_iff hsource.source hexpert).2 ⟨hgate, hup, hdown⟩, ?_⟩
  intro p
  cases p with
  | gate => exact hgview
  | up => exact huview
  | down => exact hdview

/-- The shares of all experts of a tensor. -/
theorem shares_sharesOut {p : Projection} {arenaBytes experts : ℕ}
    (hlength : (s.routedBinding p).byteLength = experts * s.expertBytes p)
    (harena : (s.routedBinding p).shardOffset + (s.routedBinding p).byteLength ≤ arenaBytes) :
    SharesOut ((List.range experts).map (s.share p)) (s.routedBinding p).extent arenaBytes := by
  have htile : (List.range experts).map (s.share p) =
      tile (s.routedBinding p).shardOffset (List.replicate experts (s.expertBytes p)) :=
    (Parts.tile_replicate _ _ _).symm
  have hextent : (s.routedBinding p).extent = ⟨(s.routedBinding p).shardOffset,
      (List.replicate experts (s.expertBytes p)).sum⟩ := by
    unfold TensorBinding.extent
    rw [List.sum_replicate, smul_eq_mul, hlength]
  have hinside : ∀ v ∈ (List.range experts).map (s.share p),
      v.Inside (s.routedBinding p).extent := by
    intro v hv
    rw [htile] at hv
    rw [hextent]
    exact Parts.tile_inside _ _ hv
  constructor
  · rw [htile]
    exact Parts.tile_apart _ _
  · exact hinside
  · intro v hv
    apply (hinside v hv).trans
    constructor
    · exact Nat.zero_le _
    · rw [Nat.zero_add]
      exact harena
  · intro x hx
    rw [hextent] at hx
    rw [htile]
    exact (Parts.tile_cover _ _).1 hx

/-- The fixed matrices are whole tensors. -/
theorem LayerLaw.fixed_fits (law : LayerLaw ctx s) :
    ∀ m ∈ s.fixedMatrices, m.arenaEnd < 2 ^ 64 := by
  intro m hm
  obtain ⟨hplaced, hbytes, hrel⟩ := law.fixed m hm
  have hfits := hplaced.fits
  have hoff : m.arenaOffset = m.binding.shardOffset := by
    unfold BoundMatrix.arenaOffset add64
    rw [hrel, Nat.add_zero]
    exact Nat.mod_eq_of_lt (by omega)
  show m.arenaOffset + m.bytes < 2 ^ 64
  rw [hoff, hbytes]
  exact hfits

/-- With the dtype spelled as it is checked, and no more experts than are counted, all holds. -/
theorem expertViews_tile (law : LayerLaw ctx s) (hsource : SourceExperts s)
    (hplaced : ∀ p, PlacedBinding ctx (s.routedBinding p))
    (hdtype : ∀ p, (s.routedBinding p).dtypeIs "mxfp4") (hgate : s.routed.gate.dim 2 < 2 ^ 32) :
    ExpertViewsTile s (ctx.stages s.owningGpu.toNat).arenaBytes := by
  have hexperts : ∀ p, (s.routedBinding p).dim 2 = s.routedExperts := by
    intro p
    by_cases hp : p = .gate
    · rw [hp]
      exact (Nat.mod_eq_of_lt hgate).symm
    · exact law.experts p hp
  have hlength : ∀ p, (s.routedBinding p).byteLength = s.routedExperts * s.expertBytes p := by
    intro p
    rw [(law.byteLength hsource (hplaced p)).1, hexperts p]
  have hroutes : ∀ expert, ∃ r, expert < s.routedExperts → s.routeMatrices expert = .ok r ∧
      ∀ p, (r.matrix p).view = s.share p expert := by
    intro expert
    by_cases hexpert : expert < s.routedExperts
    · obtain ⟨r, hr⟩ := routeMatrices_share law hsource hplaced hdtype hexpert
      exact ⟨r, fun _ => hr⟩
    · obtain ⟨r, -⟩ := routeMatrices_share law hsource hplaced hdtype
        (routedExperts_pos law hplaced)
      exact ⟨r, fun h => absurd h hexpert⟩
  choose route hroute using hroutes
  have hviews : ∀ p, (List.range s.routedExperts).map (fun expert =>
      ((route expert).matrix p).view) = (List.range s.routedExperts).map (s.share p) := by
    intro p
    apply List.map_congr_left
    intro expert hexpert
    exact (hroute expert (List.mem_range.1 hexpert)).2 p
  have hshares : ∀ p, SharesOut ((List.range s.routedExperts).map fun expert =>
      ((route expert).matrix p).view) (s.routedBinding p).extent
      (ctx.stages s.owningGpu.toNat).arenaBytes := by
    intro p
    rw [hviews p]
    apply shares_sharesOut (hlength p)
    rw [← law.owner p]
    exact (hplaced p).entry.arena
  have hinside : ∀ p, ∀ expert < s.routedExperts,
      ((route expert).matrix p).view.Inside (s.routedBinding p).extent := fun p expert hexpert =>
    (hshares p).inside _ (List.mem_map_of_mem (List.mem_range.2 hexpert))
  refine ⟨route, fun expert hexpert => (hroute expert hexpert).1, hshares, ?_, ?_⟩
  · intro p p' hapart i hi j hj
    exact hapart.mono (hinside p i hi) (hinside p' j hj)
  · intro selected hselected
    obtain ⟨mid, hmid, hfixed⟩ := growSpan_grown s.fixedMatrices 0 law.fixed_fits
    obtain ⟨n, hn, hexperts⟩ := growSpanForExperts_grown
      (fun expert hexpert => (hroute expert hexpert).1) (fun expert hexpert p =>
        (hinside p expert hexpert).2.trans_lt (hplaced p).fits) selected mid hselected
    have hgrown := hfixed.append hexperts
    refine ⟨n, ?_, hgrown.holds, fun k hk => hgrown.least k (Nat.zero_le k) hk⟩
    simp only [LayerState.ffnArenaSpan, bind_eq_ok, hsource.source]
    exact ⟨mid, by rw [hmid]; rfl, hn⟩

/-- The matrix of an expert is only made of a tensor of that dtype. -/
theorem makeMxfp4ExpertMatrix_dtype {b : TensorBinding} {label : String} {m : BoundMatrix}
    (h : makeMxfp4ExpertMatrix b expert label = .ok m) : b.dtypeIs "mxfp4" := by
  unfold makeMxfp4ExpertMatrix at h
  by_contra hdtype
  rw [if_pos (Or.inr hdtype)] at h
  cases h

/-- Experts that are not counted leave the end of the tensor out. -/
theorem not_cover {p : Projection} {experts : ℕ}
    (hlength : experts * s.expertBytes p < (s.routedBinding p).byteLength) :
    ¬ ∀ x, (s.routedBinding p).extent.Has x →
      ∃ v ∈ (List.range experts).map (s.share p), v.Has x := by
  intro hcover
  obtain ⟨v, hv, hhas⟩ := hcover
    ((s.routedBinding p).shardOffset + experts * s.expertBytes p)
    ⟨Nat.le_add_right _ _, Nat.add_lt_add_left hlength _⟩
  obtain ⟨expert, hexpert, rfl⟩ := List.mem_map.1 hv
  have hle : (expert + 1) * s.expertBytes p ≤ experts * s.expertBytes p :=
    Nat.mul_le_mul_right _ (List.mem_range.1 hexpert)
  have hlt := hhas.2
  unfold LayerState.share at hlt
  simp only at hlt
  rw [Nat.add_mul, Nat.one_mul] at hle
  omega

/-- The experts of a layer share its tensors out exactly if the dtypes are spelled as the matrices
are checked and the experts of the gate fit 32 bits. -/
theorem expertViews_iff (hopen : contextOpen o = .ok c)
    (hinit : layerStateInit c.bound layer = .ok s) (hsource : SourceExperts s) :
    ExpertViewsTile s (c.stages s.owningGpu.toNat).arenaBytes ↔
      (∀ p, (s.routedBinding p).dtypeIs "mxfp4") ∧ s.routed.gate.dim 2 < 2 ^ 32 := by
  have hall := contextOpen_placed hopen
  have law := layerStateInit_law hall hinit
  have hplaced := layerStateInit_source hall hinit hsource.source
  constructor
  · rintro ⟨route, hroute, hshares, -, -⟩
    have hpos := routedExperts_pos law hplaced
    have hdtype : ∀ p, (s.routedBinding p).dtypeIs "mxfp4" := by
      obtain ⟨hgate, hup, hdown⟩ := (routeMatrices_iff hsource.source hpos).1 (hroute 0 hpos)
      intro p
      cases p with
      | gate => exact makeMxfp4ExpertMatrix_dtype hgate
      | up => exact makeMxfp4ExpertMatrix_dtype hup
      | down => exact makeMxfp4ExpertMatrix_dtype hdown
    refine ⟨hdtype, ?_⟩
    by_contra hlarge
    obtain ⟨hlength, -, hbytes⟩ := law.byteLength hsource (hplaced .gate)
    have hlt : s.routedExperts < (s.routedBinding .gate).dim 2 :=
      (Nat.mod_lt _ (by norm_num)).trans_le (not_lt.1 hlarge)
    have hshort : s.routedExperts * s.expertBytes .gate < (s.routedBinding .gate).byteLength := by
      rw [hlength]
      exact Nat.mul_lt_mul_of_pos_right hlt hbytes
    apply not_cover hshort
    · have hviews : (List.range s.routedExperts).map (fun expert =>
          ((route expert).matrix .gate).view) = (List.range s.routedExperts).map
            (s.share .gate) := by
        apply List.map_congr_left
        intro expert hexpert
        obtain ⟨r, hr, hview⟩ := routeMatrices_share law hsource hplaced hdtype
          (List.mem_range.1 hexpert)
        rw [hroute expert (List.mem_range.1 hexpert)] at hr
        rw [Except.ok.inj hr]
        exact hview .gate
      rw [← hviews]
      exact (hshares .gate).cover
  · rintro ⟨hdtype, hexperts⟩
    rw [(contextOpen_bound hopen).2.2]
    exact expertViews_tile law hsource hplaced hdtype hexperts

end Tile

section Sample

/-- What a small first layer is made of: the name, the dtype, the shape and the bytes of each
tensor. The dtype of the experts is open. -/
def layerTensors (dtype : String) : List (String × String × String × ℕ) :=
  [("ffn_gate_exps.weight", dtype, "[128x128x2]", 17408),
    ("ffn_up_exps.weight", dtype, "[128x128x2]", 17408),
    ("ffn_down_exps.weight", dtype, "[128x128x2]", 17408),
    ("ffn_gate_shexp.weight", "f8_e4m3_b128", "[128x128]", 16512),
    ("ffn_up_shexp.weight", "f8_e4m3_b128", "[128x128]", 16512),
    ("ffn_down_shexp.weight", "f8_e4m3_b128", "[128x128]", 16512),
    ("ffn_gate_inp.weight", "f32", "[128x256]", 131072),
    ("attn_q_a.weight", "f8_e4m3_b128", "[128x1024]", 132096),
    ("attn_q_b.weight", "f8_e4m3_b128", "[1024x32768]", 33816576),
    ("attn_kv_latent.weight", "f8_e4m3_b128", "[128x512]", 66048),
    ("attn_output_a.weight", "f8_e4m3_b128", "[128x8192]", 1056768),
    ("attn_output_b.weight", "f8_e4m3_b128", "[8192x128]", 1056768),
    ("attn_norm.weight", "f32", "[128]", 512),
    ("attn_q_a_norm.weight", "f32", "[1024]", 4096),
    ("attn_kv_a_norm.weight", "f32", "[512]", 2048),
    ("attn_sinks", "f32", "[64]", 256),
    ("hc_attn_fn", "f32", "[2]", 8), ("hc_attn_base", "f32", "[2]", 8),
    ("hc_attn_scale", "f32", "[2]", 8), ("ffn_norm.weight", "f32", "[2]", 8),
    ("hc_ffn_fn", "f32", "[2]", 8), ("hc_ffn_base", "f32", "[2]", 8),
    ("hc_ffn_scale", "f32", "[2]", 8), ("exp_probs_b", "f32", "[256]", 1024)]

/-- Their rows in a pack index, one behind the other in the shard of the first GPU. -/
def layerRows : ℕ → List (String × String × String × ℕ) → Bytes
  | _, [] => []
  | off, (name, dtype, shape, bytes) :: rest =>
      let id := lit "blk.0." ++ lit name
      id ++ lit "\t" ++ id ++ lit "\t" ++ lit dtype ++ lit "\t" ++ lit shape ++
        lit "\trow\t0\t0\tk\t0\t" ++ printDecimal bytes ++ lit "\tgpu0.weights\t" ++
        printDecimal off ++ lit "\t-1\t-\n" ++ layerRows (off + bytes) rest

def layerIndex (dtype : String) : Bytes :=
  packHeader ++ lit "\n" ++ layerRows 0 (layerTensors dtype)

/-- A context of that index alone. -/
def layerOptions (dtype : String) : ContextOptions :=
  ⟨some ("pack_index.tsv", layerIndex dtype), none, 8, false, false, 0, 1, 0,
    ⟨0, 0, 0, by norm_num, by norm_num⟩, 0, 0, []⟩

/-- The context, with the state of its first layer. -/
def firstLayer (dtype : String) : Except String (OpenContext × LayerState) := do
  let c ← contextOpen (layerOptions dtype)
  let s ← layerStateInit c.bound 0
  return (c, s)

/-- What of the state is looked at. -/
def expertFacts (s : LayerState) : Bool × List SourceDtype × List Bool × ℕ :=
  let routed := [s.routed.gate, s.routed.up, s.routed.down]
  (s.routed.turbomind.isNone, routed.map fun b => sourceDtypeParse b.sourceDtype,
    routed.map fun b => decide (b.dtypeIs "mxfp4"), s.routed.gate.dim 2)

theorem firstLayer_facts (dtype : String) (facts : Bool × List SourceDtype × List Bool × ℕ)
    (h : (firstLayer dtype).toOption.map (fun x => expertFacts x.2) = some facts) :
    ∃ c s, contextOpen (layerOptions dtype) = .ok c ∧ layerStateInit c.bound 0 = .ok s ∧
      expertFacts s = facts := by
  cases hfirst : firstLayer dtype with
  | error e =>
    rw [hfirst] at h
    cases h
  | ok x =>
    rw [hfirst] at h
    obtain ⟨c, hopen, hrest⟩ := bind_eq_ok.1 hfirst
    obtain ⟨s, hinit, hpure⟩ := bind_eq_ok.1 hrest
    obtain rfl := Except.ok.inj hpure
    exact ⟨c, s, hopen, hinit, Option.some.inj h⟩

/-- The facts of experts that are read from the pack as MXFP4. -/
theorem sourceExperts_of_facts {s : LayerState} {spelled : List Bool} {n : ℕ}
    (h : expertFacts s = (true, [.mxfp4, .mxfp4, .mxfp4], spelled, n)) : SourceExperts s := by
  obtain ⟨hsource, hrest⟩ := Prod.mk.inj h
  obtain ⟨hdtypes, -⟩ := Prod.mk.inj hrest
  obtain ⟨hgate, htail⟩ := List.cons.inj hdtypes
  obtain ⟨hup, htail⟩ := List.cons.inj htail
  obtain ⟨hdown, -⟩ := List.cons.inj htail
  refine ⟨Option.isNone_iff_eq_none.1 hsource, ?_⟩
  intro p
  cases p with
  | gate => exact hgate
  | up => exact hup
  | down => exact hdown

theorem lowercase_tiles : ∃ c s, contextOpen (layerOptions "mxfp4") = .ok c ∧
    layerStateInit c.bound 0 = .ok s ∧ SourceExperts s ∧
    ExpertViewsTile s (c.stages s.owningGpu.toNat).arenaBytes := by
  obtain ⟨c, s, hopen, hinit, hfacts⟩ := firstLayer_facts "mxfp4"
    (true, [.mxfp4, .mxfp4, .mxfp4], [true, true, true], 2) (by decide +kernel)
  have hsource := sourceExperts_of_facts hfacts
  refine ⟨c, s, hopen, hinit, hsource, (expertViews_iff hopen hinit hsource).2 ⟨?_, ?_⟩⟩
  · have hspelled := congrArg (fun f => f.2.2.1) hfacts
    simp only [expertFacts, List.map_cons, List.map_nil, List.cons.injEq, decide_eq_true_eq]
      at hspelled
    obtain ⟨hgate, hup, hdown, -⟩ := hspelled
    intro p
    cases p with
    | gate => exact hgate
    | up => exact hup
    | down => exact hdown
  · have hcount : s.routed.gate.dim 2 = 2 := congrArg (fun f => f.2.2.2) hfacts
    rw [hcount]
    norm_num

/-- The same layer with the dtype in capitals is taken, but no expert has its matrices. -/
theorem capitals_refused : ∃ c s, contextOpen (layerOptions "MXFP4") = .ok c ∧
    layerStateInit c.bound 0 = .ok s ∧ SourceExperts s ∧
    ¬ ExpertViewsTile s (c.stages s.owningGpu.toNat).arenaBytes := by
  obtain ⟨c, s, hopen, hinit, hfacts⟩ := firstLayer_facts "MXFP4"
    (true, [.mxfp4, .mxfp4, .mxfp4], [false, false, false], 2) (by decide +kernel)
  have hsource := sourceExperts_of_facts hfacts
  refine ⟨c, s, hopen, hinit, hsource, ?_⟩
  rintro ⟨route, hroute, -⟩
  have hspelled := congrArg (fun f => f.2.2.1) hfacts
  simp only [expertFacts, List.map_cons, List.map_nil, List.cons.injEq, decide_eq_false_iff_not]
    at hspelled
  have hcount : s.routed.gate.dim 2 = 2 := congrArg (fun f => f.2.2.2) hfacts
  have hpos : 0 < s.routedExperts := by
    unfold LayerState.routedExperts u32
    rw [hcount]
    norm_num
  obtain ⟨hgate, -, -⟩ := (routeMatrices_iff hsource.source hpos).1 (hroute 0 hpos)
  exact hspelled.1 (makeMxfp4ExpertMatrix_dtype hgate)

end Sample

end Ds4.Context
