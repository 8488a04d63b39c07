import Mathlib.Data.Nat.Notation
import Mathlib.Logic.Function.Basic

/-! The rolling compressor of one layer lane: its streamed rows are the pooled windows. -/
namespace Ds4.Engine

/-- The float operations of the pooling, and the constants it compares with. -/
structure FloatOps (F : Type) where
  zero : F
  negInf : F
  halfNegInf : F
  lt : F → F → Bool
  le : F → F → Bool
  add : F → F → F
  sub : F → F → F
  mul : F → F → F
  div : F → F → F
  exp : F → F

/-- One row of the rolling state: a projected key-value row and its scores. -/
structure StateRow (F : Type) where
  kv : List F
  score : List F
  deriving DecidableEq

variable {F : Type}

/-- What a lane is built from. `finish` turns a pooled row and its position into the row
handed to the cache (norm, rope, quantisation); `half` is the rounding of the cache. -/
structure LaneParams (F : Type) where
  ops : FloatOps F
  headDim : ℕ
  ratio : ℕ
  finish : List F → ℕ → List F
  half : F → F

/-- The rolling state and the compressed rows of a lane. -/
structure Lane (F : Type) where
  state : ℕ → StateRow F
  comp : List (List F)

namespace LaneParams
variable (p : LaneParams F)

def coff : ℕ := if p.ratio = 4 then 2 else 1

def width : ℕ := p.coff * p.headDim

/-- A cleared state row. -/
def emptyRow : StateRow F :=
  ⟨List.replicate p.width p.ops.zero, List.replicate p.width p.ops.negInf⟩

def col (xs : List F) (j : ℕ) : F := xs.getD j p.ops.zero

def maxOf (m x : F) : F := if p.ops.lt m x then x else m

def divOrZero (denom sum : F) : F :=
  if p.ops.lt p.ops.zero denom then p.ops.div sum denom else p.ops.zero

/-- Softmax pooling of one column over one lane. -/
def poolOne (rows : List (StateRow F)) (j : ℕ) : F :=
  let top := rows.foldl (fun m r => p.maxOf m (p.col r.score j)) p.ops.negInf
  if p.ops.le top p.ops.halfNegInf then p.ops.zero
  else
    let acc := rows.foldl (fun (acc : F × F) r =>
      let w := p.ops.exp (p.ops.sub (p.col r.score j) top)
      (p.ops.add acc.1 w, p.ops.add acc.2 (p.ops.mul w (p.col r.kv j)))) (p.ops.zero, p.ops.zero)
    p.divOrZero acc.1 acc.2

/-- Softmax pooling of one column over the first lane of the previous rows and the second
lane of the current ones. -/
def poolTwo (rows : List (StateRow F × StateRow F)) (j : ℕ) : F :=
  let top := rows.foldl (fun m r =>
    p.maxOf (p.maxOf m (p.col r.1.score j)) (p.col r.2.score (p.headDim + j))) p.ops.negInf
  if p.ops.le top p.ops.halfNegInf then p.ops.zero
  else
    let acc := rows.foldl (fun (acc : F × F) r =>
      let wp := p.ops.exp (p.ops.sub (p.col r.1.score j) top)
      let wc := p.ops.exp (p.ops.sub (p.col r.2.score (p.headDim + j)) top)
      (p.ops.add acc.1 (p.ops.add wp wc),
        p.ops.add (p.ops.add acc.2 (p.ops.mul wp (p.col r.1.kv j)))
          (p.ops.mul wc (p.col r.2.kv (p.headDim + j))))) (p.ops.zero, p.ops.zero)
    p.divOrZero acc.1 acc.2

/-- The pooled row of a previous and a current window; the previous one counts for ratio 4
only. -/
def poolWindows (prev cur : List (StateRow F)) : List F :=
  (List.range p.headDim).map fun j =>
    if p.ratio = 4 then p.poolTwo (prev.zip cur) j else p.poolOne cur j

def stateRows (state : ℕ → StateRow F) (start : ℕ) : List (StateRow F) :=
  (List.range p.ratio).map fun r => state (start + r)

/-- `compressor_pool_decode_state`. -/
def poolDecodeState (state : ℕ → StateRow F) : List F :=
  if p.ratio = 4 then p.poolWindows (p.stateRows state 0) (p.stateRows state p.ratio)
  else p.poolWindows [] (p.stateRows state 0)

/-- The first copy loop at a boundary: the current lane becomes the previous one. -/
def copyToPrevious (state : ℕ → StateRow F) : ℕ → StateRow F :=
  fun i => if i < p.ratio then state (p.ratio + i) else state i

/-- The second copy loop writes the same rows back. -/
def copyToCurrent (state : ℕ → StateRow F) : ℕ → StateRow F :=
  fun i => if p.ratio ≤ i ∧ i < 2 * p.ratio then state (i - p.ratio) else state i

def rowIndex (pos : ℕ) : ℕ := if p.ratio = 4 then p.ratio + pos % p.ratio else pos % p.ratio

def writeRow (state : ℕ → StateRow F) (pos : ℕ) (row : StateRow F) : ℕ → StateRow F :=
  Function.update state (p.rowIndex pos) row

/-- `compressor_decode_one` behind its projections, and the variant on scratch buffers: the
row of position `pos` comes in, at a boundary a compressed row comes out. -/
def compressorDecodeOne (state : ℕ → StateRow F) (pos : ℕ) (row : StateRow F) :
    Option (List F) × (ℕ → StateRow F) :=
  let state := p.writeRow state pos row
  if (pos + 1) % p.ratio = 0 then
    (some (p.finish (p.poolDecodeState state) (pos + 1 - p.ratio)),
      if p.ratio = 4 then p.copyToCurrent (p.copyToPrevious state) else state)
  else (none, state)

/-- `kv_cache_push_comp`: a full cache ends the program. -/
def pushComp (cap : ℕ) (comp : List (List F)) (row : List F) : Option (List (List F)) :=
  if cap ≤ comp.length then none else some (comp ++ [row.map p.half])

def decodeToken (cap : ℕ) (lane : Lane F) (pos : ℕ) (row : StateRow F) : Option (Lane F) :=
  match p.compressorDecodeOne lane.state pos row with
  | (some out, state) => (p.pushComp cap lane.comp out).map fun comp => ⟨state, comp⟩
  | (none, state) => some ⟨state, lane.comp⟩

/-- `compressor_finish_prefill_state_cpu`. -/
def finishPrefillState (state : ℕ → StateRow F) (tokens : ℕ) : ℕ → StateRow F :=
  let rem := tokens % p.ratio
  let clearStart := if p.ratio = 4 then p.ratio + rem else rem
  let clearEnd := if p.ratio = 4 then 2 * p.ratio else p.ratio
  fun i => if clearStart ≤ i ∧ i < clearEnd then p.emptyRow else state i

/-- A lane as `kv_cache_init` leaves it. -/
def initLane : Lane F := ⟨fun _ => p.emptyRow, []⟩

def compCap (ctxSize : ℕ) : ℕ := ctxSize / p.ratio + 2

/-- Tokens `pos`, `pos + 1`, ... of the sequence `x`, one after the other. -/
def decodeTokens (cap : ℕ) (x : ℕ → StateRow F) : ℕ → ℕ → Lane F → Option (Lane F)
  | _, 0, lane => some lane
  | pos, n + 1, lane =>
      (p.decodeToken cap lane pos (x pos)).bind fun lane => decodeTokens cap x (pos + 1) n lane

/-- A prefill of `n` tokens before the cache states are finished. -/
def prefillTokens (ctxSize : ℕ) (x : ℕ → StateRow F) (n : ℕ) : Option (Lane F) :=
  p.decodeTokens (p.compCap ctxSize) x 0 n p.initLane

/-- A prefill of `n` tokens and `m` single-token steps behind it. -/
def streamTokens (ctxSize : ℕ) (x : ℕ → StateRow F) (n m : ℕ) : Option (Lane F) :=
  (p.prefillTokens ctxSize x n).bind fun lane =>
    p.decodeTokens (p.compCap ctxSize) x n m
      { lane with state := p.finishPrefillState lane.state n }

/-- The rows of window `r`. -/
def window (x : ℕ → StateRow F) (r : ℕ) : List (StateRow F) :=
  (List.range p.ratio).map fun j => x (r * p.ratio + j)

/-- The rows of the window before window `r`; the first window has an empty one. -/
def previousWindow (x : ℕ → StateRow F) : ℕ → List (StateRow F)
  | 0 => List.replicate p.ratio p.emptyRow
  | r + 1 => p.window x r

/-- The definition of compressed row `r`: the pooled windows, finished at the position where
window `r` starts. -/
def windowRow (x : ℕ → StateRow F) (r : ℕ) : List F :=
  (p.finish (p.poolWindows (p.previousWindow x r) (p.window x r)) (r * p.ratio)).map p.half

end LaneParams

end Ds4.Engine
