import Mathlib.Algebra.Group.Int.Defs
import Mathlib.Tactic.SplitIfs

/-! The sizes that a session's prefill works with: the chunk of tokens that is taken at once, and
the ring of raw rows that attention reads. -/
namespace Ds4.Prefill

/-- What `strtol` reads in an environment variable. -/
inductive EnvNumber
  | unset
  | noNumber
  | value (v : ℤ)
  deriving DecidableEq

/-- `(uint32_t)` of a `long`. -/
def toU32 (v : ℤ) : ℕ := (v % 2 ^ 32).toNat

/-- `ds4_default_prefill_cap_for_prompt`; `env` is `DS4_METAL_PREFILL_CHUNK`. -/
def defaultPrefillCapForPrompt (env : EnvNumber) (promptLen : ℕ) : ℕ :=
  if promptLen = 0 then 1
  else match env with
    | .unset => if 2048 < promptLen then 2048 else promptLen
    | .noNumber => promptLen
    | .value v => if v ≤ 0 then promptLen else min (max (toU32 v) 1) promptLen

def alignUp (value alignment : ℕ) : ℕ :=
  if value % alignment = 0 then value else value + alignment - value % alignment

def rawWindowFor (ctxSize : ℕ) : ℕ := max (min 128 ctxSize) 1

/-- `metal_graph_raw_cap_for_context`; `env` is `DS4_METAL_GRAPH_RAW_CAP`. -/
def rawCapForContext (env : EnvNumber) (ctxSize prefillCap : ℕ) : ℕ :=
  let rawWindow := rawWindowFor ctxSize
  let wanted := min (alignUp (max (min (rawWindow + prefillCap) ctxSize) 1) 256) 8192
  match env with
  | .unset => max wanted rawWindow
  | .noNumber => max wanted rawWindow
  | .value v =>
    if 0 < v then max (min (min (toU32 v) ctxSize) 8192) rawWindow else max wanted rawWindow

/-- What the prefill reads of the graph. -/
structure Graph where
  rawCap : ℕ
  rawWindow : ℕ
  prefillCap : ℕ
  rawWindow_pos : 0 < rawWindow
  rawWindow_le : rawWindow ≤ rawCap
  prefillCap_pos : 0 < prefillCap

theorem rawWindowFor_pos (ctxSize : ℕ) : 0 < rawWindowFor ctxSize := by
  unfold rawWindowFor
  omega

/-- The capacity that the graph is given: at least the window, and no more than the context. -/
def allocatedRawCap (rawCap ctxSize : ℕ) : ℕ :=
  let rawCap := max rawCap 1
  let ctxSize := if ctxSize = 0 then rawCap else ctxSize
  max (min (max rawCap (rawWindowFor ctxSize)) ctxSize) 1

def allocatedWindow (rawCap ctxSize : ℕ) : ℕ :=
  rawWindowFor (if ctxSize = 0 then max rawCap 1 else ctxSize)

theorem allocatedWindow_le (rawCap ctxSize : ℕ) :
    allocatedWindow rawCap ctxSize ≤ allocatedRawCap rawCap ctxSize := by
  unfold allocatedWindow allocatedRawCap rawWindowFor
  dsimp only
  split_ifs <;> omega

/-- `metal_graph_alloc_raw_cap`. -/
def allocRawCap (rawCap ctxSize prefillCap : ℕ) : Graph where
  rawCap := allocatedRawCap rawCap ctxSize
  rawWindow := allocatedWindow rawCap ctxSize
  prefillCap := max prefillCap 1
  rawWindow_pos := rawWindowFor_pos _
  rawWindow_le := allocatedWindow_le rawCap ctxSize
  prefillCap_pos := Nat.lt_of_lt_of_le Nat.one_pos (Nat.le_max_right _ _)

/-- The graph of a session with the given context, under the two environment variables. -/
def sessionGraph (chunkEnv rawEnv : EnvNumber) (ctxSize : ℕ) : Graph :=
  let prefillCap := defaultPrefillCapForPrompt chunkEnv ctxSize
  allocRawCap (rawCapForContext rawEnv ctxSize prefillCap) ctxSize prefillCap

end Ds4.Prefill
