import Ds4.Tp.Words
import Mathlib.Algebra.BigOperators.Ring.List
import Mathlib.Tactic.NormNum

/-! The KV memory of the tensor-parallel runtime: what it reserves on each GPU, and how its
loops over the layers add it up. -/
namespace Ds4.Tp

/-- The formats of a KV value that the contract tool and the runtime share. -/
inductive KvDtype
  | f16
  | f8E4M3
  | q8_0
  deriving DecidableEq

namespace Runtime

/-- Transformer layers 0 to 42, and the MTP block at layer 43. -/
def kLayers : ℕ := 44

def kvValuesBytes (values : ℕ) : KvDtype → Option ℕ
  | .f16 => checkedMul values 2
  | .f8E4M3 => bytesBlocks values 128 129
  | .q8_0 => bytesBlocks values 32 34

def layerRatio (layer : ℕ) : ℕ :=
  if layer < 2 then 0
  else if layer = 43 then 0
  else if layer % 2 = 0 then 4
  else 128

def layerCompStateBytes (ctx layer : ℕ) : Option ℕ :=
  let ratio := layerRatio layer
  if ratio = 0 then some 0
  else do
    let attn ← checkedMul (ctx / ratio) 512
    if ratio = 4 then
      let indexer ← checkedMul (ctx / 4) 128
      checkedMul ((attn + indexer) % 2 ^ 64 / 8) 4
    else checkedMul (attn / 8) 4

def attnRows (ctx layer : ℕ) : ℕ :=
  (128 + if layerRatio layer = 0 then 0 else ctx / layerRatio layer) % 2 ^ 64

/-- The pass of `planned_kv_bytes` over one layer. -/
def planLayer (ctx : ℕ) (kv : KvDtype) (slotStride layer : ℕ) : Option ℕ := do
  let attnRowBytes ← (kvValuesBytes 512 kv).map (ceilDiv · 8)
  let attn ← checkedMul (attnRows ctx layer) attnRowBytes
  let slotStride := (slotStride + attn) % 2 ^ 64
  if layerRatio layer = 4 then
    let indexerRowBytes ← (kvValuesBytes 128 kv).map (ceilDiv · 8)
    let indexer ← checkedMul (ctx / 4) indexerRowBytes
    some ((slotStride + indexer) % 2 ^ 64)
  else some slotStride

def sumComp (ctx comp layer : ℕ) : Option ℕ :=
  (layerCompStateBytes ctx layer).map fun n => (comp + n) % 2 ^ 64

/-- The loops of `planned_kv_bytes` over the first layers: the KV bytes and the bytes of the
compression state of one GPU; `none` where the program ends. -/
def plannedKvBytesOf (layers ctx slots : ℕ) (kv : KvDtype) : Option (ℕ × ℕ) := do
  let comp ← (List.range layers).foldlM (sumComp ctx) 0
  let slotStride ← (List.range layers).foldlM (planLayer ctx kv) 0
  let kvPerGpu ← checkedMul slotStride slots
  let compPerGpu ← checkedMul (ceilDiv comp 8) slots
  some (kvPerGpu, compPerGpu)

/-- `planned_kv_bytes`. -/
def plannedKvBytes (ctx slots : ℕ) (kv : KvDtype) : Option (ℕ × ℕ) :=
  plannedKvBytesOf kLayers ctx slots kv

end Runtime

section Sums

/-- A loop of which each pass adds a size in 64 bits. -/
theorem foldlM_adds {step : ℕ → ℕ → Option ℕ} {size : ℕ → ℕ}
    (hstep : ∀ s layer s', step s layer = some s' → s' = (s + size layer) % 2 ^ 64)
    (layers : List ℕ) (s s' : ℕ) (hrun : layers.foldlM step s = some s') (hs : s < 2 ^ 64) :
    s' = (s + (layers.map size).sum) % 2 ^ 64 := by
  induction layers generalizing s with
  | nil =>
    obtain rfl := Option.some.inj hrun
    simp only [List.map_nil, List.sum_nil, add_zero]
    exact (Nat.mod_eq_of_lt hs).symm
  | cons layer layers ih =>
    rw [List.foldlM_cons] at hrun
    obtain ⟨t, ht, hrest⟩ := Option.bind_eq_some_iff.mp hrun
    have heq := hstep s layer t ht
    rw [ih t hrest (by omega), heq, List.map_cons, List.sum_cons, Nat.mod_add_mod, Nat.add_assoc]

end Sums

namespace Runtime
variable {ctx slots layer : ℕ} {kv : KvDtype}

/-- The bytes of a row of 512 values on one GPU. -/
def attnRowBytes : KvDtype → ℕ
  | .f16 => 128
  | .f8E4M3 => 65
  | .q8_0 => 68

/-- The bytes of a row of 128 values on one GPU. -/
def indexerRowBytes : KvDtype → ℕ
  | .f16 => 32
  | .f8E4M3 => 17
  | .q8_0 => 17

/-- The bytes that the runtime reserves on one GPU for a layer of one slot. -/
def layerBytes (ctx : ℕ) (kv : KvDtype) (layer : ℕ) : ℕ :=
  attnRows ctx layer * attnRowBytes kv +
    if layerRatio layer = 4 then ctx / 4 * indexerRowBytes kv else 0

theorem attnRowBytes_eq (kv : KvDtype) :
    (kvValuesBytes 512 kv).map (ceilDiv · 8) = some (attnRowBytes kv) := by
  cases kv <;> decide

theorem indexerRowBytes_eq (kv : KvDtype) :
    (kvValuesBytes 128 kv).map (ceilDiv · 8) = some (indexerRowBytes kv) := by
  cases kv <;> decide

theorem planLayer_adds (ctx : ℕ) (kv : KvDtype) (s layer s' : ℕ)
    (h : planLayer ctx kv s layer = some s') : s' = (s + layerBytes ctx kv layer) % 2 ^ 64 := by
  unfold planLayer at h
  rw [attnRowBytes_eq, indexerRowBytes_eq] at h
  obtain ⟨rowBytes, hrow, h⟩ := Option.bind_eq_some_iff.mp h
  obtain rfl := Option.some.inj hrow
  obtain ⟨attn, hattn, h⟩ := Option.bind_eq_some_iff.mp h
  obtain ⟨rfl, -⟩ := checkedMul_some.mp hattn
  unfold layerBytes
  split_ifs at h ⊢ with hratio
  · obtain ⟨rowBytes, hrow, h⟩ := Option.bind_eq_some_iff.mp h
    obtain rfl := Option.some.inj hrow
    obtain ⟨indexer, hindexer, h⟩ := Option.bind_eq_some_iff.mp h
    obtain ⟨rfl, -⟩ := checkedMul_some.mp hindexer
    obtain rfl := Option.some.inj h
    rw [Nat.mod_add_mod, Nat.add_assoc]
  · obtain rfl := Option.some.inj h
    rfl

/-- The bytes that one slot has in all layers of the runtime. -/
def slotBytes (ctx : ℕ) (kv : KvDtype) (layers : ℕ) : ℕ :=
  ((List.range layers).map (layerBytes ctx kv)).sum

theorem plannedKvBytes_kv {layers k c : ℕ}
    (h : plannedKvBytesOf layers ctx slots kv = some (k, c)) :
    k = slotBytes ctx kv layers % 2 ^ 64 * slots ∧ k < 2 ^ 64 := by
  unfold plannedKvBytesOf at h
  obtain ⟨comp, -, h⟩ := Option.bind_eq_some_iff.mp h
  obtain ⟨stride, hstride, h⟩ := Option.bind_eq_some_iff.mp h
  obtain ⟨k', hk, h⟩ := Option.bind_eq_some_iff.mp h
  obtain ⟨c', -, h⟩ := Option.bind_eq_some_iff.mp h
  obtain ⟨rfl, rfl⟩ := Prod.mk.inj (Option.some.inj h)
  obtain ⟨rfl, hfit⟩ := checkedMul_some.mp hk
  have hsum := foldlM_adds (planLayer_adds ctx kv) _ _ _ hstride (by norm_num)
  rw [Nat.zero_add] at hsum
  rw [hsum] at hfit ⊢
  exact ⟨rfl, hfit⟩

/-- The compression state of a layer is shared out without a rest. -/
theorem layerCompStateBytes_dvd {n : ℕ} (h : layerCompStateBytes ctx layer = some n) :
    8 ∣ n ∧ n < 2 ^ 64 := by
  unfold layerCompStateBytes at h
  dsimp only at h
  split_ifs at h with hnone hfour
  · obtain rfl := Option.some.inj h
    exact ⟨dvd_zero 8, by norm_num⟩
  · obtain ⟨attn, hattn, h⟩ := Option.bind_eq_some_iff.mp h
    obtain ⟨indexer, hindexer, h⟩ := Option.bind_eq_some_iff.mp h
    obtain ⟨rfl, -⟩ := checkedMul_some.mp hattn
    obtain ⟨rfl, -⟩ := checkedMul_some.mp hindexer
    obtain ⟨rfl, hlt⟩ := checkedMul_some.mp h
    exact ⟨by omega, hlt⟩
  · obtain ⟨attn, hattn, h⟩ := Option.bind_eq_some_iff.mp h
    obtain ⟨rfl, -⟩ := checkedMul_some.mp hattn
    obtain ⟨rfl, hlt⟩ := checkedMul_some.mp h
    exact ⟨by omega, hlt⟩

/-- The bytes of a layer's compression state, where the program does not end. -/
def compBytes (ctx layer : ℕ) : ℕ := (layerCompStateBytes ctx layer).getD 0

theorem compBytes_dvd (ctx layer : ℕ) : 8 ∣ compBytes ctx layer := by
  unfold compBytes
  cases h : layerCompStateBytes ctx layer with
  | none => exact dvd_zero 8
  | some n => exact (layerCompStateBytes_dvd h).1

theorem sumComp_adds (ctx s layer s' : ℕ) (h : sumComp ctx s layer = some s') :
    s' = (s + compBytes ctx layer) % 2 ^ 64 := by
  obtain ⟨n, hn, rfl⟩ := Option.map_eq_some_iff.mp h
  unfold compBytes
  rw [hn]
  rfl

/-- What is reserved for the compression states: an eighth of their sum in 64 bits for each
slot. -/
theorem plannedKvBytes_comp {layers k c : ℕ}
    (h : plannedKvBytesOf layers ctx slots kv = some (k, c)) :
    c = ((List.range layers).map (compBytes ctx)).sum % 2 ^ 64 / 8 * slots ∧ c < 2 ^ 64 := by
  unfold plannedKvBytesOf at h
  obtain ⟨comp, hcomp, h⟩ := Option.bind_eq_some_iff.mp h
  obtain ⟨stride, -, h⟩ := Option.bind_eq_some_iff.mp h
  obtain ⟨k', -, h⟩ := Option.bind_eq_some_iff.mp h
  obtain ⟨c', hc, h⟩ := Option.bind_eq_some_iff.mp h
  obtain ⟨rfl, rfl⟩ := Prod.mk.inj (Option.some.inj h)
  obtain ⟨rfl, hfit⟩ := checkedMul_some.mp hc
  have hsum := foldlM_adds (sumComp_adds ctx) _ _ _ hcomp (by norm_num)
  have hdvd : 8 ∣ ((List.range layers).map (compBytes ctx)).sum := by
    apply List.dvd_sum
    intro n hn
    obtain ⟨layer, -, rfl⟩ := List.mem_map.mp hn
    exact compBytes_dvd ctx layer
  rw [Nat.zero_add] at hsum
  have hceil : ceilDiv comp 8 = comp / 8 := by
    unfold ceilDiv
    omega
  rw [hceil, hsum] at hfit ⊢
  exact ⟨rfl, hfit⟩

end Runtime

end Ds4.Tp
