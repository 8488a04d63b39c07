import Ds4.Parts.Nearest
import Ds4.Parts.Rows
import Mathlib.Algebra.Ring.CharZero
import Mathlib.Data.Int.Log
import Mathlib.Tactic.Ring

/-! The bytes of an F8 row: the power of two that a block is divided by, and the codes of what is
left of its values. Arithmetic is exact. -/
namespace Ds4.Tp.F8
open Ds4.Parts

/-- The two F8 formats of a KV row. -/
inductive KvDtype
  | e4m3
  | e5m2
  deriving DecidableEq

/-- `e8m0_to_f32_dev`: the bits of the float. -/
def e8m0ToF32Dev (e : ℕ) : ℕ := if e = 0 then 0x00400000 else e <<< 23

/-- `e4m3fn_to_f32_dev`: the bits of the float. -/
def e4m3fnToF32Dev (x : ℕ) : ℕ :=
  let sign := (x &&& 0x80) <<< 24
  let ax := x &&& 0x7f
  if ax = 0 then (if sign ≠ 0 then 0x80000000 else 0)
  else if ax = 0x7f then 0x7fc00000
  else
    let exp := ax >>> 3
    let man := ax &&& 0x07
    if exp ≠ 0 then sign ||| (exp + 120) <<< 23 ||| man <<< 20
    else
      let hi := if 4 ≤ man then 2 else if 2 ≤ man then 1 else 0
      let mant := (man <<< (23 - hi)) &&& 0x007fffff
      sign ||| (118 + hi) <<< 23 ||| mant

/-- `e5m2_to_f32_dev`: the bits of the float. -/
def e5m2ToF32Dev (x : ℕ) : ℕ :=
  let sign := (x &&& 0x80) <<< 24
  let ax := x &&& 0x7f
  if ax = 0 then (if sign ≠ 0 then 0x80000000 else 0)
  else
    let exp := ax >>> 2
    let man := ax &&& 0x03
    if exp = 31 then (if man = 0 then sign ||| 0x7f800000 else 0x7fc00000)
    else if exp ≠ 0 then sign ||| (exp + 112) <<< 23 ||| man <<< 21
    else
      let hi := if 2 ≤ man then 1 else 0
      let mant := (man <<< (23 - hi)) &&& 0x007fffff
      sign ||| (113 + hi) <<< 23 ||| mant

/-- `f8_kv_to_f32_dev`. -/
def f8KvToF32Dev (x : ℕ) : KvDtype → ℕ
  | .e5m2 => e5m2ToF32Dev x
  | .e4m3 => e4m3fnToF32Dev x

section Codec
variable {R : Type} [Field R] [LinearOrder R]

attribute [local instance] atLeastTwo_two in
/-- The value of a finite float, by its bits. -/
def f32Value (bits : ℕ) : R :=
  let man : ℕ := bits % 2 ^ 23
  let exp : ℕ := bits / 2 ^ 23 % 256
  let mag : R :=
    if exp = 0 then (man : R) * 2 ^ (-149 : ℤ) else ((2 ^ 23 + man : ℕ) : R) * 2 ^ ((exp : ℤ) - 150)
  if bits / 2 ^ 31 % 2 = 1 then -mag else mag

/-- `e8m0_encode_pow2_scale`. -/
def e8m0EncodePow2Scale [FloorSemiring R] (scale : R) : ℕ :=
  if scale ≤ 0 then 0
  else
    let exp := Int.clog 2 scale + 127
    let exp := if exp < 1 then 1 else exp
    let exp := if 254 < exp then 254 else exp
    exp.toNat

/-- The nearest code, searched among those from 0 to `top`. -/
def quantByte (toF32 : ℕ → ℕ) (limit : R) (top : ℕ) (x : R) : ℕ :=
  let sign := if x < 0 then 0x80 else 0
  let ax := min |x| limit
  sign ||| nearestEntry (fun code => f32Value (toF32 code)) top ax

/-- `e4m3fn_quant_byte_dev`. -/
def e4m3fnQuantByteDev (x : R) : ℕ := quantByte e4m3fnToF32Dev 448 126 x

/-- `e5m2_quant_byte_dev`. -/
def e5m2QuantByteDev (x : R) : ℕ := quantByte e5m2ToF32Dev 57344 123 x

/-- `f8_kv_max_dev`. -/
def f8KvMaxDev : KvDtype → R
  | .e5m2 => 57344
  | .e4m3 => 448

/-- `f8_kv_quant_byte_dev`. -/
def f8KvQuantByteDev (x : R) : KvDtype → ℕ
  | .e5m2 => e5m2QuantByteDev x
  | .e4m3 => e4m3fnQuantByteDev x

/-- What a code stands for. -/
def f8Value (dtype : KvDtype) (code : ℕ) : R := f32Value (f8KvToF32Dev code dtype)

end Codec

section Bits
variable {R : Type} [Field R] {bits : ℕ}

/-- A float whose sign is not set. -/
theorem f32Value_normal (hsign : bits / 2 ^ 31 % 2 = 0) (hexp : bits / 2 ^ 23 % 256 ≠ 0) :
    f32Value bits =
      ((2 ^ 23 + bits % 2 ^ 23 : ℕ) : R) * 2 ^ ((bits / 2 ^ 23 % 256 : ℕ) - 150 : ℤ) := by
  unfold f32Value
  dsimp only
  rw [if_neg hexp, if_neg (by omega)]

/-- A float with and without its sign. -/
theorem f32Value_sign (hbits : bits < 2 ^ 31) :
    f32Value (2 ^ 31 + bits) = -(f32Value bits : R) := by
  have hsign : (2 ^ 31 + bits) / 2 ^ 31 % 2 = 1 := by omega
  have hplain : ¬ bits / 2 ^ 31 % 2 = 1 := by omega
  have hexp : (2 ^ 31 + bits) / 2 ^ 23 % 256 = bits / 2 ^ 23 % 256 := by omega
  have hman : (2 ^ 31 + bits) % 2 ^ 23 = bits % 2 ^ 23 := by omega
  unfold f32Value
  dsimp only
  rw [if_pos hsign, if_neg hplain, hexp, hman]

/-- A scale's byte is its exponent. -/
theorem f32Value_e8m0 {e : ℕ} (hpos : 1 ≤ e) (hlt : e < 255) [CharZero R] :
    f32Value (e8m0ToF32Dev e) = (2 : R) ^ ((e : ℤ) - 127) := by
  have hbits : e8m0ToF32Dev e = e * 2 ^ 23 := by
    unfold e8m0ToF32Dev
    rw [if_neg (by omega), Nat.shiftLeft_eq]
  have hexp : e * 2 ^ 23 / 2 ^ 23 % 256 = e := by omega
  rw [hbits, f32Value_normal (by omega) (by omega), hexp, Nat.mul_mod_left, Nat.add_zero,
    show ((e : ℤ) - 127) = 23 + ((e : ℤ) - 150) by ring, zpow_add₀ two_ne_zero]
  norm_num

end Bits

end Ds4.Tp.F8
