import Ds4.Tp.F8Codec

/-! The values that the two formats have, and which of them the codes of a row are for: the decoder
of E5M2 puts the three least values at four times what they are, so the search is out of order
below the seventh. -/
namespace Ds4.Tp.F8
open Ds4.Parts

namespace KvDtype

/-- The last code without a sign that is finite. -/
def top : KvDtype → ℕ
  | .e5m2 => 123
  | .e4m3 => 126

/-- The code of half the greatest value. -/
def half : KvDtype → ℕ
  | .e5m2 => 119
  | .e4m3 => 118

/-- The bits of a code below its exponent. -/
def manBits : KvDtype → ℕ
  | .e5m2 => 2
  | .e4m3 => 3

/-- The exponent, as that of a float, of the least value that is not zero. -/
def unitExp : KvDtype → ℕ
  | .e5m2 => 111
  | .e4m3 => 118

/-- A code without a sign, in units of the least value that is not zero. -/
def mag (dtype : KvDtype) (code : ℕ) : ℕ :=
  let exp := code >>> dtype.manBits
  let man := code % 2 ^ dtype.manBits
  if exp = 0 then man else (2 ^ dtype.manBits + man) * 2 ^ (exp - 1)

/-- The code of twice the value. -/
def double (dtype : KvDtype) (code : ℕ) : ℕ :=
  if code < 2 ^ dtype.manBits then 2 * code else code + 2 ^ dtype.manBits

/-- The codes that the decoder has at their values. -/
def Decoded : KvDtype → ℕ → Prop
  | .e5m2, code => code = 0 ∨ 4 ≤ code
  | .e4m3, _ => True

instance (dtype : KvDtype) : DecidablePred dtype.Decoded := fun code =>
  match dtype with
  | .e5m2 => inferInstanceAs (Decidable (code = 0 ∨ 4 ≤ code))
  | .e4m3 => inferInstanceAs (Decidable True)

theorem mag_lt_succ (dtype : KvDtype) :
    ∀ code < dtype.top, dtype.mag code < dtype.mag (code + 1) := by
  cases dtype <;> decide

theorem mag_double (dtype : KvDtype) :
    ∀ code < dtype.half + 1, dtype.mag (dtype.double code) = 2 * dtype.mag code ∧
      dtype.double code ≤ dtype.top := by
  cases dtype <;> decide

/-- The float of a code has its magnitude. -/
theorem toF32_mag (dtype : KvDtype) : ∀ code < dtype.top + 1, 0 < code → dtype.Decoded code →
    f8KvToF32Dev code dtype / 2 ^ 31 % 2 = 0 ∧
      dtype.unitExp ≤ f8KvToF32Dev code dtype / 2 ^ 23 % 256 ∧
      (2 ^ 23 + f8KvToF32Dev code dtype % 2 ^ 23) *
          2 ^ (f8KvToF32Dev code dtype / 2 ^ 23 % 256 - dtype.unitExp) =
        dtype.mag code * 2 ^ 23 := by
  cases dtype <;> decide

/-- A code with its sign is the float with its sign. -/
theorem toF32_sign (dtype : KvDtype) : ∀ code < dtype.top + 1,
    f8KvToF32Dev (128 ||| code) dtype = 2 ^ 31 + f8KvToF32Dev code dtype ∧
      f8KvToF32Dev code dtype < 2 ^ 31 := by
  cases dtype <;> decide

end KvDtype

section Values
variable {R : Type} [Field R] [LinearOrder R] [IsStrictOrderedRing R] {dtype : KvDtype} {code : ℕ}

attribute [local instance] atLeastTwo_two in
/-- The least value that is not zero. -/
def KvDtype.unit (dtype : KvDtype) : R := 2 ^ ((dtype.unitExp : ℤ) - 127)

/-- The value of a code without a sign. -/
def KvDtype.value (dtype : KvDtype) (code : ℕ) : R := dtype.mag code * dtype.unit

theorem unit_pos (dtype : KvDtype) : (0 : R) < dtype.unit := zpow_pos two_pos _

theorem value_lt {i j : ℕ} (hij : i < j) (hj : j ≤ dtype.top) :
    (dtype.value i : R) < dtype.value j := by
  have hmag : dtype.mag i < dtype.mag j := by
    induction j, hij using Nat.le_induction with
    | base => exact dtype.mag_lt_succ i hj
    | succ j hij ih => exact (ih (by omega)).trans (dtype.mag_lt_succ j hj)
  exact mul_lt_mul_of_pos_right (Nat.cast_lt.2 hmag) (unit_pos dtype)

theorem value_le {i j : ℕ} (hij : i ≤ j) (hj : j ≤ dtype.top) :
    (dtype.value i : R) ≤ dtype.value j := by
  rcases hij.eq_or_lt with rfl | hlt
  · exact le_rfl
  · exact (value_lt hlt hj).le

omit [LinearOrder R] [IsStrictOrderedRing R] in
theorem value_zero (dtype : KvDtype) : (dtype.value 0 : R) = 0 := by
  have hmag : dtype.mag 0 = 0 := by cases dtype <;> rfl
  unfold KvDtype.value
  rw [hmag, Nat.cast_zero, zero_mul]

theorem value_nonneg (hcode : code ≤ dtype.top) : (0 : R) ≤ dtype.value code := by
  rw [← value_zero dtype]
  exact value_le (Nat.zero_le code) hcode

theorem value_top (dtype : KvDtype) : (dtype.value dtype.top : R) = f8KvMaxDev dtype := by
  cases dtype with
  | e4m3 =>
    have hmag : KvDtype.e4m3.mag KvDtype.e4m3.top = 448 * 2 ^ 9 := by decide
    show (KvDtype.e4m3.mag KvDtype.e4m3.top : R) * 2 ^ ((118 : ℤ) - 127) = 448
    rw [hmag]
    norm_num
  | e5m2 =>
    have hmag : KvDtype.e5m2.mag KvDtype.e5m2.top = 57344 * 2 ^ 16 := by decide
    show (KvDtype.e5m2.mag KvDtype.e5m2.top : R) * 2 ^ ((111 : ℤ) - 127) = 57344
    rw [hmag]
    norm_num

omit [LinearOrder R] [IsStrictOrderedRing R] in
theorem value_double (hcode : code ≤ dtype.half) :
    (dtype.value (dtype.double code) : R) = 2 * dtype.value code := by
  unfold KvDtype.value
  rw [(dtype.mag_double code (by omega)).1]
  push_cast
  ring

theorem value_half (dtype : KvDtype) : 2 * (dtype.value dtype.half : R) = f8KvMaxDev dtype := by
  have hdouble : dtype.double dtype.half = dtype.top := by cases dtype <;> rfl
  rw [← value_double le_rfl, hdouble, value_top]

/-- What the decoder makes of a code. -/
theorem f8Value_eq (hcode : code ≤ dtype.top) (hdecoded : dtype.Decoded code) :
    f8Value dtype code = (dtype.value code : R) := by
  rcases Nat.eq_zero_or_pos code with rfl | hpos
  · have hbits : f8KvToF32Dev 0 dtype = 0 := by cases dtype <;> rfl
    unfold f8Value
    rw [value_zero, hbits]
    unfold f32Value
    norm_num
  · obtain ⟨hsign, hexp, hmag⟩ := dtype.toF32_mag code (by omega) hpos hdecoded
    have hunit : 0 < dtype.unitExp := by cases dtype <;> decide
    have hsplit : ∀ exp : ℕ, dtype.unitExp ≤ exp →
        (exp : ℤ) - 150 = ((exp - dtype.unitExp : ℕ) : ℤ) + ((dtype.unitExp : ℤ) - 127 - 23) := by
      intro exp hle
      omega
    have hcast : ((2 ^ 23 + f8KvToF32Dev code dtype % 2 ^ 23 : ℕ) : R) *
        2 ^ (f8KvToF32Dev code dtype / 2 ^ 23 % 256 - dtype.unitExp) = dtype.mag code * 2 ^ 23 := by
      exact_mod_cast congrArg (Nat.cast (R := R)) hmag
    have hscale : (2 : R) ^ 23 * 2 ^ ((dtype.unitExp : ℤ) - 127 - 23) =
        2 ^ ((dtype.unitExp : ℤ) - 127) := by
      rw [← zpow_natCast, ← zpow_add₀ two_ne_zero]
      congr 1
      push_cast
      ring
    unfold f8Value KvDtype.value KvDtype.unit
    rw [f32Value_normal hsign (by omega), hsplit _ hexp, zpow_add₀ two_ne_zero, zpow_natCast,
      ← mul_assoc, hcast, mul_assoc, hscale]

omit [LinearOrder R] [IsStrictOrderedRing R] in
/-- A code with its sign. -/
theorem f8Value_sign (hcode : code ≤ dtype.top) :
    f8Value dtype (128 ||| code) = -(f8Value dtype code : R) := by
  obtain ⟨hbits, hlt⟩ := dtype.toF32_sign code (by omega)
  unfold f8Value
  rw [hbits, f32Value_sign hlt]

end Values

end Ds4.Tp.F8
