import Ds4.Bytes.Search
import Mathlib.Data.FinEnum
import Mathlib.Data.List.TakeWhile

/-! Byte strings as the C sources see them. -/
namespace Ds4

abbrev Bytes := List UInt8

/-- The UTF-8 bytes of a source literal. -/
def lit (s : String) : Bytes := s.toList.flatMap String.utf8EncodeChar

/-- `isspace` in the C locale. -/
def isSpace (c : UInt8) : Bool := c == 32 || (decide (9 ≤ c) && decide (c ≤ 13))

def isDigit (c : UInt8) : Bool := decide (48 ≤ c) && decide (c ≤ 57)

/-- `tolower` in the C locale. -/
def lower (c : UInt8) : UInt8 := if 65 ≤ c ∧ c ≤ 90 then c + 32 else c

/-- The bytes of a text in an error. -/
def shown (s : Bytes) : String := String.ofList (s.map fun c => Char.ofNat c.toNat)

/-- The part of a buffer that `strlen` sees. -/
def cstr (s : Bytes) : Bytes := s.takeWhile (· != 0)

theorem cstr_eq_self {s : Bytes} (h : 0 ∉ s) : cstr s = s := by
  refine List.takeWhile_eq_self_iff.mpr fun c hc => ?_
  simpa using fun he : c = 0 => h (he ▸ hc)

theorem zero_not_mem_cstr (s : Bytes) : 0 ∉ cstr s := fun h => by
  simpa using List.mem_takeWhile_imp h

theorem cstr_length_le (s : Bytes) : (cstr s).length ≤ s.length :=
  (List.takeWhile_prefix _).length_le

theorem cstr_eq_self_iff {s : Bytes} : cstr s = s ↔ 0 ∉ s :=
  ⟨fun h => h ▸ zero_not_mem_cstr s, cstr_eq_self⟩

theorem cstr_append {s t : Bytes} (h : 0 ∉ s) : cstr (s ++ t) = s ++ cstr t := by
  refine List.takeWhile_append_of_pos fun c hc => ?_
  simpa using fun he : c = 0 => h (he ▸ hc)

/-- `utf8_put`. -/
def utf8Put (cp : ℕ) : Bytes :=
  if cp ≤ 0x7f then [cp.toUInt8]
  else if cp ≤ 0x7ff then [(0xc0 ||| (cp >>> 6)).toUInt8, (0x80 ||| (cp &&& 0x3f)).toUInt8]
  else if cp ≤ 0xffff then
    [(0xe0 ||| (cp >>> 12)).toUInt8, (0x80 ||| ((cp >>> 6) &&& 0x3f)).toUInt8,
      (0x80 ||| (cp &&& 0x3f)).toUInt8]
  else
    [(0xf0 ||| (cp >>> 18)).toUInt8, (0x80 ||| ((cp >>> 12) &&& 0x3f)).toUInt8,
      (0x80 ||| ((cp >>> 6) &&& 0x3f)).toUInt8, (0x80 ||| (cp &&& 0x3f)).toUInt8]

theorem utf8Put_length_pos (cp : ℕ) : 0 < (utf8Put cp).length := by
  unfold utf8Put
  split_ifs <;> simp

private theorem or_high : ∀ b : UInt8, 128 ≤ (0xc0 ||| b) ∧ 128 ≤ (0x80 ||| b) ∧
    128 ≤ (0xe0 ||| b) ∧
    128 ≤ (0xf0 ||| b) := by
  decide +kernel

/-- The bytes of a character beyond ASCII are beyond ASCII. -/
theorem utf8Put_high {u : ℕ} (hu : 0x7f < u) : ∀ c ∈ utf8Put u, 128 ≤ c := by
  have hor (k x : ℕ) : (k ||| x).toUInt8 = k.toUInt8 ||| x.toUInt8 := by
    simp [Nat.toUInt8, UInt8.ofNat_or]
  unfold utf8Put
  intro c hc
  rw [if_neg (by omega)] at hc
  split_ifs at hc <;> simp only [List.mem_cons, List.not_mem_nil, or_false, hor] at hc
  · rcases hc with rfl | rfl
    · exact (or_high _).1
    · exact (or_high _).2.1
  · rcases hc with rfl | rfl | rfl
    · exact (or_high _).2.2.1
    · exact (or_high _).2.1
    · exact (or_high _).2.1
  · rcases hc with rfl | rfl | rfl | rfl
    · exact (or_high _).2.2.2
    · exact (or_high _).2.1
    · exact (or_high _).2.1
    · exact (or_high _).2.1

theorem utf8Put_count_high {u : ℕ} {c : UInt8} (hu : 0x7f < u) (hc : c < 128) :
    (utf8Put u).count c = 0 :=
  List.count_eq_zero.mpr fun h => absurd (utf8Put_high hu c h) (UInt8.not_le.mpr hc)

theorem utf8Put_count_le (u : ℕ) {c d : UInt8} (hc : c < 128) (hd : d < 128) (hcd : c ≠ d) :
    (utf8Put u).count c + (utf8Put u).count d ≤ 1 := by
  by_cases hu : u ≤ 0x7f
  · have h : utf8Put u = [u.toUInt8] := if_pos hu
    rw [h, List.count_singleton, List.count_singleton]
    split_ifs with h1 h2
    · simp_all
    all_goals omega
  · rw [utf8Put_count_high (by omega) hc, utf8Put_count_high (by omega) hd]
    omega
end Ds4
