import Ds4.Bytes.Sha1Standard
import Mathlib.Algebra.Order.Ring.Star

/-! The hash context of the source: text is copied into a block of 64 bytes that is compressed when
it is full. -/
namespace Ds4

/-- `sha1_ctx`. Behind the used bytes the block holds what was there before. -/
structure Sha1Ctx where
  h : List UInt32
  bytes : UInt64
  block : Vector UInt8 64
  used : ℕ
  used_lt : used < 64

namespace Sha1
variable {ctx : Sha1} {p q : Bytes}

theorem update_append (ctx : Sha1) (p q : Bytes) :
    ctx.update (p ++ q) = (ctx.update p).update q := List.foldl_append

theorem bytes_append (b : UInt64) (p q : Bytes) : b + UInt64.ofNat (p ++ q).length =
    b + UInt64.ofNat p.length + UInt64.ofNat q.length := by
  rw [List.length_append, UInt64.ofNat_add, UInt64.add_assoc]

/-- Text that does not fill the block is kept in it. -/
theorem update_short (h : ctx.block.length + p.length < 64) :
    ctx.update p = ⟨ctx.h, ctx.bytes + UInt64.ofNat p.length, ctx.block ++ p⟩ := by
  induction p using List.reverseRecOn with
  | nil =>
    have hzero : UInt64.ofNat ([] : Bytes).length = 0 := rfl
    rw [hzero, UInt64.add_zero, List.append_nil]
    rfl
  | append_singleton p x ih =>
    rw [List.length_append, List.length_singleton] at h
    rw [update_append, ih (by omega), bytes_append, ← List.append_assoc]
    show byte _ x = _
    unfold byte
    dsimp only
    rw [if_neg (by rw [List.length_append, List.length_append, List.length_singleton]; omega)]
    rfl

/-- Text that fills the block empties it. -/
theorem update_full (hlt : ctx.block.length < 64) (h : ctx.block.length + p.length = 64) :
    ctx.update p = ⟨transform ctx.h (ctx.block ++ p), ctx.bytes + UInt64.ofNat p.length, []⟩ := by
  induction p using List.reverseRecOn with
  | nil =>
    rw [List.length_nil] at h
    omega
  | append_singleton p x _ =>
    rw [List.length_append, List.length_singleton] at h
    have hkept : ctx.update p = ⟨ctx.h, ctx.bytes + UInt64.ofNat p.length, ctx.block ++ p⟩ :=
      update_short (by omega)
    rw [update_append, hkept, bytes_append, ← List.append_assoc]
    show byte _ x = _
    unfold byte
    dsimp only
    rw [if_pos (by rw [List.length_append, List.length_append, List.length_singleton]; omega)]
    rfl

end Sha1

namespace Sha1Ctx

/-- `memcpy` of the first `n` bytes of `p` into the block at `used`. -/
def copy (block : Vector UInt8 64) (used : ℕ) (p : Bytes) (n : ℕ) : Vector UInt8 64 :=
  Vector.ofFn fun i =>
    if used ≤ i.val ∧ i.val < used + n then p.getD (i.val - used) 0 else block[i.val]

/-- `sha1_init` of a context whose block is not set. -/
def init (block : Vector UInt8 64) : Sha1Ctx := ⟨Sha1.init.h, 0, block, 0, by norm_num⟩

/-- The loop of `sha1_update`. -/
def updateLoop (c : Sha1Ctx) (p : Bytes) : Sha1Ctx :=
  if hp : p.length = 0 then c
  else
    let n := min (64 - c.used) p.length
    let block := copy c.block c.used p n
    if hfull : c.used + n = 64 then
      updateLoop ⟨Sha1.transform c.h block.toList, c.bytes, block, 0, by norm_num⟩ (p.drop n)
    else updateLoop ⟨c.h, c.bytes, block, c.used + n, by have := c.used_lt; omega⟩ (p.drop n)
termination_by p.length
decreasing_by
  · have := c.used_lt
    rw [List.length_drop]
    omega
  · have := c.used_lt
    rw [List.length_drop]
    omega

/-- `sha1_update`. -/
def update (c : Sha1Ctx) (p : Bytes) : Sha1Ctx :=
  updateLoop ⟨c.h, c.bytes + UInt64.ofNat p.length, c.block, c.used, c.used_lt⟩ p

/-- The bytes of the block that are in use, as the text read byte by byte leaves them. -/
def view (c : Sha1Ctx) : Sha1 := ⟨c.h, c.bytes, c.block.toList.take c.used⟩

theorem length_view (c : Sha1Ctx) : c.view.block.length = c.used := by
  have hlt := c.used_lt
  unfold view
  rw [List.length_take, Vector.length_toList]
  omega

theorem copy_get (block : Vector UInt8 64) (used : ℕ) (p : Bytes) (n : ℕ) {i : ℕ} (hi : i < 64) :
    (copy block used p n)[i] =
      if used ≤ i ∧ i < used + n then p.getD (i - used) 0 else block[i] := by
  unfold copy
  rw [Vector.getElem_ofFn]

/-- What is in use behind a copy. -/
theorem used_copy (block : Vector UInt8 64) {used n : ℕ} {p : Bytes} (hn : n ≤ p.length)
    (hfit : used + n ≤ 64) :
    (copy block used p n).toList.take (used + n) = block.toList.take used ++ p.take n := by
  have hleft : (block.toList.take used).length = used := by
    rw [List.length_take, Vector.length_toList]
    omega
  apply List.ext_getElem
  · rw [List.length_append, hleft, List.length_take, List.length_take, Vector.length_toList]
    omega
  · intro i hi hi'
    rw [List.length_take, Vector.length_toList] at hi
    rw [List.getElem_take, Vector.getElem_toList, copy_get]
    by_cases hold : i < used
    · rw [if_neg (by omega), List.getElem_append_left (by omega), List.getElem_take,
        Vector.getElem_toList]
    · rw [if_pos (by omega), List.getElem_append_right (by omega), List.getElem_take,
        List.getD_eq_getElem _ _ (by omega)]
      congr 1
      omega

/-- The loop reads the text as it is read byte by byte; the length is counted before. -/
theorem updateLoop_view (c : Sha1Ctx) (p : Bytes) (b : UInt64)
    (hbytes : c.bytes = b + UInt64.ofNat p.length) :
    (updateLoop c p).view = (⟨c.h, b, c.view.block⟩ : Sha1).update p := by
  fun_induction updateLoop c p generalizing b with
  | case1 c p hp =>
    obtain rfl := List.length_eq_zero_iff.1 hp
    have hzero : UInt64.ofNat ([] : Bytes).length = 0 := rfl
    rw [hzero, UInt64.add_zero] at hbytes
    rw [← hbytes]
    rfl
  | case2 c p hp n block hfull ih =>
    have hle : n ≤ p.length := Nat.min_le_right _ _
    have hused := length_view c
    have hlt := c.used_lt
    have hcopy : block.toList = c.view.block ++ p.take n := by
      have hused' := used_copy c.block hle hfull.le
      rwa [hfull, List.take_of_length_le (by rw [Vector.length_toList])] at hused'
    have hcut : p = p.take n ++ p.drop n := (List.take_append_drop n p).symm
    have hlen : (p.take n).length = n := List.length_take_of_le hle
    have hnext := ih (b + UInt64.ofNat (p.take n).length) (by
      rw [← Sha1.bytes_append, ← hcut]
      exact hbytes)
    have hchunk : (⟨c.h, b, c.view.block⟩ : Sha1).update (p.take n) =
        ⟨Sha1.transform c.h block.toList, b + UInt64.ofNat (p.take n).length, []⟩ := by
      rw [hcopy]
      exact Sha1.update_full (by dsimp only; omega) (by dsimp only; omega)
    rw [hnext]
    conv_rhs => rw [hcut]
    rw [Sha1.update_append, hchunk]
    rfl
  | case3 c p hp n block hfull ih =>
    have hle : n ≤ p.length := Nat.min_le_right _ _
    have hused := length_view c
    have hlt := c.used_lt
    have hfit : c.used + n < 64 := by omega
    have hcopy : block.toList.take (c.used + n) = c.view.block ++ p.take n :=
      used_copy c.block hle hfit.le
    have hcut : p = p.take n ++ p.drop n := (List.take_append_drop n p).symm
    have hlen : (p.take n).length = n := List.length_take_of_le hle
    have hnext := ih (b + UInt64.ofNat (p.take n).length) (by
      rw [← Sha1.bytes_append, ← hcut]
      exact hbytes)
    have hchunk : (⟨c.h, b, c.view.block⟩ : Sha1).update (p.take n) =
        ⟨c.h, b + UInt64.ofNat (p.take n).length, block.toList.take (c.used + n)⟩ := by
      rw [hcopy]
      exact Sha1.update_short (by dsimp only; omega)
    rw [hnext]
    conv_rhs => rw [hcut]
    rw [Sha1.update_append, hchunk]
    rfl

theorem update_view (c : Sha1Ctx) (p : Bytes) : (c.update p).view = c.view.update p :=
  updateLoop_view ⟨c.h, c.bytes + UInt64.ofNat p.length, c.block, c.used, c.used_lt⟩ p c.bytes rfl

theorem update_used (c : Sha1Ctx) (x : UInt8) :
    (c.update [x]).used = if c.used + 1 = 64 then 0 else c.used + 1 := by
  rw [← length_view, update_view]
  show (c.view.byte x).block.length = _
  unfold Sha1.byte
  dsimp only
  rw [List.length_append, List.length_singleton, length_view]
  split_ifs
  · rfl
  · rw [List.length_append, List.length_singleton, length_view]

/-- The zeros of `sha1_final`, one at a time. -/
def padLoop (c : Sha1Ctx) : Sha1Ctx := if c.used = 56 then c else padLoop (c.update [0])
termination_by (120 - c.used) % 64
decreasing_by
  have hlt := c.used_lt
  rw [update_used]
  split_ifs
  · omega
  · omega

/-- `sha1_final`. -/
def final (c : Sha1Ctx) : Bytes :=
  let bits := c.bytes * 8
  let padded := padLoop (c.update [0x80])
  let len := (List.range 8).map fun i => (bits >>> UInt64.ofNat (8 * (7 - i))).toUInt8
  let h := (padded.update len).h
  (List.range 5).flatMap fun i => Sha1.bigEndian (h.getD i 0)

theorem padLoop_view (c : Sha1Ctx) {n : ℕ} (hn : (120 - c.used) % 64 ≤ n) :
    (padLoop c).view = Sha1.padZeros n c.view := by
  induction n generalizing c with
  | zero =>
    have hlt := c.used_lt
    rw [padLoop, if_pos (by omega)]
    rfl
  | succ n ih =>
    rw [padLoop]
    unfold Sha1.padZeros
    rw [length_view]
    split_ifs with hroom
    · rfl
    · have hlt := c.used_lt
      have hone := update_used c 0
      rw [ih (c.update [0]) (by rw [hone]; split_ifs <;> omega), update_view]
      rfl

theorem lengthBytes_eq (bits : UInt64) :
    (List.range 8).map (fun i => (bits >>> UInt64.ofNat (8 * (7 - i))).toUInt8) =
      Sha1.Fips.bigEndian 8 bits.toNat := by
  unfold Sha1.Fips.bigEndian
  apply List.map_congr_left
  intro i _
  have hshift : (UInt64.ofNat (8 * (7 - i))).toNat % 64 = 8 * (7 - i) := by
    rw [UInt64.toNat_ofNat']
    omega
  apply UInt8.toNat_inj.1
  rw [UInt64.toNat_toUInt8, UInt64.toNat_shiftRight, hshift, UInt8.toNat_ofNat',
    Nat.shiftRight_eq_div_pow, Nat.pow_mul]

theorem final_view (c : Sha1Ctx) : c.final = c.view.final := by
  have hpad : (padLoop (c.update [0x80])).view = Sha1.padZeros 64 (c.view.byte 0x80) := by
    have hgap : (120 - (c.update [0x80]).used) % 64 ≤ 64 := by omega
    rw [padLoop_view _ hgap, update_view]
    rfl
  have hlength : (List.range 8).map
        (fun i => ((c.bytes * 8) >>> UInt64.ofNat (8 * (7 - i))).toUInt8) =
      Sha1.bigEndian ((c.bytes * 8) >>> 32).toUInt32 ++ Sha1.bigEndian (c.bytes * 8).toUInt32 := by
    rw [lengthBytes_eq, Sha1.bigEndian_halves]
  unfold final Sha1.final
  dsimp only
  rw [hlength, ← hpad, show c.view.bytes = c.bytes from rfl, ← update_view]
  rfl

/-- However a text is cut for the updates and whatever the block held, the digest is the standard's
of the whole text, and the file name is that of the text. -/
theorem digest_pieces (block : Vector UInt8 64) (pieces : List Bytes) :
    (pieces.foldl update (init block)).final = Sha1.Fips.digest pieces.flatten ∧
      hexText (pieces.foldl update (init block)).final = sha1Hex pieces.flatten := by
  have hview : (pieces.foldl update (init block)).view = Sha1.init.update pieces.flatten := by
    induction pieces using List.reverseRecOn with
    | nil => rfl
    | append_singleton pieces p ih =>
      rw [List.foldl_append, List.foldl_cons, List.foldl_nil, update_view, ih,
        ← Sha1.update_append, List.flatten_append, List.flatten_singleton]
  have hfinal : (pieces.foldl update (init block)).final =
      (Sha1.init.update pieces.flatten).final := by
    rw [final_view, hview]
  refine ⟨?_, by rw [hfinal]; rfl⟩
  rw [hfinal]
  exact Sha1.final_eq (Sha1.represents_init.update pieces.flatten)

end Sha1Ctx

end Ds4
