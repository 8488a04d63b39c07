import Ds4.Bytes.Sha1
import Ds4.Parts.Blocks
import Mathlib.Data.List.GetD
import Mathlib.Tactic.NormNum

/-! SHA-1 as FIPS 180 defines it, and the digest of the source as that function. -/
namespace Ds4.Sha1
open Parts

/-! The definitions of the standard, over bytes. -/
namespace Fips

def rotl (n x : UInt32) : UInt32 := (x <<< n) ||| (x >>> (32 - n))

def ch (x y z : UInt32) : UInt32 := (x &&& y) ^^^ (~~~x &&& z)

def parity (x y z : UInt32) : UInt32 := x ^^^ y ^^^ z

def maj (x y z : UInt32) : UInt32 := (x &&& y) ^^^ (x &&& z) ^^^ (y &&& z)

def f (t : ℕ) : UInt32 → UInt32 → UInt32 → UInt32 :=
  if t < 20 then ch else if t < 40 then parity else if t < 60 then maj else parity

def k (t : ℕ) : UInt32 :=
  if t < 20 then 0x5a827999 else if t < 40 then 0x6ed9eba1 else if t < 60 then 0x8f1bbcdc
  else 0xca62c1d6

/-- The word of a block with the index, most significant byte first. -/
def message (block : Bytes) (i : ℕ) : UInt32 :=
  UInt32.ofNat (((block.getD (4 * i) 0).toNat * 256 + (block.getD (4 * i + 1) 0).toNat) * 65536 +
    (block.getD (4 * i + 2) 0).toNat * 256 + (block.getD (4 * i + 3) 0).toNat)

/-- The message schedule. -/
def w (block : Bytes) (t : ℕ) : UInt32 :=
  if t < 16 then message block t
  else rotl 1 (w block (t - 3) ^^^ w block (t - 8) ^^^ w block (t - 14) ^^^ w block (t - 16))
termination_by t

/-- One of the 80 rounds on the working variables. -/
def round (block : Bytes) (r : Round) (t : ℕ) : Round :=
  ⟨rotl 5 r.a + f t r.b r.c r.d + r.e + k t + w block t, r.a, rotl 30 r.b, r.c, r.d⟩

/-- The hash value behind one block. -/
def compress (h : Round) (block : Bytes) : Round :=
  let r := (List.range 80).foldl (round block) h
  ⟨r.a + h.a, r.b + h.b, r.c + h.c, r.d + h.d, r.e + h.e⟩

def h0 : Round := ⟨0x67452301, 0xefcdab89, 0x98badcfe, 0x10325476, 0xc3d2e1f0⟩

/-- A number in bytes, most significant first. -/
def bigEndian (bytes v : ℕ) : Bytes :=
  (List.range bytes).map fun i => UInt8.ofNat (v / 256 ^ (bytes - 1 - i))

/-- The zero bytes behind the one bit and its seven zeros. -/
def zeros (len : ℕ) : ℕ := (119 - len % 64) % 64

/-- The padded message; the last 64 bits are the length in bits. -/
def pad (s : Bytes) : Bytes :=
  s ++ 0x80 :: (List.replicate (zeros s.length) 0 ++ bigEndian 8 (8 * s.length))

def digest (s : Bytes) : Bytes :=
  let h := foldBlocks compress 64 h0 (pad s)
  [h.a, h.b, h.c, h.d, h.e].flatMap fun v => bigEndian 4 v.toNat

/-- The least number of zero bytes that leaves the last 64 bits of a block for the length. -/
theorem zeros_least (len : ℕ) : IsLeast {n | (len + 1 + n) % 64 = 56} (zeros len) := by
  constructor
  · show (len + 1 + (119 - len % 64) % 64) % 64 = 56
    omega
  · intro n hn
    have hn : (len + 1 + n) % 64 = 56 := hn
    unfold zeros
    omega

theorem length_bigEndian (bytes v : ℕ) : (bigEndian bytes v).length = bytes := by
  unfold bigEndian
  rw [List.length_map, List.length_range]

/-- The padded message is whole blocks. -/
theorem length_pad_mod (s : Bytes) : (pad s).length % 64 = 0 := by
  unfold pad
  rw [List.length_append, List.length_cons, List.length_append, List.length_replicate,
    length_bigEndian]
  unfold zeros
  omega

end Fips

/-! One block. -/
section Compress
variable {block : Bytes}

theorem ch_eq (x y z : UInt32) : (x &&& y) ||| (~~~x &&& z) = Fips.ch x y z := by
  unfold Fips.ch
  apply UInt32.toBitVec_inj.1
  ext i hi
  simp only [UInt32.toBitVec_or, UInt32.toBitVec_and, UInt32.toBitVec_not, UInt32.toBitVec_xor,
    BitVec.getElem_or, BitVec.getElem_and, BitVec.getElem_not, BitVec.getElem_xor]
  cases x.toBitVec[i] <;> simp

theorem maj_eq (x y z : UInt32) :
    (x &&& y) ||| (x &&& z) ||| (y &&& z) = Fips.maj x y z := by
  unfold Fips.maj
  apply UInt32.toBitVec_inj.1
  ext i hi
  simp only [UInt32.toBitVec_or, UInt32.toBitVec_and, UInt32.toBitVec_xor, BitVec.getElem_or,
    BitVec.getElem_and, BitVec.getElem_xor]
  cases x.toBitVec[i] <;> cases y.toBitVec[i] <;> simp

/-- A round of the source is a round of the standard. -/
theorem round_eq (r : Round) (t : ℕ) : round r (Fips.w block t, t) = Fips.round block r t := by
  unfold round Fips.round Fips.f Fips.k
  dsimp only
  split_ifs with h20 h40 h60
  · rw [ch_eq]
    rfl
  · rfl
  · rw [maj_eq]
    rfl
  · rfl

private theorem or_word (a : ℕ) {b c d : ℕ} (hb : b < 256) (hc : c < 256) (hd : d < 256) :
    a <<< 24 ||| b <<< 16 ||| c <<< 8 ||| d = (a * 256 + b) * 65536 + c * 256 + d := by
  rw [Nat.or_assoc, Nat.or_assoc, ← Nat.shiftLeft_add_eq_or_of_lt (i := 8) hd c,
    ← Nat.shiftLeft_add_eq_or_of_lt (i := 16) (by simp [Nat.shiftLeft_eq]; omega) b,
    ← Nat.shiftLeft_add_eq_or_of_lt (i := 24) (by simp [Nat.shiftLeft_eq]; omega) a]
  simp only [Nat.shiftLeft_eq]
  omega

theorem word_eq (i : ℕ) : word block i = Fips.message block i := by
  unfold word Fips.message
  rw [Nat.mul_comm i 4]
  generalize block.getD (4 * i) 0 = a
  generalize block.getD (4 * i + 1) 0 = b
  generalize block.getD (4 * i + 2) 0 = c
  generalize block.getD (4 * i + 3) 0 = d
  have ha := a.toNat_lt
  have hb := b.toNat_lt
  have hc := c.toNat_lt
  have hd := d.toNat_lt
  have hor := or_word a.toNat hb hc hd
  apply UInt32.toNat_inj.1
  rw [UInt32.toNat_ofNat', Nat.mod_eq_of_lt (by omega), ← hor]
  simp only [UInt32.toNat_or, UInt32.toNat_shiftLeft, UInt8.toNat_toUInt32, Nat.shiftLeft_eq,
    UInt32.reduceToNat, Nat.reduceMod]
  rw [Nat.mod_eq_of_lt (by omega), Nat.mod_eq_of_lt (by omega), Nat.mod_eq_of_lt (by omega)]

theorem w_lt {t : ℕ} (ht : t < 16) : Fips.w block t = word block t := by
  rw [Fips.w, if_pos ht, word_eq]

theorem w_ge {t : ℕ} (ht : ¬ t < 16) : Fips.w block t =
    rol32 (Fips.w block (t - 3) ^^^ Fips.w block (t - 8) ^^^ Fips.w block (t - 14) ^^^
      Fips.w block (t - 16)) 1 := by
  rw [Fips.w, if_neg ht]
  rfl

theorem getD_w {m i : ℕ} (hi : i < m) :
    ((List.range m).map (Fips.w block)).getD i 0 = Fips.w block i := by
  rw [List.getD_eq_getElem _ _ (by simpa using hi), List.getElem_map, List.getElem_range]

/-- The words that are computed so far are those of the standard. -/
theorem schedule_eq (n : ℕ) {m : ℕ} (hm : 16 ≤ m) :
    schedule n ((List.range m).map (Fips.w block)) = (List.range (m + n)).map (Fips.w block) := by
  induction n generalizing m with
  | zero => rfl
  | succ n ih =>
    have hnext : (List.range m).map (Fips.w block) ++ [Fips.w block m] =
        (List.range (m + 1)).map (Fips.w block) := by
      rw [List.range_succ, List.map_append, List.map_singleton]
    rw [schedule, List.length_map, List.length_range, getD_w (by omega), getD_w (by omega),
      getD_w (by omega), getD_w (by omega), ← w_ge (by omega), hnext, ih (by omega),
      Nat.add_assoc, Nat.add_comm 1 n]

/-- The five words of a hash value. -/
def words (h : Round) : List UInt32 := [h.a, h.b, h.c, h.d, h.e]

theorem transform_eq (h : Round) (block : Bytes) :
    transform (words h) block = words (Fips.compress h block) := by
  have hfirst : (List.range 16).map (word block) = (List.range 16).map (Fips.w block) := by
    apply List.map_congr_left
    intro t ht
    exact (w_lt (List.mem_range.1 ht)).symm
  have hindexed : ((List.range 80).map (Fips.w block)).zipIdx =
      (List.range 80).map fun t => (Fips.w block t, t) := by
    apply List.ext_getElem
    · simp
    · intro i hi hi'
      simp
  have hrounds : ((List.range 80).map fun t => (Fips.w block t, t)).foldl round h =
      (List.range 80).foldl (Fips.round block) h := by
    rw [List.foldl_map]
    apply List.foldl_ext
    intro r t _
    exact round_eq r t
  have hschedule : schedule 64 ((List.range 16).map (word block)) =
      (List.range 80).map (Fips.w block) := by
    rw [hfirst, schedule_eq 64 (le_refl 16)]
  have hstart : (⟨(words h).getD 0 0, (words h).getD 1 0, (words h).getD 2 0, (words h).getD 3 0,
      (words h).getD 4 0⟩ : Round) = h := rfl
  unfold transform Fips.compress
  rw [hschedule]
  dsimp only
  rw [hindexed, hstart, hrounds]
  generalize (List.range 80).foldl (Fips.round block) h = r
  unfold words
  dsimp only
  rw [UInt32.add_comm r.a, UInt32.add_comm r.b, UInt32.add_comm r.c, UInt32.add_comm r.d,
    UInt32.add_comm r.e]
  rfl

end Compress

/-! The digest of a text that is read byte by byte. -/
section Digest
variable {ctx : Sha1} {s p : Bytes}

/-- What the context holds behind a text. -/
structure Represents (ctx : Sha1) (s : Bytes) : Prop where
  h : ctx.h = foldBlocks transform 64 init.h s
  bytes : ctx.bytes = UInt64.ofNat s.length
  block : ctx.block = unblocked 64 s

theorem represents_init : Represents init [] where
  h := (foldBlocks_nil transform).symm
  bytes := rfl
  block := unblocked_nil.symm

theorem Represents.byte (hctx : Represents ctx s) (x : UInt8) :
    Represents (ctx.byte x) (s ++ [x]) := by
  have hlt : (unblocked 64 s).length < 64 := by
    rw [length_unblocked]
    exact Nat.mod_lt _ (by norm_num)
  have hbytes : ctx.bytes + 1 = UInt64.ofNat (s ++ [x]).length := by
    rw [hctx.bytes, List.length_append, UInt64.ofNat_add]
    rfl
  have hone : (unblocked 64 s).length + [x].length = (ctx.block ++ [x]).length := by
    rw [hctx.block, List.length_append]
  unfold Sha1.byte
  dsimp only
  split_ifs with hfull
  · obtain ⟨hfold, hrest⟩ := blocks_append_full transform init.h (by norm_num) (hone.trans hfull)
    exact ⟨by rw [hfold, hctx.h, hctx.block], hbytes, hrest.symm⟩
  · have hshort : (unblocked 64 s).length + [x].length < 64 := by
      rw [List.length_singleton] at hone ⊢
      omega
    obtain ⟨hfold, hrest⟩ := blocks_append_short transform init.h hshort
    exact ⟨by rw [hfold, hctx.h], hbytes, by rw [hrest, hctx.block]⟩

theorem Represents.update (hctx : Represents ctx s) (p : Bytes) :
    Represents (ctx.update p) (s ++ p) := by
  induction p generalizing ctx s with
  | nil =>
    rw [List.append_nil]
    exact hctx
  | cons x p ih =>
    have hrest := ih (hctx.byte x)
    rwa [List.append_assoc] at hrest

theorem Represents.length_block (hctx : Represents ctx s) : ctx.block.length = s.length % 64 := by
  rw [hctx.block, length_unblocked]

/-- The zeros that are written are the least number that leaves room for the length. -/
theorem Represents.padZeros {n : ℕ} (hctx : Represents ctx s)
    (hn : (120 - s.length % 64) % 64 ≤ n) :
    Represents (padZeros n ctx) (s ++ List.replicate ((120 - s.length % 64) % 64) 0) := by
  induction n generalizing ctx s with
  | zero =>
    have hnone : (120 - s.length % 64) % 64 = 0 := by omega
    rw [hnone, List.replicate_zero, List.append_nil]
    exact hctx
  | succ n ih =>
    unfold Sha1.padZeros
    rw [hctx.length_block]
    split_ifs with hroom
    · have hnone : (120 - s.length % 64) % 64 = 0 := by omega
      rw [hnone, List.replicate_zero, List.append_nil]
      exact hctx
    · have hless : (120 - (s ++ [0]).length % 64) % 64 + 1 = (120 - s.length % 64) % 64 := by
        rw [List.length_append, List.length_singleton]
        omega
      have hrest := ih (hctx.byte 0) (by omega)
      rwa [List.append_assoc, List.singleton_append, ← List.replicate_succ, hless] at hrest

private theorem fips_four (v : ℕ) : Fips.bigEndian 4 v =
    [UInt8.ofNat (v / 256 ^ 3), UInt8.ofNat (v / 256 ^ 2), UInt8.ofNat (v / 256),
      UInt8.ofNat v] := by
  simp [Fips.bigEndian, List.range_succ]

theorem bigEndian_eq (v : UInt32) : bigEndian v = Fips.bigEndian 4 v.toNat := by
  rw [fips_four]
  unfold bigEndian
  have hbyte : ∀ k : UInt32, k < 32 →
      (v >>> k).toUInt8 = UInt8.ofNat (v.toNat / 2 ^ k.toNat) := by
    intro k hk
    apply UInt8.toNat_inj.1
    rw [UInt32.toNat_toUInt8, UInt32.toNat_shiftRight, UInt8.toNat_ofNat',
      Nat.shiftRight_eq_div_pow, Nat.mod_eq_of_lt (show k.toNat < 32 from hk)]
  rw [hbyte 24 (by decide), hbyte 16 (by decide), hbyte 8 (by decide)]
  rfl

theorem bigEndian_append (m n v : ℕ) :
    Fips.bigEndian (m + n) v = Fips.bigEndian m (v / 256 ^ n) ++ Fips.bigEndian n v := by
  unfold Fips.bigEndian
  rw [List.range_add, List.map_append, List.map_map]
  congr 1
  · apply List.map_congr_left
    intro i hi
    have hi := List.mem_range.1 hi
    rw [Nat.div_div_eq_div_mul, ← pow_add]
    congr 3
    omega
  · apply List.map_congr_left
    intro i hi
    dsimp only [Function.comp]
    congr 3
    omega

theorem bigEndian_mod (n v : ℕ) : Fips.bigEndian n (v % 256 ^ n) = Fips.bigEndian n v := by
  unfold Fips.bigEndian
  apply List.map_congr_left
  intro i hi
  have hi := List.mem_range.1 hi
  apply UInt8.toNat_inj.1
  rw [UInt8.toNat_ofNat', UInt8.toNat_ofNat']
  have hpow : (256 : ℕ) ^ n = 256 ^ (n - 1 - i) * 256 * 256 ^ i := by
    rw [← pow_succ, ← pow_add]
    congr 1
    omega
  rw [hpow, Nat.mul_assoc, Nat.mod_mul_right_div_self, Nat.mod_mul_right_mod]

theorem bigEndian_halves (bits : UInt64) :
    bigEndian (bits >>> 32).toUInt32 ++ bigEndian bits.toUInt32 =
      Fips.bigEndian 8 bits.toNat := by
  have hword : (2 : ℕ) ^ 32 = 256 ^ 4 := by norm_num
  have hhigh : (bits >>> 32).toNat = bits.toNat / 256 ^ 4 := by
    have hshift : (32 : UInt64).toNat % 64 = 32 := rfl
    rw [UInt64.toNat_shiftRight, hshift, Nat.shiftRight_eq_div_pow, hword]
  rw [bigEndian_eq, bigEndian_eq, UInt64.toNat_toUInt32, UInt64.toNat_toUInt32, hhigh, hword,
    bigEndian_mod, bigEndian_mod, ← bigEndian_append 4 4]

/-- The counted bytes give the length in bits as far as 64 bits hold it. -/
theorem bigEndian_bits (len : ℕ) :
    Fips.bigEndian 8 (UInt64.ofNat len * 8).toNat = Fips.bigEndian 8 (8 * len) := by
  have hbits : (UInt64.ofNat len * 8).toNat = 8 * len % 256 ^ 8 := by
    have height : (8 : UInt64).toNat = 8 := rfl
    rw [UInt64.toNat_mul, UInt64.toNat_ofNat', height]
    omega
  rw [hbits, bigEndian_mod]

theorem foldBlocks_words (s : Bytes) :
    foldBlocks transform 64 init.h s = words (foldBlocks Fips.compress 64 Fips.h0 s) := by
  unfold foldBlocks
  have hinit : init.h = words Fips.h0 := rfl
  rw [hinit]
  apply List.foldl_hom
  intro h i
  exact transform_eq h _

/-- The source's digest of a text is the standard's. -/
theorem final_eq (hctx : Represents ctx s) : ctx.final = Fips.digest s := by
  have hzeros := (hctx.byte 0x80).padZeros (n := 64) (by omega)
  have hpad := hzeros.update (Fips.bigEndian 8 (8 * s.length))
  have hnumber : (120 - (s ++ [0x80]).length % 64) % 64 = Fips.zeros s.length := by
    unfold Fips.zeros
    rw [List.length_append, List.length_singleton]
    omega
  have htext : s ++ [0x80] ++ List.replicate (Fips.zeros s.length) 0 ++
      Fips.bigEndian 8 (8 * s.length) = Fips.pad s := by
    unfold Fips.pad
    simp only [List.append_assoc, List.cons_append, List.nil_append]
  rw [hnumber, htext] at hpad
  unfold final
  dsimp only
  rw [hctx.bytes, bigEndian_halves, bigEndian_bits, hpad.h, foldBlocks_words]
  unfold Fips.digest
  dsimp only
  generalize foldBlocks Fips.compress 64 Fips.h0 (Fips.pad s) = h
  simp only [words, bigEndian_eq, List.flatMap_cons, List.flatMap_nil, List.range_succ,
    List.range_zero, List.nil_append, List.cons_append, List.getD_cons_zero, List.getD_cons_succ]

end Digest

end Ds4.Sha1
