import Ds4.Bytes.Ascii

/-! SHA-1 of a byte string, as the cache names its files. -/
namespace Ds4

def rol32 (v n : UInt32) : UInt32 := (v <<< n) ||| (v >>> (32 - n))

/-- `sha1_ctx`; `block` holds the bytes of the block that are used. -/
structure Sha1 where
  h : List UInt32
  bytes : UInt64
  block : Bytes

namespace Sha1

def init : Sha1 := ⟨[0x67452301, 0xefcdab89, 0x98badcfe, 0x10325476, 0xc3d2e1f0], 0, []⟩

def word (block : Bytes) (i : ℕ) : UInt32 :=
  ((block.getD (i * 4) 0).toUInt32 <<< 24) ||| ((block.getD (i * 4 + 1) 0).toUInt32 <<< 16) |||
    ((block.getD (i * 4 + 2) 0).toUInt32 <<< 8) ||| (block.getD (i * 4 + 3) 0).toUInt32

/-- The words behind the first 16. -/
def schedule : ℕ → List UInt32 → List UInt32
  | 0, w => w
  | n + 1, w =>
      let i := w.length
      schedule n (w ++ [rol32 (w.getD (i - 3) 0 ^^^ w.getD (i - 8) 0 ^^^ w.getD (i - 14) 0 ^^^
        w.getD (i - 16) 0) 1])

/-- The five working words. -/
structure Round where
  a : UInt32
  b : UInt32
  c : UInt32
  d : UInt32
  e : UInt32

def round (r : Round) (w : UInt32 × ℕ) : Round :=
  let fk : UInt32 × UInt32 :=
    if w.2 < 20 then ((r.b &&& r.c) ||| (~~~r.b &&& r.d), 0x5a827999)
    else if w.2 < 40 then (r.b ^^^ r.c ^^^ r.d, 0x6ed9eba1)
    else if w.2 < 60 then ((r.b &&& r.c) ||| (r.b &&& r.d) ||| (r.c &&& r.d), 0x8f1bbcdc)
    else (r.b ^^^ r.c ^^^ r.d, 0xca62c1d6)
  ⟨rol32 r.a 5 + fk.1 + r.e + fk.2 + w.1, r.a, rol32 r.b 30, r.c, r.d⟩

/-- `sha1_transform`. -/
def transform (h : List UInt32) (block : Bytes) : List UInt32 :=
  let w := schedule 64 ((List.range 16).map (word block))
  let r := w.zipIdx.foldl round ⟨h.getD 0 0, h.getD 1 0, h.getD 2 0, h.getD 3 0, h.getD 4 0⟩
  [h.getD 0 0 + r.a, h.getD 1 0 + r.b, h.getD 2 0 + r.c, h.getD 3 0 + r.d, h.getD 4 0 + r.e]

/-- `sha1_update`, one byte. -/
def byte (ctx : Sha1) (x : UInt8) : Sha1 :=
  let block := ctx.block ++ [x]
  if block.length = 64 then ⟨transform ctx.h block, ctx.bytes + 1, []⟩
  else ⟨ctx.h, ctx.bytes + 1, block⟩

def update (ctx : Sha1) (s : Bytes) : Sha1 := s.foldl byte ctx

/-- The zeros up to the length, for at most `n` bytes. -/
def padZeros : ℕ → Sha1 → Sha1
  | 0, ctx => ctx
  | n + 1, ctx => if ctx.block.length = 56 then ctx else padZeros n (ctx.byte 0)

def bigEndian (v : UInt32) : Bytes :=
  [(v >>> 24).toUInt8, (v >>> 16).toUInt8, (v >>> 8).toUInt8, v.toUInt8]

/-- `sha1_final`. -/
def final (ctx : Sha1) : Bytes :=
  let bits := ctx.bytes * 8
  let padded := padZeros 64 (ctx.byte 0x80)
  let len := bigEndian (bits >>> 32).toUInt32 ++ bigEndian bits.toUInt32
  let h := (padded.update len).h
  (List.range 5).flatMap fun i => bigEndian (h.getD i 0)

end Sha1

def hexDigits : Bytes := lit "0123456789abcdef"

/-- `hex20`. -/
def hexText (s : Bytes) : Bytes :=
  s.flatMap fun c : UInt8 => [hexDigits.getD (c >>> 4).toNat 0, hexDigits.getD (c &&& 15).toNat 0]

/-- `sha1_bytes_hex`. -/
def sha1Hex (s : Bytes) : Bytes := hexText (Sha1.init.update s).final

theorem hexText_mem (s : Bytes) : ∀ c ∈ hexText s, c ∈ hexDigits := by
  have hdigits : ∀ c : UInt8, hexDigits.getD (c >>> 4).toNat 0 ∈ hexDigits ∧
      hexDigits.getD (c &&& 15).toNat 0 ∈ hexDigits := by
    decide +kernel
  intro c hc
  obtain ⟨x, -, hx⟩ := List.mem_flatMap.1 hc
  obtain ⟨hhigh, hlow⟩ := hdigits x
  rcases List.mem_cons.1 hx with rfl | hx
  · exact hhigh
  · exact List.mem_singleton.1 hx ▸ hlow

theorem length_hexText (s : Bytes) : (hexText s).length = 2 * s.length := by
  induction s with
  | nil => rfl
  | cons c s ih =>
    unfold hexText at ih ⊢
    rw [List.flatMap_cons, List.length_append, ih, List.length_cons]
    simp only [List.length_cons, List.length_nil]
    omega

theorem length_sha1Hex (s : Bytes) : (sha1Hex s).length = 40 := by
  unfold sha1Hex
  rw [length_hexText]
  rfl

example : sha1Hex (lit "abc") = lit "a9993e364706816aba3e25717850c26c9cd0d89d" := by
  decide +kernel

end Ds4
