import Ds4.Bytes.Ascii
import Ds4.Parts.Cut
import Mathlib.Tactic.NormNum

/-! The pre-tokenizer of `bpe_tokenize_text`. A text is the rest of a C string up to its
terminator, and each routine returns how many bytes of it it consumes. -/
namespace Ds4.Tokenizer
open Parts

def utf8LenFromFirstByte (c : UInt8) : ℕ :=
  if c < 0x80 then 1
  else if c &&& 0xe0 = 0xc0 then 2
  else if c &&& 0xf0 = 0xe0 then 3
  else if c &&& 0xf8 = 0xf0 then 4
  else 1

/-- The byte at an offset; behind the text stands the terminator. -/
def byteAt (s : Bytes) (i : ℕ) : UInt8 := s.getD i 0

def nextUtf8Char (s : Bytes) : ℕ :=
  let n := utf8LenFromFirstByte (byteAt s 0)
  if s.length < n then 1 else n

def asciiAlpha (c : UInt8) : Bool := (65 ≤ c && c ≤ 90) || (97 ≤ c && c ≤ 122)

def asciiDigit (c : UInt8) : Bool := 48 ≤ c && c ≤ 57

def asciiSpace (c : UInt8) : Bool :=
  c == 32 || c == 9 || c == 10 || c == 13 || c == 11 || c == 12

def asciiNewline (c : UInt8) : Bool := c == 10 || c == 13

def joyaiAsciiPunctSymbol (c : UInt8) : Bool :=
  (33 ≤ c && c ≤ 47) || (58 ≤ c && c ≤ 64) || (91 ≤ c && c ≤ 96) || (123 ≤ c && c ≤ 126)

def utf8IsCjkHiraKata (cp : ℕ) : Bool :=
  (0x4e00 ≤ cp && cp ≤ 0x9fa5) || (0x3040 ≤ cp && cp ≤ 0x309f) || (0x30a0 ≤ cp && cp ≤ 0x30ff)

def utf8PeekOne (s : Bytes) : ℕ :=
  let c := byteAt s 0
  let n := nextUtf8Char s
  if n = 1 then c.toNat
  else if n = 2 then (c &&& 0x1f).toNat <<< 6 ||| (byteAt s 1 &&& 0x3f).toNat
  else if n = 3 then
    (c &&& 0x0f).toNat <<< 12 ||| (byteAt s 1 &&& 0x3f).toNat <<< 6 |||
      (byteAt s 2 &&& 0x3f).toNat
  else
    (c &&& 0x07).toNat <<< 18 ||| (byteAt s 1 &&& 0x3f).toNat <<< 12 |||
      (byteAt s 2 &&& 0x3f).toNat <<< 6 ||| (byteAt s 3 &&& 0x3f).toNat

/-- Every byte beyond ASCII counts as a letter. -/
def joyaiLetterLikeAt (s : Bytes) : Bool :=
  if byteAt s 0 < 128 then asciiAlpha (byteAt s 0) else true

def joyaiCjkAt (s : Bytes) : Bool :=
  if byteAt s 0 < 128 then false else utf8IsCjkHiraKata (utf8PeekOne s)

/-- Character by character over the text while `p` holds, for at most `n` characters. -/
def skipWhile (p : Bytes → Bool) : ℕ → Bytes → ℕ
  | 0, _ => 0
  | n + 1, s =>
      if s ≠ [] ∧ p s = true then
        nextUtf8Char s + skipWhile p n (s.drop (nextUtf8Char s))
      else 0

def joyaiConsumeLetters (s : Bytes) : ℕ := skipWhile joyaiLetterLikeAt s.length s

/-- The loop over a CJK run, whose first character is already seen to be one. -/
def consumeCjk (s : Bytes) : ℕ :=
  let n := nextUtf8Char s
  n + skipWhile joyaiCjkAt s.length (s.drop n)

def runLength (p : UInt8 → Bool) (s : Bytes) : ℕ := (s.takeWhile p).length

/-- Punctuation and the newlines behind it. -/
def punctRun (s : Bytes) : ℕ :=
  let n := runLength joyaiAsciiPunctSymbol s
  n + runLength asciiNewline (s.drop n)

/-- The end of the whitespace and the end of its last newline, which is 0 without one. -/
def spaceScan : Bytes → ℕ → ℕ → ℕ × ℕ
  | [], p, last => (p, last)
  | c :: s, p, last =>
      if asciiSpace c then spaceScan s (p + 1) (if asciiNewline c then p + 1 else last)
      else (p, last)

def spaceRun (s : Bytes) : ℕ :=
  let (p, lastNewlineEnd) := spaceScan s 0 0
  if lastNewlineEnd ≠ 0 then lastNewlineEnd
  else if p < s.length ∧ 1 < p ∧
      (joyaiLetterLikeAt (s.drop p) = true ∨ joyaiAsciiPunctSymbol (byteAt s p) = true) then
    p - 1
  else p

/-- One round of the loop, before its last resort. -/
def scanPiece (s : Bytes) : ℕ :=
  let c := byteAt s 0
  if asciiDigit c then ((s.take 3).takeWhile asciiDigit).length
  else if joyaiCjkAt s then consumeCjk s
  else if joyaiAsciiPunctSymbol c ∧ 1 < s.length ∧ asciiAlpha (byteAt s 1) then
    1 + runLength asciiAlpha (s.drop 1)
  else if joyaiLetterLikeAt s then joyaiConsumeLetters s
  else if asciiNewline c = false ∧ joyaiAsciiPunctSymbol c = false ∧ 1 < s.length ∧
      joyaiLetterLikeAt (s.drop 1) then
    1 + joyaiConsumeLetters (s.drop 1)
  else if c = 32 ∧ 1 < s.length ∧ joyaiAsciiPunctSymbol (byteAt s 1) then
    1 + punctRun (s.drop 1)
  else if joyaiAsciiPunctSymbol c then punctRun s
  else if asciiSpace c then spaceRun s
  else nextUtf8Char s

def pieceLength (s : Bytes) : ℕ := if scanPiece s = 0 then nextUtf8Char s else scanPiece s

/-- The pieces that `bpe_tokenize_text` hands to `bpe_emit_piece`. -/
def textPieces (s : Bytes) : List Bytes := cut pieceLength s

theorem nextUtf8Char_pos (s : Bytes) : 0 < nextUtf8Char s := by
  simp only [nextUtf8Char, utf8LenFromFirstByte]
  split_ifs <;> norm_num

theorem pieceLength_pos (s : Bytes) : 0 < pieceLength s := by
  simp only [pieceLength]
  split
  · exact nextUtf8Char_pos s
  · omega

theorem textPieces_flatten (s : Bytes) : (textPieces s).flatten = s :=
  cut_flatten (fun _ _ => pieceLength_pos _) s.length s le_rfl

end Ds4.Tokenizer
