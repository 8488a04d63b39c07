import Ds4.Parts.Pattern
import Ds4.Tokenizer.Scanner

/-! The documented split of the pre-tokenizer, on characters: three patterns one after the
other, each applied to the parts that the ones before it left. -/
namespace Ds4.Tokenizer
open Parts

/-- A character of a text: printable ASCII, whitespace, or beyond ASCII a letter. -/
structure TextChar where
  cp : ℕ
  ok : (32 ≤ cp ∧ cp ≤ 126) ∨ (9 ≤ cp ∧ cp ≤ 13) ∨ (128 ≤ cp ∧ cp < 0x110000)
  deriving DecidableEq

namespace TextChar
variable (x : TextChar)

def isNumber : Bool := 48 ≤ x.cp && x.cp ≤ 57

def isCjk : Bool := utf8IsCjkHiraKata x.cp

def isAlpha : Bool := (65 ≤ x.cp && x.cp ≤ 90) || (97 ≤ x.cp && x.cp ≤ 122)

/-- A letter or a mark; the characters beyond ASCII are such. -/
def isLetter : Bool := x.isAlpha || 128 ≤ x.cp

/-- Punctuation or a symbol. -/
def isPunct : Bool :=
  (33 ≤ x.cp && x.cp ≤ 47) || (58 ≤ x.cp && x.cp ≤ 64) || (91 ≤ x.cp && x.cp ≤ 96) ||
    (123 ≤ x.cp && x.cp ≤ 126)

def isWhite : Bool := x.cp == 32 || (9 ≤ x.cp && x.cp ≤ 13)

def isNewline : Bool := x.cp == 10 || x.cp == 13

def isBlank : Bool := x.cp == 32

end TextChar

open TextChar

abbrev Text := List TextChar

/-- `\p{N}{1,3}`. -/
def numbers : Pattern TextChar := .seq (.one isNumber) (.upTo 2 isNumber)

/-- `[CJK/Hiragana/Katakana]+`. -/
def cjkRun : Pattern TextChar := .plus isCjk

/-- `[P/S][A-Za-z]+`. -/
def punctLetters : Pattern TextChar := .seq (.one isPunct) (.plus isAlpha)

/-- `[^\r\n\p{L}\p{P}\p{S}]?[\p{L}\p{M}]+`. -/
def leadLetters : Pattern TextChar :=
  .seq (.opt fun x => !x.isNewline && !x.isLetter && !x.isPunct) (.plus isLetter)

/-- ` ?[\p{P}\p{S}]+[\r\n]*`. -/
def punctNewlines : Pattern TextChar :=
  .seq (.opt isBlank) (.seq (.plus isPunct) (.many isNewline))

/-- `\s*[\r\n]+`. -/
def whiteNewlines : Pattern TextChar := .seq (.many isWhite) (.plus isNewline)

/-- `\s+(?!\S)`. -/
def whiteNotAhead : Pattern TextChar := .seq (.plus isWhite) (.notAhead fun x => !x.isWhite)

/-- The alternatives of the third pattern, in their order. -/
def words : Pattern TextChar :=
  .alt punctLetters (.alt leadLetters (.alt punctNewlines
    (.alt whiteNewlines (.alt whiteNotAhead (.plus isWhite)))))

/-- Digits and CJK runs are isolated first; the alternatives see one part at a time. -/
def documentedSplit (s : Text) : List Text :=
  ((split numbers.matchLength s).flatMap (split cjkRun.matchLength)).flatMap
    (split words.matchLength)

/-- The UTF-8 bytes of a text. -/
def encode (s : Text) : Bytes := s.flatMap fun x => utf8Put x.cp

end Ds4.Tokenizer
