import Ds4.Tokenizer.Scanner

/-! Byte-level BPE: from a rendered chat to token ids, and from a token id to its text. -/
namespace Ds4.Tokenizer
open Parts

def gpt2Printable (x : ℕ) : Bool := (33 ≤ x && x ≤ 126) || (161 ≤ x && x ≤ 172) || 174 ≤ x

/-- The loop of `gpt2_byte_to_codepoint`; `n` counts the unprintable bytes before `x`. -/
def byteLoop (b : ℕ) : List ℕ → ℕ → ℕ
  | [], _ => b
  | x :: xs, n =>
      if gpt2Printable x then byteLoop b xs n
      else if x = b then 256 + n else byteLoop b xs (n + 1)

def gpt2ByteToCodepoint (b : UInt8) : ℕ :=
  if gpt2Printable b.toNat then b.toNat else byteLoop b.toNat (List.range 256) 0

def codepointLoop (cp : ℕ) : List ℕ → ℕ → Option UInt8
  | [], _ => none
  | b :: bs, n =>
      if gpt2Printable b then codepointLoop cp bs n
      else if cp = 256 + n then some b.toUInt8 else codepointLoop cp bs (n + 1)

def gpt2CodepointToByte (cp : ℕ) : Option UInt8 :=
  if gpt2Printable cp && cp ≤ 255 then some cp.toUInt8 else codepointLoop cp (List.range 256) 0

/-- The GPT-2 symbol of a byte. -/
def byteSymbol (b : UInt8) : Bytes := utf8Put (gpt2ByteToCodepoint b)

def byteEncode (s : Bytes) : Bytes := s.flatMap byteSymbol

/-- `table_get` on a table filled with the keys in order: a later entry of the same key
overrides the value. -/
def tableGet (keys : List Bytes) (key : Bytes) : Option ℕ :=
  keys.zipIdx.foldl (fun found e => if e.1 = key then some e.2 else found) none

/-- The token strings, the merges in the order of their ranks, and the special tokens. -/
structure Vocab where
  token : List Bytes
  merges : List Bytes
  bosId : ℕ
  eosId : ℕ
  userId : ℕ
  assistantId : ℕ
  thinkStartId : ℕ
  thinkEndId : ℕ
  dsmlId : ℕ
  deriving DecidableEq

/-- `vocab_load` behind the GGUF arrays; a missing special token ends the program. -/
def vocabLoad (tokens merges : List Bytes) : Option Vocab :=
  if 2 ^ 31 - 1 < tokens.length then none
  else do
    let bosId ← tableGet tokens (lit "<｜begin▁of▁sentence｜>")
    let eosId ← tableGet tokens (lit "<｜end▁of▁sentence｜>")
    let userId ← tableGet tokens (lit "<｜User｜>")
    let assistantId ← tableGet tokens (lit "<｜Assistant｜>")
    let thinkStartId ← tableGet tokens (lit "<think>")
    let thinkEndId ← tableGet tokens (lit "</think>")
    let dsmlId ← tableGet tokens (lit "｜DSML｜")
    return ⟨tokens, merges, bosId, eosId, userId, assistantId, thinkStartId, thinkEndId, dsmlId⟩

section Emit
variable (vocab : Vocab)

/-- The rank of a merge, an index converted to a signed 32-bit number; -1 without one. -/
def bpeRank (a b : Bytes) : ℤ :=
  match tableGet vocab.merges (a ++ 32 :: b) with
  | some i => (i : ℤ).bmod (2 ^ 32)
  | none => -1

/-- The scan for the first pair of the best rank. -/
def bestPair : List Bytes → ℕ → Option ℕ → ℤ → Option ℕ
  | a :: b :: rest, i, bestI, bestRank =>
      let rank := bpeRank vocab a b
      if 0 ≤ rank ∧ rank < bestRank then bestPair (b :: rest) (i + 1) (some i) rank
      else bestPair (b :: rest) (i + 1) bestI bestRank
  | _, _, bestI, _ => bestI

def mergeAt : ℕ → List Bytes → List Bytes
  | 0, a :: b :: rest => (a ++ b) :: rest
  | i + 1, a :: rest => a :: mergeAt i rest
  | _, sym => sym

/-- The merge loop, for at most `n` merges. -/
def mergeLoop : ℕ → List Bytes → List Bytes
  | 0, sym => sym
  | n + 1, sym =>
      match bestPair vocab sym 0 none (2 ^ 31 - 1) with
      | none => sym
      | some i => mergeLoop n (mergeAt i sym)

/-- The tokens of one symbol; without one, those of its single bytes that have any. -/
def symbolTokens (sym : Bytes) : List ℕ :=
  match tableGet vocab.token sym with
  | some token => [token]
  | none => sym.filterMap fun b => tableGet vocab.token [b]

def encodedSymbols (encoded : Bytes) : List Bytes := cut nextUtf8Char encoded

def bpeEmitPiece (piece : Bytes) : List ℕ :=
  let sym := encodedSymbols (byteEncode piece)
  (mergeLoop vocab sym.length sym).flatMap (symbolTokens vocab)

def bpeTokenizeText (text : Bytes) : List ℕ := (textPieces text).flatMap (bpeEmitPiece vocab)

def specials : List (Bytes × ℕ) :=
  [(lit "<｜begin▁of▁sentence｜>", vocab.bosId), (lit "<｜end▁of▁sentence｜>", vocab.eosId),
    (lit "<｜User｜>", vocab.userId), (lit "<｜Assistant｜>", vocab.assistantId),
    (lit "<think>", vocab.thinkStartId), (lit "</think>", vocab.thinkEndId),
    (lit "｜DSML｜", vocab.dsmlId)]

/-- The special token at the head of the text, and the length of its marker. -/
def specialTokenAt (p : Bytes) : Option (ℕ × ℕ) :=
  ((specials vocab).find? fun e => e.1.isPrefixOf p).map fun e => (e.2, e.1.length)

def tokenizeSpan (span : Bytes) : List ℕ :=
  if span = [] then [] else bpeTokenizeText vocab span

/-- The loop of `tokenize_rendered_chat_vocab`, for at most `n` steps: `span` is the text
read since the last marker. -/
def renderedLoop : ℕ → Bytes → Bytes → List ℕ
  | 0, span, _ => tokenizeSpan vocab span
  | _ + 1, span, [] => tokenizeSpan vocab span
  | n + 1, span, c :: p =>
      match specialTokenAt vocab (c :: p) with
      | some (token, len) =>
          tokenizeSpan vocab span ++ token :: renderedLoop n [] ((c :: p).drop len)
      | none => renderedLoop n (span ++ [c]) p

/-- `ds4_tokenize_rendered_chat`. -/
def tokenizeRenderedChat (text : Bytes) : List ℕ := renderedLoop vocab text.length [] text

end Emit

/-- A code point and the number of bytes read for it. -/
def utf8DecodeOne (s : Bytes) : ℕ × ℕ :=
  let c := byteAt s 0
  if c < 0x80 ∨ s.length ≤ 1 then (c.toNat, 1)
  else if c &&& 0xe0 = 0xc0 ∧ 1 < s.length then
    ((c &&& 0x1f).toNat <<< 6 ||| (byteAt s 1 &&& 0x3f).toNat, 2)
  else if c &&& 0xf0 = 0xe0 ∧ 2 < s.length then
    ((c &&& 0x0f).toNat <<< 12 ||| (byteAt s 1 &&& 0x3f).toNat <<< 6 |||
      (byteAt s 2 &&& 0x3f).toNat, 3)
  else if c &&& 0xf8 = 0xf0 ∧ 3 < s.length then
    ((c &&& 0x07).toNat <<< 18 ||| (byteAt s 1 &&& 0x3f).toNat <<< 12 |||
      (byteAt s 2 &&& 0x3f).toNat <<< 6 ||| (byteAt s 3 &&& 0x3f).toNat, 4)
  else (c.toNat, 1)

/-- `vocab_token_is_literal_special`: the token holds a fullwidth vertical bar. -/
def isLiteralSpecial : Bytes → Bool
  | [] => false
  | c :: s => [0xef, 0xbd, 0x9c].isPrefixOf (c :: s) || isLiteralSpecial s

/-- The decoding loop of `ds4_token_text`, for at most `n` code points. -/
def decodeLoop : ℕ → Bytes → Bytes
  | 0, _ => []
  | _ + 1, [] => []
  | n + 1, c :: s =>
      let (cp, k) := utf8DecodeOne (c :: s)
      (gpt2CodepointToByte cp).toList ++ decodeLoop n ((c :: s).drop k)

/-- `ds4_token_text`. -/
def tokenText (vocab : Vocab) (token : ℕ) : Bytes :=
  match vocab.token[token]? with
  | none => []
  | some s => if isLiteralSpecial s then s else decodeLoop s.length s

end Ds4.Tokenizer
