import Ds4.KvCache.Lookup
import Ds4.Memory.ToolMap

/-! The store of a checkpoint: an existing file of the same text is kept where it can be used, else
a new one is written. -/
namespace Ds4.KvCache
open Memory

/-- `kv_reason_code`. -/
def kvReasonCode (reason : Bytes) : UInt8 :=
  if reason = lit "cold" then 1
  else if reason = lit "continued" then 2
  else if reason = lit "evict" then 3
  else if reason = lit "shutdown" then 4
  else 0

/-- The live session: its tokens, if it has any, its context, and what a checkpoint of it is
saved as. -/
structure KvSession where
  tokens : Option (List ℕ)
  ctxSize : ℕ
  payload : Bytes
  ctxSize_lt : ctxSize < 2 ^ 31
  tokens_lt : ∀ live ∈ tokens, live.length < 2 ^ 31

/-- What the engine says of itself, and how it writes a token. -/
structure KvEngine where
  quantBits : UInt8
  tokenText : ℕ → Bytes

/-- `render_tokens_text`. -/
def renderTokensText (engine : KvEngine) (tokens : List ℕ) : Bytes :=
  tokens.flatMap engine.tokenText

/-- `tool_memory_count_dsml_in_text`. -/
def countDsmlInText (m : ToolMemory) (text : Bytes) : ℕ :=
  ((toolBlocks text).map fun t =>
    match m.findBlock t with
    | some b => (m.block b).refs
    | none => 0).sum

/-- `kv_cache_file_size_bytes`. -/
def kvFileSizeBytes (textBytes payloadBytes toolMapBytes : ℕ) : Option ℕ :=
  let fixed := kvFixedHeader + 4
  if maxU64 - fixed < textBytes ∨ maxU64 - fixed - textBytes < payloadBytes ∨
      maxU64 - fixed - textBytes - payloadBytes < toolMapBytes then none
  else some (fixed + textBytes + payloadBytes + toolMapBytes)

/-- `kv_cache_budget_required`: one percent more, rounded up. -/
def kvBudgetRequired (fileBytes : ℕ) : Option ℕ :=
  let slack := fileBytes / 100 + if fileBytes % 100 = 0 then 0 else 1
  if maxU64 - fileBytes < slack then none else some (fileBytes + slack)

/-- `kv_cache_file_size_fits`. -/
def kvFileSizeFits (kc : KvDiskCache) (textBytes payloadBytes toolMapBytes : ℕ) : Bool :=
  match kvFileSizeBytes textBytes payloadBytes toolMapBytes with
  | none => false
  | some fileBytes =>
      if kc.budgetBytes = 0 then true
      else
        match kvBudgetRequired fileBytes with
        | none => false
        | some required => required ≤ kc.budgetBytes

/-- `kv_cache_file_text_matches`. -/
def fileTextMatches (content sha text : Bytes) : Bool :=
  match kvReadHeader content with
  | none => false
  | some (_, textBytes, rest) =>
      textBytes = text.length && textBytes ≤ rest.length && sha1Hex (rest.take textBytes) = sha &&
        rest.take textBytes = text

/-- An existing file that the server can use for a text. -/
def compatible (kc : KvDiskCache) (quantBits : UInt8) (ctxSize : ℕ) (sha text content : Bytes)
    (e : KvEntry) : Bool :=
  (!kc.rejectDifferentQuant || e.header.quantBits = quantBits) && e.header.ctxSize ≤ ctxSize &&
    fileTextMatches content sha text

/-- `kv_cache_existing_compatible`: a file that cannot be used is removed. -/
def existingCompatible (kc : KvDiskCache) (dir : CacheDir) (path sha text : Bytes)
    (quantBits : UInt8) (ctxSize : ℕ) : Bool × CacheDir :=
  match dir.content path with
  | none => (false, dir)
  | some content =>
      match kvReadEntryFile path sha content with
      | none => (false, dir)
      | some e =>
          if compatible kc quantBits ctxSize sha text content e then (true, dir)
          else (false, dir.unlink path)

/-- `kv_cache_rewrite_tool_map`: the tool map behind the payload is written anew. -/
def rewriteToolMap (dir : CacheDir) (m : ToolMemory) (path text : Bytes) (now : UInt64) :
    CacheDir :=
  if countDsmlInText m (cstr text) = 0 then dir
  else
    match dir.content path with
    | none => dir
    | some content =>
        match kvReadHeader content with
        | none => dir
        | some (h, textBytes, _) =>
            let stop := kvFixedHeader + 4 + textBytes + h.payloadBytes
            if 2 ^ 63 - 1 < stop then dir
            else
              let kept := content.take stop
              match (m.kvToolMapWrite (cstr text)).2 with
              | none => dir.put path kept
              | some (sec, written) =>
                  if 0 < written then
                    let ext := h.extFlags ||| kvExtToolMap
                    let h := { h with extFlags := ext, lastUsed := now.toNat }
                    dir.put path (kvFillHeader h ++ (kept ++ sec).drop kvFixedHeader)
                  else dir.put path (kept ++ sec)

/-- What a store is asked for, which is never more than the tokens; without an override the text
is that of the tokens. -/
structure StoreRequest where
  tokens : List ℕ
  storeLen : ℤ
  reason : Bytes
  override : Bytes
  ext : UInt8
  storeLen_le : storeLen ≤ tokens.length

namespace StoreRequest
variable (engine : KvEngine) (req : StoreRequest)

def storeTokens : List ℕ := req.tokens.take req.storeLen.toNat

/-- The text the checkpoint is stored under. -/
def text : Bytes :=
  if cstr req.override = [] then renderTokensText engine req.storeTokens else cstr req.override

/-- The header of a new file. -/
def header (session : KvSession) (estimate : ℕ) (now : UInt64) : KvHeader :=
  { quantBits := engine.quantBits
    reason := kvReasonCode req.reason
    extFlags := (if 0 < estimate then kvExtToolMap else 0) |||
      if cstr req.override = [] then 0 else req.ext
    tokens := req.storeTokens.length
    hits := 0
    ctxSize := session.ctxSize
    createdAt := now.toNat
    lastUsed := now.toNat
    payloadBytes := session.payload.length }

end StoreRequest

/-- `kv_cache_store_live_prefix_text`, up to the eviction behind it; without a result nothing was
stored. -/
def storeLivePrefixText (kc : KvDiskCache) (engine : KvEngine) (session : KvSession)
    (m : ToolMemory) (now : UInt64) (dir : CacheDir) (req : StoreRequest) : Option CacheDir :=
  if kc.enabled = false ∨ req.storeLen < kc.minTokens then none
  else if engine.quantBits ≠ 2 ∧ engine.quantBits ≠ 4 then none
  else if ∀ live ∈ session.tokens, live.length ≠ req.storeTokens.length ∨
      ¬ req.storeTokens <+: live then none
  else if session.payload = [] then none
  else
    let text := req.text engine
    if maxU32 < text.length then none
    else
      match m.kvToolMapSerializedSize (cstr text) with
      | (_, none) => none
      | (m, some estimate) =>
          if kvFileSizeFits kc text.length session.payload.length estimate = false then none
          else
            let sha := sha1Hex text
            let path := kvPathForSha sha
            match existingCompatible kc dir path sha text engine.quantBits session.ctxSize with
            | (true, dir) => some (rewriteToolMap dir m path text now)
            | (false, dir) =>
                match (m.kvToolMapWrite (cstr text)).2 with
                | none => none
                | some (sec, written) =>
                    let fits := kvFileSizeFits kc text.length session.payload.length written
                    if fits = false then none
                    else
                      some (dir.put path (kvFillHeader (req.header engine session estimate now) ++
                        (lePut32 text.length ++ (text ++ (session.payload ++ sec)))))

end Ds4.KvCache
