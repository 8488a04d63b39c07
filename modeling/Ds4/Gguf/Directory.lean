import Ds4.Gguf.Cursor

/-! The GGUF loader: metadata table, tensor directory and the placing of the tensors. -/
namespace Ds4.Gguf

structure TypeInfo where
  name : String
  blockElems : ℕ
  blockBytes : ℕ
  deriving DecidableEq

/-- `gguf_types`; the holes of the table have no name. -/
def tensorType : ℕ → Option TypeInfo
  | 0 => some ⟨"f32", 1, 4⟩
  | 1 => some ⟨"f16", 1, 2⟩
  | 2 => some ⟨"q4_0", 32, 18⟩
  | 3 => some ⟨"q4_1", 32, 20⟩
  | 6 => some ⟨"q5_0", 32, 22⟩
  | 7 => some ⟨"q5_1", 32, 24⟩
  | 8 => some ⟨"q8_0", 32, 34⟩
  | 9 => some ⟨"q8_1", 32, 40⟩
  | 10 => some ⟨"q2_k", 256, 84⟩
  | 11 => some ⟨"q3_k", 256, 110⟩
  | 12 => some ⟨"q4_k", 256, 144⟩
  | 13 => some ⟨"q5_k", 256, 176⟩
  | 14 => some ⟨"q6_k", 256, 210⟩
  | 15 => some ⟨"q8_k", 256, 292⟩
  | 16 => some ⟨"iq2_xxs", 256, 66⟩
  | 17 => some ⟨"iq2_xs", 256, 74⟩
  | 18 => some ⟨"iq3_xxs", 256, 98⟩
  | 19 => some ⟨"iq1_s", 256, 110⟩
  | 20 => some ⟨"iq4_nl", 256, 50⟩
  | 21 => some ⟨"iq3_s", 256, 110⟩
  | 22 => some ⟨"iq2_s", 256, 82⟩
  | 23 => some ⟨"iq4_xs", 256, 136⟩
  | 24 => some ⟨"i8", 1, 1⟩
  | 25 => some ⟨"i16", 1, 2⟩
  | 26 => some ⟨"i32", 1, 4⟩
  | 27 => some ⟨"i64", 1, 8⟩
  | 28 => some ⟨"f64", 1, 8⟩
  | 29 => some ⟨"iq1_m", 256, 56⟩
  | 30 => some ⟨"bf16", 1, 2⟩
  | 39 => some ⟨"mxfp4", 32, 17⟩
  | 42 => some ⟨"f8_e4m3_b128", 128, 129⟩
  | _ => none

def tensorNbytes (type elements : ℕ) : Option ℕ :=
  match tensorType type with
  | none => none
  | some info =>
      if info.blockElems = 0 then none
      else
        let blocks := u64 (elements + info.blockElems - 1) / info.blockElems
        if maxU64 / info.blockBytes < blocks then none else some (u64 (blocks * info.blockBytes))

structure Kv where
  key : Str
  type : ℕ
  valuePos : ℕ
  deriving DecidableEq

structure Tensor where
  name : Str
  ndim : ℕ
  dim : List ℕ
  type : ℕ
  relOffset : ℕ
  absOffset : ℕ
  elements : ℕ
  bytes : ℕ
  deriving DecidableEq

structure Model where
  version : ℕ
  alignment : ℕ
  tensorDataPos : ℕ
  kv : List Kv
  tensors : List Tensor
  deriving DecidableEq

def ggufMagic : ℕ := 0x46554747

def maxDims : ℕ := 8

/-- `sizeof(ds4_kv)` and `sizeof(ds4_tensor)`. -/
def kvBytes : ℕ := 32

def tensorBytes : ℕ := 128

section Metadata
variable (file : MappedFile)

/-- A read through a second cursor; its failure is not an error. -/
def peekU32 (pos : ℕ) : Run String (Option ℕ) := fun c =>
  match cursorU32 file { c with pos := pos, error := "" } with
  | .ok v tmp => .ok (some v) { c with reads := tmp.reads }
  | .error _ tmp => .ok none { c with reads := tmp.reads }

/-- The alignment behind one metadata entry. -/
def readAlignment (key : Str) (type valuePos alignment : ℕ) : Run String ℕ := do
  let named ← streq file key (lit "general.alignment")
  if named = true ∧ type = valueUint32 then
    let v ← peekU32 file valuePos
    match v with
    | some v => return if v ≠ 0 then v else alignment
    | none => return alignment
  else return alignment

/-- One entry of the metadata table. -/
def parseKv (alignment : ℕ) : Run String (Kv × ℕ) := do
  let key ← orDie (cursorString file)
  let type ← orDie (cursorU32 file)
  let c ← get
  let alignment ← readAlignment file key type c.pos alignment
  orDie (skipValue file 9 type)
  return (⟨key, type, c.pos⟩, alignment)

/-- The loop of `parse_metadata`. -/
def parseKvs : ℕ → ℕ → Run String (List Kv × ℕ)
  | 0, alignment => return ([], alignment)
  | n + 1, alignment => do
      let kv ← parseKv file alignment
      let rest ← parseKvs n kv.2
      return (kv.1 :: rest.1, rest.2)

/-- `parse_metadata`; `calloc` says whether an allocation succeeds. -/
def parseMetadata (calloc : ℕ → ℕ → Bool) (nKv : ℕ) : Run String (List Kv × ℕ) := do
  if calloc nKv kvBytes then parseKvs file nKv 32
  else die "out of memory while allocating metadata table"

end Metadata

section Tensors
variable (file : MappedFile)

/-- The dimension loop of a directory entry. -/
def parseDims : ℕ → ℕ → Run String (List ℕ × ℕ)
  | 0, elements => return ([], elements)
  | n + 1, elements => do
      let d ← orDie (cursorU64 file)
      if d ≠ 0 ∧ maxU64 / d < elements then die "tensor element count overflow"
      else
        let rest ← parseDims n (u64 (elements * d))
        return (d :: rest.1, rest.2)

/-- The bytes that `%.*s` reads and prints: a precision below 2^31 is a limit, any other is
negative, which leaves the zero byte as the only end. -/
def printedName (name : Str) : Bytes :=
  let shown := (file.bytes.drop name.ptr).takeWhile (· ≠ 0)
  if name.len % 2 ^ 32 < 2 ^ 31 then shown.take (name.len % 2 ^ 32) else shown

/-- How far `%.*s` reads: the zero byte itself, unless the precision ends the name first. -/
def printedLength (name : Str) : ℕ :=
  let shown := ((file.bytes.drop name.ptr).takeWhile (· ≠ 0)).length
  if name.len % 2 ^ 32 < 2 ^ 31 then min (shown + 1) (name.len % 2 ^ 32) else shown + 1

def warnType (name : Str) (type : ℕ) : Run String Unit := do
  noteRead name.ptr (printedLength file name)
  modify fun c => { c with warnings := c.warnings ++ [⟨printedName file name, type⟩] }

/-- One entry of the tensor directory; its bytes stay 0 where they cannot be computed. -/
def parseTensor : Run String Tensor := do
  let name ← orDie (cursorString file)
  let ndim ← orDie (cursorU32 file)
  if ndim = 0 ∨ maxDims < ndim then die "tensor has an unsupported number of dimensions"
  else
    let dims ← parseDims file ndim 1
    let type ← orDie (cursorU32 file)
    let relOffset ← orDie (cursorU64 file)
    match tensorNbytes type dims.2 with
    | some bytes => return ⟨name, ndim, dims.1, type, relOffset, 0, dims.2, bytes⟩
    | none =>
        warnType file name type
        return ⟨name, ndim, dims.1, type, relOffset, 0, dims.2, 0⟩

def parseDirectory : ℕ → Run String (List Tensor)
  | 0 => return []
  | n + 1 => do
      let t ← parseTensor file
      let rest ← parseDirectory n
      return t :: rest

/-- The second loop of `parse_tensors` for one tensor. -/
def placeTensor (tensorDataPos : ℕ) (t : Tensor) : Run String Tensor :=
  if maxU64 - tensorDataPos < t.relOffset then die "tensor offset overflow"
  else
    let absOffset := u64 (tensorDataPos + t.relOffset)
    if t.bytes ≠ 0 ∧ (file.size < absOffset ∨ file.size - absOffset < t.bytes) then
      die "tensor points outside GGUF file"
    else return { t with absOffset := absOffset }

def placeTensors (tensorDataPos : ℕ) : List Tensor → Run String (List Tensor)
  | [] => return []
  | t :: ts => do
      let t ← placeTensor file tensorDataPos t
      let ts ← placeTensors tensorDataPos ts
      return t :: ts

/-- `parse_tensors`. -/
def parseTensors (calloc : ℕ → ℕ → Bool) (nTensors alignment : ℕ) :
    Run String (ℕ × List Tensor) := do
  if calloc nTensors tensorBytes then
    let ts ← parseDirectory file nTensors
    let c ← get
    let dataPos := alignUp c.pos alignment
    let ts ← placeTensors file dataPos ts
    return (dataPos, ts)
  else die "out of memory while allocating tensor table"

end Tensors

/-- `model_open` behind the mapping of the file. -/
def modelOpen (calloc : ℕ → ℕ → Bool) (file : MappedFile) : Run String Model := do
  if file.size < 32 then die "model file is too small to be GGUF"
  else
    let magic ← orDie (cursorU32 file)
    if magic ≠ ggufMagic then die "model is not a GGUF file"
    else
      let version ← orDie (cursorU32 file)
      let nTensors ← orDie (cursorU64 file)
      let nKv ← orDie (cursorU64 file)
      if version ≠ 3 then die "only GGUF v3 is supported"
      else
        let metadata ← parseMetadata file calloc nKv
        let tensors ← parseTensors file calloc nTensors metadata.2
        return ⟨version, metadata.2, tensors.1, metadata.1, tensors.2⟩

def startCursor : Cursor := ⟨0, "", [], []⟩

end Ds4.Gguf
