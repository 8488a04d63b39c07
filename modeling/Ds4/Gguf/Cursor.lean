import Ds4.Bytes.LittleEndian

/-! The read cursor over a mapped GGUF file, and the recursive skipping of metadata values.
The cursor also keeps, as a ghost, the spans of the mapping that were read. -/
namespace Ds4.Gguf

/-- The bytes of a mapped file; their number comes from a signed 64-bit field. -/
structure MappedFile where
  bytes : Bytes
  fits : bytes.length < 2 ^ 63

structure Span where
  start : ℕ
  len : ℕ
  deriving DecidableEq

/-- `ds4_str`: the pointer is an offset into the mapping. -/
structure Str where
  ptr : ℕ
  len : ℕ
  deriving DecidableEq

/-- A warning names a tensor and its type. -/
structure Warning where
  name : Bytes
  type : ℕ
  deriving DecidableEq

/-- `error` is empty while there is none. -/
structure Cursor where
  pos : ℕ
  error : String
  reads : List Span
  warnings : List Warning

/-- The functions of the cursor return false or die; both keep the cursor. -/
abbrev Run (ε α : Type) := EStateM ε Cursor α

def u64 (n : ℕ) : ℕ := n % 2 ^ 64

namespace MappedFile
variable (file : MappedFile)

def size : ℕ := file.bytes.length

def region (start len : ℕ) : Bytes := (file.bytes.drop start).take len

end MappedFile

/-- A little-endian number. -/
def leNat : Bytes → ℕ
  | [] => 0
  | b :: s => b.toNat + 256 * leNat s

/-- `cursor_error` and `return false`: only the first error is kept. -/
def cursorFail {α : Type} (msg : String) : Run Unit α := do
  modify fun c =>
    if c.error = "" then { c with error := msg ++ " at byte " ++ toString c.pos } else c
  throw ()

/-- `ds4_die(c->error)` on a false return. -/
def orDie {α : Type} (r : Run Unit α) : Run String α := fun c =>
  match r c with
  | .ok a c => .ok a c
  | .error _ c => .error c.error c

def die {α : Type} (msg : String) : Run String α := throw msg

def noteRead {ε : Type} (start len : ℕ) : Run ε Unit :=
  modify fun c => { c with reads := c.reads ++ [⟨start, len⟩] }

def advance (n : ℕ) : Run Unit Unit := modify fun c => { c with pos := u64 (c.pos + n) }

section Reading
variable (file : MappedFile)

def cursorHas (n : ℕ) : Run Unit Unit := do
  let c ← get
  if file.size < n ∨ file.size - n < c.pos then cursorFail "truncated GGUF file"

def cursorRead (n : ℕ) : Run Unit Bytes := do
  cursorHas file n
  let c ← get
  noteRead c.pos n
  advance n
  return file.region c.pos n

def cursorSkip (n : ℕ) : Run Unit Unit := do
  cursorHas file n
  advance n

def cursorU32 : Run Unit ℕ := do
  let b ← cursorRead file 4
  return leNat b

def cursorU64 : Run Unit ℕ := do
  let b ← cursorRead file 8
  return leNat b

def cursorString : Run Unit Str := do
  let len ← cursorU64 file
  cursorHas file len
  let c ← get
  advance len
  return ⟨c.pos, len⟩

/-- `ds4_streq`: the bytes are compared only when the lengths agree. -/
def streq {ε : Type} (s : Str) (z : Bytes) : Run ε Bool :=
  if s.len = z.length then do
    noteRead s.ptr z.length
    return file.region s.ptr z.length = z
  else return false

end Reading

def alignUp (value alignment : ℕ) : ℕ :=
  let rem := value % alignment
  if rem = 0 then value else u64 (value + alignment - rem)

def valueUint8 : ℕ := 0
def valueInt8 : ℕ := 1
def valueUint16 : ℕ := 2
def valueInt16 : ℕ := 3
def valueUint32 : ℕ := 4
def valueInt32 : ℕ := 5
def valueFloat32 : ℕ := 6
def valueBool : ℕ := 7
def valueString : ℕ := 8
def valueArray : ℕ := 9
def valueUint64 : ℕ := 10
def valueInt64 : ℕ := 11
def valueFloat64 : ℕ := 12

def scalarValueSize (type : ℕ) : ℕ :=
  if type = valueUint8 ∨ type = valueInt8 ∨ type = valueBool then 1
  else if type = valueUint16 ∨ type = valueInt16 then 2
  else if type = valueUint32 ∨ type = valueInt32 ∨ type = valueFloat32 then 4
  else if type = valueUint64 ∨ type = valueInt64 ∨ type = valueFloat64 then 8
  else 0

/-- The item loop of an array. -/
def repeatStep (step : Run Unit Unit) : ℕ → Run Unit Unit
  | 0 => pure ()
  | n + 1 => do
      step
      repeatStep step n

/-- `skip_value` at depth `9 - levels`. -/
def skipValue (file : MappedFile) : ℕ → ℕ → Run Unit Unit
  | 0, _ => cursorFail "metadata array nesting is too deep"
  | levels + 1, type =>
      if scalarValueSize type ≠ 0 then cursorSkip file (scalarValueSize type)
      else if type = valueString then do
        let _ ← cursorString file
      else if type = valueArray then do
        let itemType ← cursorU32 file
        let len ← cursorU64 file
        if scalarValueSize itemType ≠ 0 then
          if maxU64 / scalarValueSize itemType < len then
            cursorFail "metadata array is too large"
          else cursorSkip file (u64 (len * scalarValueSize itemType))
        else repeatStep (skipValue file levels itemType) len
      else cursorFail "unknown GGUF metadata type"

end Ds4.Gguf
