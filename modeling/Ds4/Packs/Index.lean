import Ds4.Bytes.LittleEndian
import Ds4.Packs.IndexFile
import Ds4.Packs.Number
import Mathlib.Data.Nat.Digits.Defs

/-! The pack index: its rows, and the pack they are loaded into. -/
namespace Ds4.Packs

def packCols : ℕ := 14

def packHeader : Bytes :=
  lit "semantic_tensor_id\t" ++ lit "source_name\t" ++ lit "source_dtype\t" ++
  lit "source_shape\t" ++ lit "runtime_layout\t" ++ lit "owning_gpu\t" ++ lit "layer_id\t" ++
  lit "kernel_family\t" ++ lit "source_offset\t" ++ lit "byte_length\t" ++ lit "shard_file\t" ++
  lit "shard_offset\t" ++ lit "scale_offset\t" ++ lit "checksum"

/-- `ds4_pack_entry`. -/
structure PackEntry where
  semanticTensorId : Bytes
  sourceName : Bytes
  sourceDtype : Bytes
  sourceShape : Bytes
  runtimeLayout : Bytes
  kernelFamily : Bytes
  shardFile : Bytes
  owningGpu : ℤ
  layerId : ℤ
  scaleOffset : ℤ
  sourceOffset : ℕ
  byteLength : ℕ
  shardOffset : ℕ
  deriving DecidableEq

/-- A loaded pack: no id and no source name stands twice. -/
structure Pack where
  entries : List PackEntry
  ids_nodup : (entries.map PackEntry.semanticTensorId).Nodup
  names_nodup : (entries.map PackEntry.sourceName).Nodup

namespace Pack

def empty : Pack := ⟨[], List.nodup_nil, List.nodup_nil⟩

/-- The index of the row, as the linear search finds it. -/
def findSemantic (p : Pack) (id : Bytes) : Option ℕ :=
  p.entries.findIdx? fun e => e.semanticTensorId == id

def findSourceName (p : Pack) (name : Bytes) : Option ℕ :=
  p.entries.findIdx? fun e => e.sourceName == name

variable {p : Pack} {id name : Bytes}

theorem findSemantic_eq_none : p.findSemantic id = none ↔
    id ∉ p.entries.map PackEntry.semanticTensorId := by
  rw [findSemantic, List.findIdx?_eq_none_iff]
  simp

theorem findSourceName_eq_none : p.findSourceName name = none ↔
    name ∉ p.entries.map PackEntry.sourceName := by
  rw [findSourceName, List.findIdx?_eq_none_iff]
  simp

theorem nodup_append_one {α β : Type} {f : α → β} {l : List α} {a : α} (h : (l.map f).Nodup)
    (ha : f a ∉ l.map f) : ((l ++ [a]).map f).Nodup := by
  rw [List.map_append, List.map_singleton, List.nodup_append]
  refine ⟨h, List.nodup_singleton _, ?_⟩
  intro b hb c hc
  rw [List.mem_singleton] at hc
  rintro rfl
  exact ha (hc ▸ hb)

/-- `pack_append`, for a row that is not there. -/
def append (p : Pack) (e : PackEntry) (hid : p.findSemantic e.semanticTensorId = none)
    (hname : p.findSourceName e.sourceName = none) : Pack :=
  ⟨p.entries ++ [e], nodup_append_one p.ids_nodup (findSemantic_eq_none.1 hid),
    nodup_append_one p.names_nodup (findSourceName_eq_none.1 hname)⟩

end Pack

/-- What `%d` prints of a number that is not negative. -/
def printDecimal (n : ℕ) : Bytes :=
  if n = 0 then [48] else (Nat.digits 10 n).reverse.map fun d => (48 + d).toUInt8

def validShardName (name : Bytes) (owningGpu : ℤ) : Bool :=
  if name = [] then false
  else if 47 ∈ name ∨ 92 ∈ name then false
  else name == lit "gpu" ++ printDecimal owningGpu.toNat ++ lit ".weights"

/-- The fields of a row that are numbers. -/
structure PackNumbers where
  owningGpu : ℤ
  layerId : ℤ
  sourceOffset : ℕ
  byteLength : ℕ
  shardOffset : ℕ
  scaleOffset : ℤ

def badField (what : String) (lineNo : ℕ) : String :=
  what ++ " on line " ++ toString lineNo

def parsePackNumbers (f : List Bytes) (lineNo : ℕ) : Except String PackNumbers :=
  match (parseI32Field (f.getD 5 [])).filter (0 ≤ ·) with
  | none => .error (badField "bad owning_gpu" lineNo)
  | some gpu =>
      match parseI32Field (f.getD 6 []) with
      | none => .error (badField "bad layer_id" lineNo)
      | some layer =>
          match parseU64Field (f.getD 8 []), parseU64Field (f.getD 9 []),
            parseU64Field (f.getD 11 []), parseI64Field (f.getD 12 []) with
          | some off, some len, some shard, some scale => .ok ⟨gpu, layer, off, len, shard, scale⟩
          | _, _, _, _ => .error (badField "bad numeric field" lineNo)

def packEntry (f : List Bytes) (n : PackNumbers) : PackEntry :=
  { semanticTensorId := f.getD 0 []
    sourceName := f.getD 1 []
    sourceDtype := f.getD 2 []
    sourceShape := f.getD 3 []
    runtimeLayout := f.getD 4 []
    kernelFamily := f.getD 7 []
    shardFile := f.getD 10 []
    owningGpu := n.owningGpu
    layerId := n.layerId
    scaleOffset := n.scaleOffset
    sourceOffset := n.sourceOffset
    byteLength := n.byteLength
    shardOffset := n.shardOffset }

/-- The checks of a row behind its numbers. -/
def admitPackRow (p : Pack) (e : PackEntry) (lineNo : ℕ) : Except String Pack :=
  if e.byteLength = 0 then .error (badField "zero byte_length" lineNo)
  else if maxU64 - e.byteLength < e.sourceOffset ∨ maxU64 - e.byteLength < e.shardOffset then
    .error (badField "offset overflow" lineNo)
  else if hid : p.findSemantic e.semanticTensorId = none then
    if hname : p.findSourceName e.sourceName = none then
      if e.shardFile ≠ [] ∧ validShardName e.shardFile e.owningGpu = false then
        .error (badField ("unexpected shard_file '" ++ shown e.shardFile ++ "'") lineNo)
      else .ok (p.append e hid hname)
    else .error (badField "duplicate source_name" lineNo)
  else .error (badField "duplicate semantic_tensor_id" lineNo)

def parsePackRow (p : Pack) (line : Bytes) (lineNo : ℕ) : Except String Pack :=
  let f := splitTabs line packCols
  if f.2 ≠ packCols then
    .error ("pack index line " ++ toString lineNo ++ " has " ++ toString f.2 ++
      " columns, expected " ++ toString packCols)
  else
    match parsePackNumbers f.1 lineNo with
    | .error e => .error e
    | .ok n => admitPackRow p (packEntry f.1 n) lineNo

def packKind : IndexKind Pack where
  noun := "pack index"
  header := packHeader
  empty := Pack.empty
  isEmpty := fun p => p.entries == []
  parseRow := parsePackRow

/-- `ds4_pack_open`, on the content of the file at the path. -/
def packOpen (path : String) (content : Bytes) : Except String Pack :=
  packKind.openIndex path content

end Ds4.Packs
