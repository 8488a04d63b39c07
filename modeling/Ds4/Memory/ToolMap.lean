import Ds4.Bytes.LittleEndian
import Ds4.Dsml.Syntax
import Ds4.Memory.ToolMemory

/-! The tool map of a cache file: the ids of the blocks that stand in a transcript, written behind
it and read back. -/
namespace Ds4.Memory
open ToolMemory

/-- The forms of a block in the order they are tried, each with two newlines first. -/
def blockForms : List (Bytes × Bytes) :=
  Dsml.dsmlSyntaxes.flatMap fun syn =>
    [(10 :: 10 :: syn.toolCallsStart, syn.toolCallsEnd), (syn.toolCallsStart, syn.toolCallsEnd)]

/-- One form: an earlier block than the best so far, if it ends. -/
def betterBlock (p : Bytes) (best : Option (ℕ × ℕ)) (form : Bytes × Bytes) : Option (ℕ × ℕ) :=
  match Search.find form.1 p with
  | none => best
  | some s =>
      if best.any fun b => b.1 ≤ s then best
      else
        match Search.find form.2 (p.drop s) with
        | none => best
        | some e => some (s, s + e + form.2.length)

/-- `find_next_dsml_tool_block`: where it starts and where it ends. -/
def findNextDsmlToolBlock (p : Bytes) : Option (ℕ × ℕ) := blockForms.foldl (betterBlock p) none

/-- The blocks of a text one after the other, for as many rounds as it has bytes. -/
def blocksFrom : ℕ → Bytes → List Bytes
  | 0, _ => []
  | rounds + 1, p =>
      match findNextDsmlToolBlock p with
      | none => []
      | some (s, e) => (p.take e).drop s :: blocksFrom rounds (p.drop e)

def toolBlocks (text : Bytes) : List Bytes := blocksFrom (text.length + 1) text

namespace ToolMemory
variable (m : ToolMemory)

/-- A block is not visited twice in one scan. -/
def mark (b scan : ℕ) : ToolMemory :=
  { m with block := Function.update m.block b { m.block b with seen := scan } }

/-- The lengths of an entry's id and text. -/
def fieldLengths (b a : ℕ) : ℕ × ℕ := ((m.entry a).id.length, (m.block b).dsml.length)

/-- An entry is counted, unless the counts leave their widths. -/
def measureEntry (b : ℕ) (acc : Option (ℕ × ℕ)) (a : ℕ) : Option (ℕ × ℕ) :=
  match acc with
  | none => none
  | some (count, bytes) =>
      let len := m.fieldLengths b a
      if maxU32 < len.1 ∨ maxU32 < len.2 then some (count, bytes)
      else if count = maxU32 then none
      else if maxU64 - bytes < 8 ∨ maxU64 - bytes - 8 < len.1 ∨
          maxU64 - bytes - 8 - len.1 < len.2 then none
      else some (count + 1, bytes + (8 + len.1 + len.2))

/-- The walk of `kv_tool_map_measure_locked` over the blocks of the text. -/
def measureWalk (scan : ℕ) : ToolMemory → List Bytes → ℕ × ℕ → ToolMemory × Option (ℕ × ℕ)
  | m, [], acc => (m, some acc)
  | m, t :: ts, acc =>
      match m.findBlock t with
      | none => measureWalk scan m ts acc
      | some b =>
          if (m.block b).seen = scan then measureWalk scan m ts acc
          else
            let m := m.mark b scan
            match (m.block b).entries.foldl (m.measureEntry b) (some acc) with
            | none => (m, none)
            | some acc => measureWalk scan m ts acc

/-- `KV_TOOL_MAP_HEADER`. -/
def toolMapHeader : ℕ := 8

/-- `kv_tool_map_measure_locked`: the number of entries and of bytes. -/
def kvToolMapMeasure (text : Bytes) : ToolMemory × Option (ℕ × ℕ) :=
  let m := { m with scanClock := m.scanClock + 1 }
  let r := measureWalk m.scanClock m (toolBlocks text) (0, toolMapHeader)
  (r.1, r.2.map fun n => if n.1 = 0 then (0, 0) else n)

def kvToolMapSerializedSize (text : Bytes) : ToolMemory × Option ℕ :=
  if text = [] then (m, some 0)
  else
    let r := m.kvToolMapMeasure text
    (r.1, r.2.map Prod.snd)

/-- The record of an entry. -/
def encodeRecord (r : Bytes × Bytes) : Bytes :=
  lePut32 r.1.length ++ lePut32 r.2.length ++ r.1 ++ r.2

def writeEntry (b : ℕ) (out : Bytes) (a : ℕ) : Bytes :=
  let len := m.fieldLengths b a
  if maxU32 < len.1 ∨ maxU32 < len.2 then out
  else out ++ encodeRecord ((m.entry a).id, (m.block b).dsml)

/-- The walk of `kv_tool_map_write`. -/
def writeWalk (scan : ℕ) : ToolMemory → List Bytes → Bytes → ToolMemory × Bytes
  | m, [], out => (m, out)
  | m, t :: ts, out =>
      match m.findBlock t with
      | none => writeWalk scan m ts out
      | some b =>
          if (m.block b).seen = scan then writeWalk scan m ts out
          else
            let m := m.mark b scan
            writeWalk scan m ts ((m.block b).entries.foldl (m.writeEntry b) out)

/-- `K`, `T`, `M` and the version. -/
def toolMapMagic : Bytes := [75, 84, 77, 1]

/-- `kv_tool_map_write`: what goes into the file and the number of bytes it reports. -/
def kvToolMapWrite (text : Bytes) : ToolMemory × Option (Bytes × ℕ) :=
  if text = [] then (m, some ([], 0))
  else
    match m.kvToolMapMeasure text with
    | (m, none) => (m, none)
    | (m, some (count, bytes)) =>
        if count = 0 then (m, some ([], 0))
        else
          let m := { m with scanClock := m.scanClock + 1 }
          let r := writeWalk m.scanClock m (toolBlocks text) (toolMapMagic ++ lePut32 count)
          (r.1, some (r.2, bytes))

/-- One record of a section, if its lengths are in range and it is all there. -/
def readRecord (s : Bytes) : Option ((Bytes × Bytes) × Bytes) :=
  let idLen := leGet (s.take 4)
  let dsmlLen := leGet ((s.drop 4).take 4)
  let body := s.drop 8
  if s.length < 8 then none
  else if idLen = 0 ∨ 256 < idLen ∨ dsmlLen = 0 ∨ toolMemoryMaxBytesDefault < dsmlLen then none
  else if body.length < idLen + dsmlLen then none
  else some ((body.take idLen, (body.drop idLen).take dsmlLen), body.drop (idLen + dsmlLen))

/-- `id_list_contains`, where a list is given. -/
def isWanted (wanted : Option (List Bytes)) (id : Bytes) : Bool :=
  match wanted with
  | none => true
  | some ids => id ≠ [] && ids.contains id

/-- The records of `kv_tool_map_load_from_pos`, and how many were put. -/
def loadRecords (wanted : Option (List Bytes)) : ℕ → ToolMemory → ℕ → Bytes → ToolMemory × ℕ
  | 0, m, loaded, _ => (m, loaded)
  | count + 1, m, loaded, s =>
      match readRecord s with
      | none => (m, loaded)
      | some ((id, dsml), rest) =>
          if isWanted wanted (cstr id) then
            loadRecords wanted count (m.put id dsml .disk) (loaded + 1) rest
          else loadRecords wanted count m loaded rest

/-- `kv_tool_map_load_from_pos`, on what the file has from there on. -/
def kvToolMapLoad (wanted : Option (List Bytes)) (s : Bytes) : ToolMemory × ℕ :=
  let count := leGet ((s.drop 4).take 4)
  if s.length < 8 then (m, 0)
  else if s.take 4 ≠ toolMapMagic then (m, 0)
  else if m.entryLimit * 4 < count then (m, 0)
  else loadRecords wanted count m 0 (s.drop 8)

end ToolMemory

end Ds4.Memory
