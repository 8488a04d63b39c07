import Ds4.Bytes.Ascii
import Ds4.Parts.Linked

/-! The tool memory: sampled blocks under the ids of their calls, kept by recency. -/
namespace Ds4.Memory

/-! `sizeof` of an entry and of a block, and the default limits. -/
def sizeofEntry : ℕ := 64

def sizeofBlock : ℕ := 48

def defaultMaxIds : ℕ := 100000

/-- `DS4_TOOL_MEMORY_MAX_BYTES`. -/
def toolMemoryMaxBytesDefault : ℕ := 512 * 1024 * 1024

inductive Source
  | ram
  | disk
  deriving DecidableEq

/-- `tool_memory_entry`; its place among the others is in the links. -/
structure Entry where
  id : Bytes
  block : ℕ
  bytes : ℕ
  stamp : ℕ
  source : Source

/-- `tool_memory_block`, with the chain of its entries. -/
structure Block where
  dsml : Bytes
  bytes : ℕ
  refs : ℕ
  seen : ℕ
  entries : List ℕ

/-- The memory. Entries and blocks stand at addresses; the two indexes find them by id and by
text. -/
structure ToolMemory where
  byId : Bytes → Option ℕ
  byBlock : Bytes → Option ℕ
  entry : ℕ → Entry
  block : ℕ → Block
  fresh : ℕ
  lru : Parts.Links ℕ
  entries : ℕ
  maxEntries : ℤ
  bytes : ℕ
  maxBytes : ℕ
  clock : ℕ
  scanClock : ℕ

namespace ToolMemory

/-- A memory nothing was put into. -/
def empty (maxEntries : ℤ) (maxBytes : ℕ) : ToolMemory :=
  { byId := fun _ => none
    byBlock := fun _ => none
    entry := fun _ => ⟨[], 0, 0, 0, .ram⟩
    block := fun _ => ⟨[], 0, 0, 0, []⟩
    fresh := 0
    lru := .empty
    entries := 0
    maxEntries := maxEntries
    bytes := 0
    maxBytes := maxBytes
    clock := 0
    scanClock := 0 }

variable (m : ToolMemory)

def entryLimit : ℕ := if 0 < m.maxEntries then m.maxEntries.toNat else defaultMaxIds

def byteLimit : ℕ := if 0 < m.maxBytes then m.maxBytes else toolMemoryMaxBytesDefault

/-- `tool_memory_touch`: the entry is the most recent one. -/
def touch (a : ℕ) : ToolMemory :=
  { m with
    clock := m.clock + 1
    entry := Function.update m.entry a { m.entry a with stamp := m.clock + 1 }
    lru := if m.lru.head = some a then m.lru else (m.lru.unlink a).linkHead a }

def findBlock (dsml : Bytes) : Option ℕ := if dsml = [] then none else m.byBlock dsml

/-- `tool_memory_get_block_locked`: the block of a text, a new one if need be. -/
def getBlock (dsml : Bytes) : ToolMemory × ℕ :=
  match m.findBlock dsml with
  | some b => (m, b)
  | none =>
      let b : Block := ⟨dsml, dsml.length + 1 + sizeofBlock, 0, 0, []⟩
      ({ m with
        byBlock := Function.update m.byBlock dsml (some m.fresh)
        block := Function.update m.block m.fresh b
        fresh := m.fresh + 1
        bytes := m.bytes + b.bytes }, m.fresh)

/-- `tool_memory_release_block_locked`. -/
def releaseBlock (b : ℕ) : ToolMemory :=
  let blk := { m.block b with refs := (m.block b).refs - 1 }
  let m := { m with block := Function.update m.block b blk }
  if 0 < blk.refs then m
  else
    { m with
      byBlock := Function.update m.byBlock blk.dsml none
      bytes := m.bytes - blk.bytes }

/-- `tool_block_unlink_entry`. -/
def unchain (b a : ℕ) : ToolMemory :=
  { m with
    block := Function.update m.block b
      { m.block b with entries := (m.block b).entries.erase a } }

/-- `tool_memory_remove_entry_locked`. -/
def removeEntry (a : ℕ) : ToolMemory :=
  let e := m.entry a
  let m := { m with
    byId := Function.update m.byId e.id none
    lru := m.lru.unlink a }
  let m := m.unchain e.block a
  let m := { m with
    bytes := m.bytes - e.bytes
    entries := m.entries - 1 }
  m.releaseBlock e.block

def overLimit : Prop := m.entryLimit < m.entries ∨ m.byteLimit < m.bytes

instance : Decidable m.overLimit := by
  unfold overLimit
  infer_instance

/-- The loop of `tool_memory_prune_locked`, for as many rounds as there are entries. -/
def pruneLoop : ℕ → ToolMemory → ToolMemory
  | 0, m => m
  | rounds + 1, m =>
      if m.overLimit then
        match m.lru.tail with
        | none => m
        | some a => pruneLoop rounds (m.removeEntry a)
      else m

def prune : ToolMemory := pruneLoop (m.entries + 1) m

def findEntry (id : Bytes) : Option ℕ := if id = [] then none else m.byId id

/-- A new entry in front, in the chain of its block. -/
def addEntry (id : Bytes) (b : ℕ) (source : Source) : ToolMemory :=
  let e : Entry := ⟨id, b, id.length + 1 + sizeofEntry, m.clock + 1, source⟩
  let blk := m.block b
  { m with
    byId := Function.update m.byId id (some m.fresh)
    entry := Function.update m.entry m.fresh e
    block := Function.update m.block b
      { blk with entries := m.fresh :: blk.entries, refs := blk.refs + 1 }
    fresh := m.fresh + 1
    lru := m.lru.linkHead m.fresh
    entries := m.entries + 1
    bytes := m.bytes + e.bytes
    clock := m.clock + 1 }

/-- A put of the text an id already has. -/
def renew (a : ℕ) (source : Source) : ToolMemory :=
  let m :=
    if source = .ram then
      { m with entry := Function.update m.entry a { m.entry a with source := .ram } }
    else m
  m.touch a

/-- The memory as a put leaves it before it is pruned. -/
def place (id dsml : Bytes) (source : Source) : ToolMemory :=
  match m.findEntry id with
  | some a =>
      if (m.block (m.entry a).block).dsml = dsml then m.renew a source
      else
        let found := (m.removeEntry a).getBlock dsml
        found.1.addEntry id found.2 source
  | none =>
      let found := m.getBlock dsml
      found.1.addEntry id found.2 source

/-- `tool_memory_put_locked`. -/
def put (id dsml : Bytes) (source : Source) : ToolMemory :=
  if cstr id = [] ∨ cstr dsml = [] then m else (m.place (cstr id) (cstr dsml) source).prune

/-- `tool_memory_lookup_locked`: the text of an id, where it is from, and its block. -/
def lookup (id : Bytes) : Option (Bytes × Source × ℕ) × ToolMemory :=
  match m.findEntry id with
  | none => (none, m)
  | some a =>
      let m' := m.touch a
      let e := m'.entry a
      (some ((m'.block e.block).dsml, e.source, e.block), m')

/-- `tool_memory_remember`, for the ids of the calls. -/
def remember (ids : List Bytes) (rawDsml : Bytes) : ToolMemory :=
  if rawDsml = [] then m
  else ids.foldl (fun m id => m.put id rawDsml .ram) m

/-- What an id stands for. -/
def text (id : Bytes) : Option Bytes :=
  (m.findEntry id).map fun a => (m.block (m.entry a).block).dsml

end ToolMemory

end Ds4.Memory
