import Ds4.Engine.Constants
import Mathlib.Tactic.Ring

/-! The plan of a fold over the GPUs: which ring position each element starts from, as the chunk
loop of the ring it mirrors has it. -/
namespace Ds4.Fold

/-- The parameters that `s602_state_init` leaves. -/
structure FoldConfig where
  nchannels : ℕ
  nrings : ℕ
  delta : ℕ
  minChunk : ℕ
  nchannels_pos : 0 < nchannels
  nchannels_le : nchannels ≤ kGpus
  nrings_pos : 0 < nrings
  nrings_le : nrings ≤ kGpus
  delta_lt : delta < 8
  minChunk_lt : minChunk < 2 ^ 31

/-- The loop `while (p < nt) p <<= 1`. -/
def doubleTo (nt : ℕ) : ℕ → ℕ → ℕ
  | 0, p => p
  | fuel + 1, p => if p < nt then doubleTo nt fuel (2 * p) else p

def s602MinChunkFor (count : ℕ) : ℕ :=
  let nt := (count + 15) % 2 ^ 64 / 16
  let p := doubleTo nt 60 1
  let p := if p < 96 then 96 else p
  let p := if 512 < p then 512 else p
  2 * p

def kS602MaxSegs : ℕ := 40

structure FoldSeg where
  begin : ℕ
  start : ℕ
  ring : ℕ
  deriving DecidableEq

/-- The table of segments, which never holds more than it has room for. -/
structure FoldPlan where
  segs : List FoldSeg
  fits : segs.length ≤ kS602MaxSegs

namespace FoldPlan

def empty : FoldPlan := ⟨[], Nat.zero_le _⟩

/-- The last segment has the position and the ring already. -/
def endsWith (p : FoldPlan) (start ring : ℕ) : Bool :=
  p.segs.getLast?.any fun s => s.start = start ∧ s.ring = ring

def push (p : FoldPlan) (s : FoldSeg) (h : p.segs.length < kS602MaxSegs) : FoldPlan :=
  ⟨p.segs ++ [s], by rw [List.length_append, List.length_singleton]; exact h⟩

/-- The search of `s602_fold_kernel`, from a segment on. -/
def scan : FoldSeg → List FoldSeg → ℕ → FoldSeg
  | s, [], _ => s
  | s, next :: rest, i => if next.begin ≤ i then scan next rest i else s

/-- The segment that an element is folded by. -/
def lookup (p : FoldPlan) (i : ℕ) : Option FoldSeg :=
  match p.segs with
  | [] => none
  | s :: rest => some (scan s rest i)

end FoldPlan

namespace FoldConfig
variable (cfg : FoldConfig) (count : ℕ)

/-- The chunks of one iteration. -/
def loop : ℕ := cfg.nchannels * kGpus

def minChunkOf : ℕ := if 0 < cfg.minChunk then cfg.minChunk else s602MinChunkFor count

def maxChunk : ℕ := 2 ^ 20

/-- The chunk size of an iteration, with the sum as 64 bits hold it. -/
def rcs64 (remaining : ℕ) : ℕ :=
  let mc := cfg.minChunkOf count
  let rcs := (remaining + cfg.loop * mc - 1) % 2 ^ 64 / (cfg.loop * mc) * mc
  if maxChunk < rcs then maxChunk else rcs

/-- The loop over the chunks of a channel. -/
def channelBlocks (gridOffset rcs bid : ℕ) : List ℕ → FoldPlan → FoldPlan
  | [], p => p
  | c :: cs, p =>
      let begin := (gridOffset + (bid * kGpus + c) * rcs) % 2 ^ 64
      if count ≤ begin then p
      else
        let start := (c + cfg.delta) % 8
        let ringsel := bid % cfg.nrings
        if p.endsWith start ringsel then channelBlocks gridOffset rcs bid cs p
        else if h : p.segs.length < kS602MaxSegs then
          channelBlocks gridOffset rcs bid cs (p.push ⟨begin, start, ringsel⟩ h)
        -- the table is full: the rest of the channel is left to the last segment
        else p

/-- The loop over the channels. -/
def iteration (gridOffset rcs : ℕ) (p : FoldPlan) : FoldPlan :=
  (List.range cfg.nchannels).foldl (fun p bid =>
    cfg.channelBlocks count gridOffset rcs bid (List.range kGpus) p) p

/-- The loop over the iterations; `none` is one that has not ended yet. -/
def buildLoop : ℕ → ℕ → FoldPlan → Option FoldPlan
  | 0, _, _ => none
  | fuel + 1, gridOffset, p =>
      if count ≤ gridOffset then some p
      else
        let rcs := cfg.rcs64 count (count - gridOffset)
        buildLoop fuel ((gridOffset + cfg.loop * rcs) % 2 ^ 64)
          (cfg.iteration count gridOffset rcs p)

/-- A plan has at least one segment. -/
def finish (p : FoldPlan) : FoldPlan :=
  if p.segs = [] then ⟨[⟨0, cfg.delta, 0⟩], Nat.succ_le_succ (Nat.zero_le 39)⟩ else p

/-- `s602_build_plan`. -/
def s602BuildPlan (fuel : ℕ) : Option FoldPlan :=
  (cfg.buildLoop count fuel 0 .empty).map cfg.finish

/-! The loop that is mirrored, without a bound on its numbers or its blocks. -/

/-- The chunk size of an iteration. -/
def rcs (remaining : ℕ) : ℕ :=
  min ((remaining + cfg.loop * cfg.minChunkOf count - 1) / (cfg.loop * cfg.minChunkOf count) *
    cfg.minChunkOf count) maxChunk

/-- Where an iteration begins. -/
def gridOffset : ℕ → ℕ
  | 0 => 0
  | k + 1 => gridOffset k + cfg.loop * cfg.rcs count (count - gridOffset k)

/-- The chunk size of the `k`-th iteration. -/
def chunkSize (k : ℕ) : ℕ := cfg.rcs count (count - cfg.gridOffset count k)

/-- Where a chunk of a channel begins. -/
def blockBegin (k bid c : ℕ) : ℕ :=
  cfg.gridOffset count k + (bid * kGpus + c) * cfg.chunkSize count k

/-- The element is in the chunk of the channel. -/
structure InBlock (k bid c i : ℕ) : Prop where
  channel : bid < cfg.nchannels
  chunk : c < kGpus
  ge : cfg.blockBegin count k bid c ≤ i
  lt : i < cfg.blockBegin count k bid c + cfg.chunkSize count k

/-- What the fold kernel needs of a plan: segments in order from the first element on, each chunk
with its own, and for every element the ring and the position of the chunk it is in. -/
structure MirrorsLoop (p : FoldPlan) : Prop where
  first : p.segs.head?.map FoldSeg.begin = some 0
  increasing : p.segs.Pairwise fun s s' => s.begin < s'.begin
  own : ∀ k bid c, bid < cfg.nchannels → c < kGpus → cfg.blockBegin count k bid c < count →
    ⟨cfg.blockBegin count k bid c, (c + cfg.delta) % 8, bid % cfg.nrings⟩ ∈ p.segs
  element : ∀ i < count, ∀ k bid c, cfg.InBlock count k bid c i →
    ∃ s, p.lookup i = some s ∧ s.start = (c + cfg.delta) % 8 ∧ s.ring = bid % cfg.nrings

/-- The iterations in front of the last one. They have chunks of the greatest size. -/
def fullIterations : ℕ := (count - 1) / (cfg.loop * maxChunk)

/-- What they leave to the last one. -/
def lastElements : ℕ := count - cfg.fullIterations count * (cfg.loop * maxChunk)

/-- The chunks that hold an element. -/
def blockCount : ℕ :=
  cfg.fullIterations count * cfg.loop +
    (cfg.lastElements count + cfg.rcs count (cfg.lastElements count) - 1) /
      cfg.rcs count (cfg.lastElements count)

end FoldConfig

end Ds4.Fold
