import Ds4.Bytes.Search
import Ds4.Bytes.Guard
import Ds4.Bytes.Ascii
import Ds4.Bytes.Apart
import Ds4.Json.Text
import Ds4.Json.Reader
import Ds4.Json.Correct
import Ds4.Json.Cursor
import Ds4.Json.Agree
import Ds4.Json.Rewrite
import Ds4.Dsml.Syntax
import Ds4.Dsml.Escape
import Ds4.Dsml.Render
import Ds4.Dsml.Parse
import Ds4.Dsml.Args
import Ds4.Dsml.ParseRender
import Ds4.Dsml.Members
import Ds4.Dsml.RoundTrip
import Ds4.Stream.Resumable
import Ds4.Dsml.Tracker
import Ds4.Dsml.ToolStart
import Ds4.Dsml.Block
import Ds4.Dsml.TrackerRuns
import Ds4.Dsml.TrackerReference
import Ds4.Appliance.SessionTable
import Ds4.Appliance.SessionRuns
import Ds4.Appliance.Batch
import Ds4.Appliance.Server
import Ds4.Appliance.Positions
import Ds4.Appliance.Admission
import Ds4.Chat.Render
import Ds4.Chat.Turns
import Ds4.Chat.LiveTail
import Ds4.Chat.VisibleKey
import Ds4.Chat.VisibleLaw
import Ds4.Chat.ResponsesInput
import Ds4.Chat.Pieces
import Ds4.Chat.ItemSteps
import Ds4.Chat.InputOrder
import Ds4.Chat.ResponsesOrder
import Ds4.State.Wp
import Ds4.Gguf.Cursor
import Ds4.Gguf.Directory
import Ds4.Gguf.Layout
import Ds4.Gguf.Safety
import Ds4.Gguf.Sizes
import Ds4.Parts.Cut
import Ds4.Parts.Pattern
import Ds4.Tokenizer.Scanner
import Ds4.Tokenizer.Bpe
import Ds4.Tokenizer.ChatParts
import Ds4.Tokenizer.Split
import Ds4.Tokenizer.SplitScan
import Ds4.Tokenizer.SplitParts
import Ds4.Tokenizer.ScanChars
import Ds4.Tokenizer.SplitAgree
import Ds4.Engine.Compressor
import Ds4.Engine.CompressorRuns
import Ds4.Parts.Tile
import Ds4.Context.KvPlan
import Ds4.Context.KvLayout
import Ds4.Parts.Pairing
import Ds4.Packs.Number
import Ds4.Packs.IndexFile
import Ds4.Packs.Index
import Ds4.Packs.IndexFormat
import Ds4.Packs.Reconcile
import Ds4.Packs.Turbomind
import Ds4.Context.Policy
import Ds4.Context.TurbomindBind
import Ds4.Parts.Linked
import Ds4.Memory.ToolMemory
import Ds4.Memory.Represents
import Ds4.Memory.Put
import Ds4.Memory.Contents
import Ds4.Memory.Recency
import Ds4.Bytes.LittleEndian
import Ds4.Memory.ToolMap
import Ds4.Memory.ToolBlocks
import Ds4.Memory.ToolMapWalk
import Ds4.Memory.ToolMapRecords
import Ds4.Memory.ToolMapRoundTrip
import Ds4.Memory.MemoryRuns
import Ds4.Stream.Window
import Ds4.Stream.Stops
import Ds4.Stream.StopRuns
import Ds4.Stream.ToolMarkers
import Ds4.Stream.MarkerScan
import Ds4.Stream.MarkerRuns
import Ds4.Bytes.Sha1
import Ds4.KvCache.Entry
import Ds4.KvCache.Lookup
import Ds4.KvCache.Store
import Ds4.KvCache.Valid
import Ds4.KvCache.StoreLookup
import Ds4.Context.PackBind
import Ds4.Context.Open
import Ds4.Context.MemoryBudget
import Ds4.Context.ShapeText
import Ds4.Context.TensorSizes
import Ds4.Parts.Grouping
import Ds4.Parts.Launch
import Ds4.Routing.Planner
import Ds4.Routing.StablePlan
import Ds4.Routing.HostLoops
import Ds4.Routing.HostPlan
import Ds4.Routing.HostPlanners
import Ds4.Routing.GpuPlan
import Ds4.Routing.GpuPlanner
import Ds4.Routing.PlanAgree
import Ds4.Routing.Compose
import Ds4.Routing.ComposeSum
import Ds4.Routing.ComposeAgree
import Ds4.State.Calls
import Ds4.State.Sim
import Ds4.Stage.Cache
import Ds4.Stage.CacheLaws
import Ds4.Stage.Scheduler
import Ds4.Stage.KvCover
import Ds4.Stage.Attention
import Ds4.Stage.Decode
import Ds4.Stage.Snapshot
import Ds4.Stage.Alike
import Ds4.Stage.OpRuns
import Ds4.Stage.Reset
import Ds4.Stage.SnapshotLaws
import Ds4.Stage.SnapshotRuns
import Ds4.Replay.Generate
import Ds4.Replay.Single
import Ds4.Replay.BatchPlan
import Ds4.Replay.BatchRuns
import Ds4.Appliance.Connections
import Ds4.Appliance.SessionLru
import Ds4.Context.Binding
import Ds4.Context.ExpertViews
import Ds4.Gguf.TensorSpans
import Ds4.Http.Independence
import Ds4.Parts.Ring
import Ds4.Prefill.RawRing
import Ds4.Tp.Contract
import Ds4.Tp.ContractTiles
import Ds4.Tp.KvCovers
import Ds4.Parts.Select
import Ds4.KvCache.Evict
import Ds4.KvCache.EvictSound
import Ds4.Parts.TopK
import Ds4.Routing.Select
import Ds4.Routing.SelectSound
import Ds4.Parts.Rows
import Ds4.Parts.Reduce
import Ds4.Parts.Warp
import Ds4.Head.TopTokens
import Ds4.Head.ShardTop1
import Ds4.Head.Top1Agree
import Ds4.Fold.Plan
import Ds4.Fold.PlanSound
import Ds4.Appliance.HttpRead
import Ds4.Appliance.HttpReadWhole
import Ds4.Json.Literals
import Ds4.Appliance.JsonBody
import Ds4.Norm.Stable
import Ds4.RouteInput.Kernels
import Ds4.RouteInput.PackAgree
import Ds4.Parts.Columns
import Ds4.Norm.Shards
import Ds4.Norm.LayerMix
import Ds4.Norm.RouterLogits
import Ds4.Norm.OutputHead
import Ds4.Parts.Nearest
import Ds4.Tp.F8Codec
import Ds4.Tp.F8Format
import Ds4.Tp.F8Nearest
import Ds4.Tp.F8Rows
import Ds4.Parts.Blocks
import Ds4.Bytes.Sha1Standard
import Ds4.Bytes.Sha1Context
import Ds4.Stream.ThinkingRuns
import Ds4.Json.Strings
import Ds4.Json.Skip
import Ds4.Chat.Delimiters
import Ds4.KvCache.Lengths
import Ds4.KvCache.Continued
import Ds4.Json.Print
import Ds4.Parts.Buffer
import Ds4.Appliance.Replies
