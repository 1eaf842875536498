import RisePir.Client.Accumulation
import RisePir.Client.Collecting
import RisePir.Client.Core
import RisePir.Client.Delta
import RisePir.Client.EndToEnd
import RisePir.Client.Lookup
import RisePir.Client.Rewind
import RisePir.Client.Robustness
import RisePir.Client.Selection
import RisePir.Client.Tracking
import RisePir.Feed.Endpoints
import RisePir.Feed.Failover
import RisePir.Feed.Mock
import RisePir.Feed.Rpc
import RisePir.Feed.Snapshot
import RisePir.Feed.Trace
import RisePir.Http.Bundles
import RisePir.Http.Exchange
import RisePir.Http.Formats
import RisePir.Http.Lifetime
import RisePir.Http.Node
import RisePir.Http.Ranges
import RisePir.Http.Resume
import RisePir.Http.Retention
import RisePir.Http.Serving
import RisePir.Http.Setup
import RisePir.Http.SetupWindow
import RisePir.Http.Shapes
import RisePir.Http.Wire
import RisePir.Lib.AlgorithmR
import RisePir.Lib.Bits
import RisePir.Lib.Digits
import RisePir.Lib.FlatMatrix
import RisePir.Lib.Interleaving
import RisePir.Lib.KeyedAmounts
import RisePir.Lib.LastEffect
import RisePir.Lib.Mixing
import RisePir.Lib.Pool
import RisePir.Lib.Rounding
import RisePir.Lib.Sparse
import RisePir.Lib.Splice
import RisePir.Lib.Text
import RisePir.Lib.Transitions
import RisePir.Proto.Capacity
import RisePir.Proto.Coalescing
import RisePir.Proto.Codec
import RisePir.Proto.Decoding
import RisePir.Proto.Sizing
import RisePir.Proto.Types
import RisePir.Proto.Value
import RisePir.Proto.ValueBits
import RisePir.Proto.Varint
import RisePir.Rpc.Autosave
import RisePir.Rpc.Bootstrap
import RisePir.Rpc.ChainFeed
import RisePir.Rpc.ChainToCaller
import RisePir.Rpc.Checkpoints
import RisePir.Rpc.Corrections
import RisePir.Rpc.Coverage
import RisePir.Rpc.CrashSafety
import RisePir.Rpc.Durability
import RisePir.Rpc.Epochs
import RisePir.Rpc.Escalation
import RisePir.Rpc.Following
import RisePir.Rpc.Framing
import RisePir.Rpc.Front
import RisePir.Rpc.Grammar
import RisePir.Rpc.HardRefresh
import RisePir.Rpc.Journal
import RisePir.Rpc.JsonRpc
import RisePir.Rpc.Mainnet
import RisePir.Rpc.Moves
import RisePir.Rpc.NativeSession
import RisePir.Rpc.Prefetch
import RisePir.Rpc.Recovery
import RisePir.Rpc.Replay
import RisePir.Rpc.Reservoir
import RisePir.Rpc.Restore
import RisePir.Rpc.Retry
import RisePir.Rpc.Sidecar
import RisePir.Rpc.SnapshotAudit
import RisePir.Rpc.SnapshotRewind
import RisePir.Rpc.State
import RisePir.Rpc.StateFile
import RisePir.Rpc.StatePath
import RisePir.Rpc.Traffic
import RisePir.Rpc.TrueBalances
import RisePir.Server.CellDelta
import RisePir.Server.Core
import RisePir.Server.DeltaRing
import RisePir.Server.Dispatch
import RisePir.Server.Effect
import RisePir.Server.Filling
import RisePir.Server.Fold
import RisePir.Server.Intact
import RisePir.Server.Ledger
import RisePir.Server.Refinement
import RisePir.Server.Refusal
import RisePir.Server.Run
import RisePir.Server.Small
import RisePir.Server.Telescope
import RisePir.Server.Verified
import RisePir.Upstream.Cuckoo
import RisePir.Upstream.Pir
import RisePir.Upstream.ReferencePir
import RisePir.Upstream.ReferenceTable
import RisePir.Upstream.Slots
import RisePir.Wasm.BrowserSession
import RisePir.Web.CacheRuns
import RisePir.Web.Conversation
import RisePir.Web.HintCache
import RisePir.Web.PirSession
import RisePir.Web.Usability
