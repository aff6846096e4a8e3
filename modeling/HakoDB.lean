import HakoDB.Lib.ByteCodec
import HakoDB.Lib.FramedLog
import HakoDB.Lib.BinarySearch
import HakoDB.Lib.Varint
import HakoDB.Lib.SortedList
import HakoDB.Lib.HashMap
import HakoDB.Lib.LastWriter
import HakoDB.Lib.TableSum
import HakoDB.Basic
import HakoDB.Storage.Crc32
import HakoDB.Storage.Crypto
import HakoDB.Storage.WalOp
import HakoDB.Storage.Wal
import HakoDB.Storage.WalLog
import HakoDB.Storage.WalSessions
import HakoDB.Document.Value
import HakoDB.Document.HakoDoc
import HakoDB.Document.Codec
import HakoDB.Document.Accepted
import HakoDB.Storage.Blob
import HakoDB.Storage.Segment
import HakoDB.Storage.Shard
import HakoDB.Storage.SortedView
import HakoDB.Engine.Schema
import HakoDB.Engine.WriteBatch
import HakoDB.Engine.Sequential
import HakoDB.Sync.Replicated
import HakoDB.Sync.Conflict
import HakoDB.Sync.Convergence
import HakoDB.Storage.Maintenance
import HakoDB.Storage.Recovery
import HakoDB.Storage.Housekeeping
import HakoDB.Storage.Crash
import HakoDB.Storage.Resegmented
import HakoDB.Storage.Derived
import HakoDB.Engine.BatchPrep
import HakoDB.Engine.BatchSteps
import HakoDB.Document.Order
import HakoDB.Query.Filter
import HakoDB.Lib.Pairing
import HakoDB.Lib.Places
import HakoDB.Storage.Resolve
import HakoDB.Storage.BatchOrder
import HakoDB.Memory.PageCache
import HakoDB.Storage.SegmentReads
import HakoDB.Storage.Reservation
import HakoDB.Engine.PutPhases
import HakoDB.Engine.BlobRoundTrip
import HakoDB.Index.Definition
import HakoDB.Index.Ledger
import HakoDB.Index.Claims
import HakoDB.Index.LedgerExact
import HakoDB.Storage.WalFault
import HakoDB.Engine.FailedBatch
import HakoDB.Lib.Attempt
import HakoDB.Engine.Access
import HakoDB.Engine.Denied
import HakoDB.Query.Plan
import HakoDB.Lib.OrderedMap
import HakoDB.Index.Manager
import HakoDB.Query.Planner
import HakoDB.Query.Matcher
import HakoDB.Query.TopHeap
import HakoDB.Query.Scan
import HakoDB.Query.Executor
import HakoDB.Query.Lanes
import HakoDB.Query.Paging
import HakoDB.Document.Json
import HakoDB.Engine.GeneratedIds
import HakoDB.Engine.HybridClock
import HakoDB.Document.Persisted
import HakoDB.Sync.CloudIngest
import HakoDB.Sync.Catchup
import HakoDB.Sync.Handshake
import HakoDB.Query.RangeCalls
import HakoDB.Lib.ByteOrder
import HakoDB.Storage.WalTail
import HakoDB.Sync.Tailer
import HakoDB.Lib.ReadAll
import HakoDB.Lib.TextOrder
import HakoDB.Lib.ByteLanes
import HakoDB.Document.Views
import HakoDB.Document.JsonView
import HakoDB.Document.JsonTree
import HakoDB.Index.RawScalar
import HakoDB.Index.Backfill
import HakoDB.Document.Projection
import HakoDB.Query.RowMatch
import HakoDB.Query.PlanCache
import HakoDB.Lib.LogReader
import HakoDB.Storage.WalReading
import HakoDB.Engine.LoggedOps
import HakoDB.Query.KeyRanges
import HakoDB.Query.CompareLaws
import HakoDB.Lib.Metered
import HakoDB.Document.Capacities
import HakoDB.Index.TupleKeys
import HakoDB.Index.PrefixScan
import HakoDB.Query.RowVerdict
import HakoDB.Query.ViewMatch
import HakoDB.Lib.ThreeWay
import HakoDB.Lib.TopItems
import HakoDB.Lib.Pieces
import HakoDB.Query.ValueOrder
import HakoDB.Lib.SaturatingSum
import HakoDB.Lib.GroupFold
import HakoDB.Query.Grouping
import HakoDB.Memory.CacheRuns
import HakoDB.Index.Words
import HakoDB.Index.DotProduct
import HakoDB.Index.VectorQuery
import HakoDB.Engine.WeightedPaths
import HakoDB.Query.TopPage
import HakoDB.Engine.SoftDel
import HakoDB.Index.LedgerLoad
import HakoDB.Index.LedgerUndo
import HakoDB.Index.Backlinks
import HakoDB.Index.Removal
import HakoDB.Lib.GreedyOrder
import HakoDB.Engine.TopoSort
import HakoDB.Engine.GraphMemo
import HakoDB.Engine.GraphParts
import HakoDB.Engine.FindPaths
import HakoDB.Engine.SimplePaths
import HakoDB.Engine.TraverseQuery
import HakoDB.Sync.Handoff
import HakoDB.Sync.CollectionVersion
import HakoDB.Sync.Echo
