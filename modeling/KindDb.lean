import KindDb.Lib.Runs
import KindDb.Lib.PostingIndex
import KindDb.Lib.Overlay
import KindDb.Cache.LruCache
import KindDb.Schema.Registry
import KindDb.Schema.Validate
import KindDb.SerdeJson
import KindDb.Wal
import KindDb.WalBytes
import KindDb.Lib.Pending
import KindDb.Server.Programs
import KindDb.Server.Versions
import KindDb.Server.Effects
import KindDb.Server.Pool
import KindDb.Server.Sync
import KindDb.Server.Scans
import KindDb.Properties.ReadCoherence
import KindDb.Properties.Durability
import KindDb.Properties.FirstCommitter
import KindDb.Properties.IndexExactness
import KindDb.Properties.RecoveredIndex
import KindDb.Properties.CheckpointCrash
import KindDb.Properties.CheckpointRace
import KindDb.Properties.SnapshotInstall
import KindDb.Properties.VersionReuse
import KindDb.Properties.RecoveredVersions
import KindDb.Properties.CatchUp
import KindDb.Properties.SchemaEnforcement
import KindDb.Properties.Eviction
import KindDb.Properties.LogOrder
import KindDb.Properties.TornTail
import KindDb.Properties.ReopenedLog
import KindDb.Properties.InterruptedSnapshot
import KindDb.Properties.ReplicaRestart
import KindDb.Properties.Convergence
import KindDb.Properties.LinearizedRuns
import KindDb.Properties.CasContract
import KindDb.Properties.AtomicCommit
import KindDb.Properties.WatchMirror
import KindDb.Server.Query
import KindDb.Schema.Lexer
import KindDb.Schema.Parser
import KindDb.Properties.QueryPaging
import KindDb.Properties.QuerySoundness
import KindDb.Properties.ReplicaIndex
import KindDb.Properties.AckedLogged
import KindDb.Server.Indexing
import KindDb.Properties.ConcurrentIndexing
import KindDb.Server.Accesses
import KindDb.Server.Workers
import KindDb.Properties.EvictionRace
import KindDb.Properties.CacheAgreement
import KindDb.Properties.ScanExactness
import KindDb.Properties.TtlArithmetic
import KindDb.Properties.SnapshotSender
import KindDb.Schema.Conformance
import KindDb.Schema.Grammar
import KindDb.Schema.ParserExact
import KindDb.Schema.RoundTrip
import KindDb.Properties.LogReaders
import KindDb.Properties.CorruptRecord
import KindDb.Server.SnapshotBytes
import KindDb.Server.CheckpointAlone
import KindDb.Properties.CheckpointRoundTrip
import KindDb.Properties.ReplayAbsorption
import KindDb.Schema.Recursion
import KindDb.Schema.LazyParser
import KindDb.Schema.Routing
import KindDb.Cache.LruRuns
import KindDb.Cache.Lfu
import KindDb.Cache.Fifo
import KindDb.Properties.ExactlyOnce
import KindDb.Properties.InOrder
import KindDb.Properties.Progress
import KindDb.Properties.StoreRefinement
import KindDb.Properties.ReplicaReads
import KindDb.Properties.WatchLag
import KindDb.Cache.LruInclusion
import KindDb.Cache.Contract
import KindDb.Properties.CasChain
import KindDb.Properties.WatchRace
