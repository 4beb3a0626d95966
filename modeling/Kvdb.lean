import Kvdb.Base.Types
import Kvdb.Cache.BlockBytes
import Kvdb.Cache.Contents
import Kvdb.Cache.Counters
import Kvdb.Cache.ExactLru
import Kvdb.Cache.FlatCache
import Kvdb.Cache.FlatLists
import Kvdb.Cache.FlatShard
import Kvdb.Cache.FlatTable
import Kvdb.Cache.Freshness
import Kvdb.Cache.KVCache
import Kvdb.Cache.LastPut
import Kvdb.Cache.SizedShard
import Kvdb.Engine.AbortRecovery
import Kvdb.Engine.Answers
import Kvdb.Engine.Batch
import Kvdb.Engine.BatchIsolation
import Kvdb.Engine.BatchReads
import Kvdb.Engine.BatchServing
import Kvdb.Engine.BatchVisibility
import Kvdb.Engine.CacheAgreement
import Kvdb.Engine.CacheKeys
import Kvdb.Engine.CacheRace
import Kvdb.Engine.Calls
import Kvdb.Engine.CatalogueRecovery
import Kvdb.Engine.Columns
import Kvdb.Engine.Coverage
import Kvdb.Engine.Descents
import Kvdb.Engine.Durability
import Kvdb.Engine.FileGC
import Kvdb.Engine.FlushFailure
import Kvdb.Engine.FlushReads
import Kvdb.Engine.FrozenBound
import Kvdb.Engine.Interleaving
import Kvdb.Engine.LastWrite
import Kvdb.Engine.Levels
import Kvdb.Engine.ManualCompaction
import Kvdb.Engine.Naming
import Kvdb.Engine.NodeReclaim
import Kvdb.Engine.Outputs
import Kvdb.Engine.PendingFlushes
import Kvdb.Engine.PrefixScan
import Kvdb.Engine.Provenance
import Kvdb.Engine.RangeIterator
import Kvdb.Engine.RangeMerge
import Kvdb.Engine.RangeScan
import Kvdb.Engine.Recency
import Kvdb.Engine.Recovery
import Kvdb.Engine.ReopenedClock
import Kvdb.Engine.ReplayedVersions
import Kvdb.Engine.ScanContents
import Kvdb.Engine.ScanWalk
import Kvdb.Engine.Serving
import Kvdb.Engine.SkippedTables
import Kvdb.Engine.SnapshotReads
import Kvdb.Engine.Snapshots
import Kvdb.Engine.State
import Kvdb.Engine.Steps
import Kvdb.Engine.TableRecords
import Kvdb.Engine.Tables
import Kvdb.Engine.Timestamps
import Kvdb.Engine.WriteRace
import Kvdb.Lib.Bisect
import Kvdb.Lib.FixedArray
import Kvdb.Lib.InputStream
import Kvdb.Lib.Lexicographic
import Kvdb.Lib.Links
import Kvdb.Lib.LittleEndian
import Kvdb.Lib.Loop
import Kvdb.Lib.Lru
import Kvdb.Lib.Pack
import Kvdb.Lib.ReadOrder
import Kvdb.Lib.Refines
import Kvdb.Lib.Region
import Kvdb.Lib.Runs
import Kvdb.Lib.Scan
import Kvdb.Lib.Segment
import Kvdb.Lib.ShiftRegister
import Kvdb.Log.BurstErrors
import Kvdb.Log.Bytes
import Kvdb.Log.Clock
import Kvdb.Log.Crc32
import Kvdb.Log.DamagedRecords
import Kvdb.Log.Manifest
import Kvdb.Log.ManifestBytes
import Kvdb.Log.ManifestCrash
import Kvdb.Log.ManifestPrefix
import Kvdb.Log.ManifestReplay
import Kvdb.Log.Recover
import Kvdb.Log.ReferenceCrc
import Kvdb.Log.SyncRace
import Kvdb.Log.SyncedMark
import Kvdb.Log.TornPrefix
import Kvdb.Log.TornTail
import Kvdb.Log.Trim
import Kvdb.Log.Wal
import Kvdb.MemTable.Ascent
import Kvdb.MemTable.Balance
import Kvdb.MemTable.BlobPtrs
import Kvdb.MemTable.ByteHeap
import Kvdb.MemTable.ByteInserts
import Kvdb.MemTable.ByteTree
import Kvdb.MemTable.ChainWalk
import Kvdb.MemTable.Contents
import Kvdb.MemTable.Descent
import Kvdb.MemTable.DrainBuffers
import Kvdb.MemTable.Flags
import Kvdb.MemTable.Heap
import Kvdb.MemTable.Holds
import Kvdb.MemTable.InOrder
import Kvdb.MemTable.Inserts
import Kvdb.MemTable.Keys
import Kvdb.MemTable.Layout
import Kvdb.MemTable.NodeBytes
import Kvdb.MemTable.Nodes
import Kvdb.MemTable.Order
import Kvdb.MemTable.PageBytes
import Kvdb.MemTable.PageSplit
import Kvdb.MemTable.Paths
import Kvdb.MemTable.Reads
import Kvdb.MemTable.Retire
import Kvdb.MemTable.Routes
import Kvdb.MemTable.Tree
import Kvdb.MemTable.Walk
import Kvdb.SSTable.AbortedBlocks
import Kvdb.SSTable.Agreement
import Kvdb.SSTable.BlockAccess
import Kvdb.SSTable.BlockCursor
import Kvdb.SSTable.BloomBytes
import Kvdb.SSTable.ByteLookups
import Kvdb.SSTable.CachedReads
import Kvdb.SSTable.ColdIterator
import Kvdb.SSTable.Compact
import Kvdb.SSTable.Contents
import Kvdb.SSTable.File
import Kvdb.SSTable.FileIterator
import Kvdb.SSTable.FileSteps
import Kvdb.SSTable.FlushedFile
import Kvdb.SSTable.Format
import Kvdb.SSTable.Iterate
import Kvdb.SSTable.LevelFiles
import Kvdb.SSTable.LookupBytes
import Kvdb.SSTable.Merge
import Kvdb.SSTable.MetadataBytes
import Kvdb.SSTable.MetadataOfFile
import Kvdb.SSTable.ReadAll
import Kvdb.SSTable.ReadAllEnds
import Kvdb.SSTable.Reader
import Kvdb.SSTable.Seek
import Kvdb.SSTable.SeekExact
import Kvdb.SSTable.Selection
import Kvdb.SSTable.Snappy
import Kvdb.SSTable.SortedFile
import Kvdb.SSTable.SoughtFile
import Kvdb.SSTable.VersionOrder
import Kvdb.SSTable.Writers
import Kvdb.Server.BatchCalls
import Kvdb.Server.Batches
import Kvdb.Server.Cas
import Kvdb.Server.Charges
import Kvdb.Server.Flags
import Kvdb.Server.Moves
import Kvdb.Server.Order
import Kvdb.Server.Owners
import Kvdb.Server.Promises
import Kvdb.Server.Protocol
import Kvdb.Server.State
import Kvdb.Snapshot.Readers
import Kvdb.Snapshot.Tracker
import Kvdb.Tombstones
