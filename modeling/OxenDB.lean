import OxenDB.Lib.Bytes
import OxenDB.Lib.Transition
import OxenDB.Lib.Termination
import OxenDB.Lib.Overlay
import OxenDB.Lib.TornWrites
import OxenDB.Lib.Crc
import OxenDB.Lib.BitErrors
import OxenDB.Lib.MulHash
import OxenDB.Checksum
import OxenDB.ChecksumPaths
import OxenDB.Error
import OxenDB.Page
import OxenDB.FileHeader
import OxenDB.WalRecord
import OxenDB.Corruption
import OxenDB.Wal
import OxenDB.WalFile
import OxenDB.PageMap
import OxenDB.Disk
import OxenDB.Recovery
import OxenDB.Replay
import OxenDB.Open
import OxenDB.Attempts
import OxenDB.WalSessions
import OxenDB.BufferPool.Shard
import OxenDB.BufferPool.Pool
import OxenDB.BufferPool.Clock
import OxenDB.BufferPool.Cache
import OxenDB.BufferPool.Views
import OxenDB.BufferPool.Books
import OxenDB.BufferPool.Invariant
import OxenDB.BufferPool.ShardSteps
import OxenDB.BufferPool.PinSteps
import OxenDB.BufferPool.Refinement
import OxenDB.BufferPool.Calls
import OxenDB.BufferPool.CallSteps
import OxenDB.BufferPool.PoolCalls
import OxenDB.BufferPool.Coherence
import OxenDB.BufferPool.Turns
import OxenDB.BufferPool.Threads
import OxenDB.BufferPool.Holds
import OxenDB.BufferPool.LockOrder
import OxenDB.BufferPool.PinLimit
import OxenDB.BufferPool.Sharding
import OxenDB.BufferPool.WorkingSet
import OxenDB.BufferPool.Sequential
import OxenDB.BufferPool.Progress
import OxenDB.BufferPool.Sealed
import OxenDB.BufferPool.Edits
import OxenDB.BufferPool.FlushAll
import OxenDB.Database.State
import OxenDB.Database.Step
import OxenDB.Database.History
import OxenDB.Database.Owned
import OxenDB.Database.Locks
import OxenDB.Database.Effects
import OxenDB.Database.Writer
import OxenDB.Database.Stored
import OxenDB.Database.Logged
import OxenDB.Database.LogSteps
import OxenDB.Database.Counts
import OxenDB.Database.StoreSteps
import OxenDB.Database.Invariant
import OxenDB.Database.Create
import OxenDB.Database.Rollback
import OxenDB.Database.Durable
import OxenDB.Database.DurableSteps
import OxenDB.Database.Crash
import OxenDB.Database.Images
import OxenDB.Database.Progress
import OxenDB.Database.Publish
import OxenDB.Database.WriteAhead
import OxenDB.Database.Blocks
import OxenDB.Database.Checkpoint
import OxenDB.Database.Poison
import OxenDB.Database.Report
import OxenDB.Database.LogDamage
import OxenDB.Database.Success
import OxenDB.Database.Handles
import OxenDB.Database.LogSize
import OxenDB.Database.Untouched
import OxenDB.Database.Sealed
import OxenDB.Database.Restart
import OxenDB.Database.Killed
import OxenDB.Database.Lifetime
import OxenDB.Database.Store
import OxenDB.Database.ReadTxns
import OxenDB.Database.Payload
import OxenDB.Offsets
