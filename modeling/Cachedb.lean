import Cachedb.Lib.SortedMap
import Cachedb.Lib.Cut
import Cachedb.Lib.Layers
import Cachedb.Lib.Merge
import Cachedb.Lib.Trace
import Cachedb.Lib.Volume
import Cachedb.Lib.Resume
import Cachedb.Lib.Rounds
import Cachedb.Lib.Checked
import Cachedb.Lib.Crc
import Cachedb.Lib.Probing
import Cachedb.Model.Bytes
import Cachedb.Model.Record
import Cachedb.Model.Disk
import Cachedb.Model.Media
import Cachedb.Model.Wal
import Cachedb.Model.Memtable
import Cachedb.Model.Bloom
import Cachedb.Model.Sstable
import Cachedb.Model.Accesses
import Cachedb.Model.Compaction
import Cachedb.Model.Store
import Cachedb.Model.Resp
import Cachedb.Model.Command
import Cachedb.Model.Arithmetic
import Cachedb.Model.Connection
import Cachedb.Model.CheckedParser
import Cachedb.Model.FileNames
import Cachedb.Model.Server
import Cachedb.Proofs.LogReplay
import Cachedb.Proofs.LogFailure
import Cachedb.Proofs.Bloom
import Cachedb.Proofs.TableWrite
import Cachedb.Proofs.TableRead
import Cachedb.Proofs.Compaction
import Cachedb.Proofs.StoreSteps
import Cachedb.Proofs.Restart
import Cachedb.Spec.ReferenceMap
import Cachedb.Proofs.StoreMap
import Cachedb.Proofs.Calls
import Cachedb.Proofs.Decimal
import Cachedb.Spec.RequestGrammar
import Cachedb.Spec.RespValue
import Cachedb.Proofs.Parsing
import Cachedb.Proofs.RequestCodec
import Cachedb.Proofs.Replies
import Cachedb.Proofs.Sessions
import Cachedb.Proofs.Interest
import Cachedb.Proofs.Dispatch
import Cachedb.Proofs.Loop
import Cachedb.Proofs.Requests
import Cachedb.Proofs.GroupCommit
import Cachedb.Proofs.SyncPolicy
import Cachedb.Proofs.CrashRecovery
import Cachedb.Proofs.StaleLog
import Cachedb.Proofs.Refused
import Cachedb.Proofs.CrashCompaction
import Cachedb.Proofs.FlushAll
import Cachedb.Proofs.Recency
import Cachedb.Proofs.PowerCut
import Cachedb.Proofs.AckedWrites
import Cachedb.Proofs.TableScan
import Cachedb.Proofs.BrokenReads
import Cachedb.Proofs.Accesses
import Cachedb.Proofs.ReplayAgain
import Cachedb.Proofs.Checksum
import Cachedb.Proofs.FlippedBits
import Cachedb.Proofs.Grammar
import Cachedb.Proofs.LongLines
import Cachedb.Proofs.Buffered
import Cachedb.Proofs.Counters
import Cachedb.Proofs.Estimate
import Cachedb.Proofs.Sweep
import Cachedb.Proofs.RunSelection
import Cachedb.Proofs.Integers
import Cachedb.Proofs.ErrorReplies
import Cachedb.Proofs.Interleaving
import Cachedb.Proofs.Counting
import Cachedb.Proofs.Lifetimes
import Cachedb.Proofs.BatchDelete
import Cachedb.Proofs.Progress
import Cachedb.Proofs.TableNames
import Cachedb.Spec.Operations
import Cachedb.Spec.PlainServer
import Cachedb.Proofs.Operations
import Cachedb.Proofs.Clients
import Cachedb.Proofs.PlainServer
import Cachedb.Lib.Guarded
import Cachedb.Proofs.AlwaysOpens
import Cachedb.Proofs.Language
import Cachedb.Proofs.Limbo
import Cachedb.Proofs.ManyLives
import Cachedb.Proofs.Apart
import Cachedb.Proofs.Replicas
import Cachedb.Lib.Potential
import Cachedb.Proofs.Copying
import Cachedb.Proofs.Idle
import Cachedb.Proofs.FlushCost
import Cachedb.Proofs.Conversation
import Cachedb.Proofs.OnlySyncs
import Cachedb.Proofs.Books
