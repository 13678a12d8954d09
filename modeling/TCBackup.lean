import TCBackup.Lib.ByteFile
import TCBackup.Lib.Numeral
import TCBackup.Lib.ChainTable
import TCBackup.Lib.Labelled
import TCBackup.Lib.Layout
import TCBackup.Lib.Transfer
import TCBackup.Lib.Memory
import TCBackup.Lib.RollingHash
import TCBackup.Lib.XorLinear
import TCBackup.Lib.Sha1
import TCBackup.Lib.Linked
import TCBackup.Global
import TCBackup.Bnet
import TCBackup.Framing
import TCBackup.UpdateAttr
import TCBackup.Commands
import TCBackup.Server.HTable
import TCBackup.Server.Recipe
import TCBackup.Server.Index
import TCBackup.Server.RecipeHistory
import TCBackup.Server.Backup
import TCBackup.Server.IndexInserts
import TCBackup.Server.RecipeHandover
import TCBackup.Server.NewBackup
import TCBackup.Server.RecipeOwner
import TCBackup.Server.Replies
import TCBackup.Server.Clients
import TCBackup.Server.Workq
import TCBackup.Server.Accounts
import TCBackup.Client.HTable
import TCBackup.Client.Recipe
import TCBackup.Client.Disk
import TCBackup.Client.ExtremeBinning
import TCBackup.Client.BinVolumes
import TCBackup.Client.Bins
import TCBackup.Client.BinPersistence
import TCBackup.Client.Chunking
import TCBackup.Client.Reads
import TCBackup.Client.Sha1
import TCBackup.Client.BufferedChunks
import TCBackup.Client.RabinWindow
import TCBackup.Client.ChunkCuts
import TCBackup.Client.ChunkOverhead
import TCBackup.Lib.Handoff
import TCBackup.Client.ChunkDedup
import TCBackup.Client.ChunkLife
import TCBackup.Client.ChunkBuffer
import TCBackup.Client.Cfl
import TCBackup.Client.PerfectRewrite
import TCBackup.Client.Capping
import TCBackup.Client.ChunkDedupModule
import TCBackup.Client.DedupMoves
import TCBackup.Client.DedupStream
import TCBackup.Client.Container
import TCBackup.Client.Store
import TCBackup.Client.ContainerNames
import TCBackup.Client.PipelineBackup
import TCBackup.Pipeline.Accounting
import TCBackup.Pipeline.Pairing
import TCBackup.Pipeline.Sessions
import TCBackup.Pipeline.RecipeTransport
import TCBackup.Server.Restore
import TCBackup.Client.Restore
import TCBackup.Restore.Pairing
import TCBackup.ReceiveBuffers
import TCBackup.Client.RestoreCache
import TCBackup.Client.ContainerFormat
import TCBackup.Client.StoreRuns
import TCBackup.Client.Located
import TCBackup.Client.IndexSound
import TCBackup.Client.RestoreClient
import TCBackup.Restore.Completeness
import TCBackup.Client.CacheNodes
import TCBackup.Lib.Lru
import TCBackup.Client.CacheSimulator
import TCBackup.Client.Attempts
import TCBackup.Client.CappingLists
import TCBackup.Client.SortSegments
import TCBackup.Client.CappingBatches
import TCBackup.Client.CappingRefines
import TCBackup.Client.ContainerUsage
import TCBackup.Client.Settling
import TCBackup.Client.PerfectUsage
import TCBackup.Client.RewrittenOnce
import TCBackup.Client.CflRuns
import TCBackup.Client.CflCount
import TCBackup.Client.FailedStores
import TCBackup.Client.DamagedContainers
import TCBackup.Client.BinSizes
import TCBackup.Client.LostBins
import TCBackup.Client.ReadLoops
import TCBackup.Client.ReadTrace
import TCBackup.Client.TraceEnd
import TCBackup.Client.ChunkLists
import TCBackup.Pipeline.StatusAgreement
import TCBackup.Server.DeleteJob
import TCBackup.Server.VolumeLock
import TCBackup.Client.CflAttempts
import TCBackup.Client.PerfectAttempts
import TCBackup.Client.ReleasedLocks
import TCBackup.Client.BackupClient
import TCBackup.Client.BackupRecords
import TCBackup.Client.BackupRuns
import TCBackup.Client.StoredBytes
import TCBackup.Client.RoundTrip
import TCBackup.Client.CrashIndex
import TCBackup.Client.CrashWrites
import TCBackup.Client.NewChunks
import TCBackup.Client.Drivers
import TCBackup.Client.CrashOrder
import TCBackup.Client.CreateFile
import TCBackup.Client.TableMemory
import TCBackup.Client.TableRefines
import TCBackup.Client.TableMap
import TCBackup.Client.TableGrowth
import TCBackup.Server.IndexTable
import TCBackup.Server.IndexRuns
import TCBackup.Lib.BinaryPoly
import TCBackup.Client.Polynomials
import TCBackup.Client.RollingFingerprint
import TCBackup.Client.CacheFlush
import TCBackup.Lib.DoublyLinked
import TCBackup.Client.DList
import TCBackup.Client.DListRuns
import TCBackup.Client.SegStatistics
import TCBackup.Client.CrashRuns
import TCBackup.Lib.Monitor
import TCBackup.SyncQueue
import TCBackup.Client.Cloud
import TCBackup.Client.ContainerUploads
import TCBackup.PlainBackup
import TCBackup.BackupJobs
import TCBackup.Client.PolicyRuns
import TCBackup.Client.PolicyRestores
import TCBackup.Client.ExactStore
import TCBackup.Client.RestoredFiles
import TCBackup.TreeJobs
