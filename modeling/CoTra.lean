import CoTra.Runs
import CoTra.Memory
import CoTra.WriteBuffer
import CoTra.CreditConservation
import CoTra.SlotReuse
import CoTra.WriteRuns
import CoTra.ReleaseReserve
import CoTra.BuildSync
import CoTra.BuildSyncRounds
import CoTra.V3Index
import CoTra.V3Layout
import CoTra.NghExchange
import CoTra.V3Files
import CoTra.V3Dispatch
import CoTra.SubQueryTotals
import CoTra.SubQueryEffects
import CoTra.Roster
import CoTra.CountedWork
import CoTra.Token
import CoTra.SyncFilter
import CoTra.ForkSync
import CoTra.CoreSelection
import CoTra.Codec
import CoTra.Progress
import CoTra.QueryWire
import CoTra.TaskCodec
import CoTra.BatchSize
import CoTra.Scheduling
import CoTra.Ownership
import CoTra.RemoteFilter
import CoTra.TopTraversal
import CoTra.B2Merge
import CoTra.ReplicaMerge
import CoTra.ReplicaDispatch
import CoTra.BuildAlignment
import CoTra.ShardPartition
import CoTra.V3Single
import CoTra.Batches
import CoTra.Forwarding
import CoTra.Quiescence
import CoTra.Termination
import CoTra.HashTable
import CoTra.AsyncRead
import CoTra.CoreBound
import CoTra.LabelMaps
import CoTra.McsBarrier
import CoTra.SplitTree
import CoTra.ThreadPool
import CoTra.Spans
import CoTra.DoAll
import CoTra.PerBackend
import CoTra.ServerConnect
import CoTra.Locked
import CoTra.WorkSteal
import CoTra.CachedStreams
import CoTra.MergeShards
import CoTra.B1File
import CoTra.B2File
import CoTra.MergeCursor
import CoTra.NearestCenter
import CoTra.BeamSearch
import CoTra.AsyncSearch
import CoTra.BufferReuse
import CoTra.Visits
import CoTra.Copies
import CoTra.Duplicates
import CoTra.RandomSlices
import CoTra.B1Address
import CoTra.RemoteSearch
import CoTra.ShardRetrieval
import CoTra.ReadBatches
import CoTra.MachineNames
import CoTra.V3Slots
import CoTra.DispatchPasses
