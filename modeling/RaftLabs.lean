import RaftLabs.Lib.Transition
import RaftLabs.Lib.AgreedLog
import RaftLabs.Lib.CommittedPrefix
import RaftLabs.Lib.Linearizability
import RaftLabs.Lib.Sessions
import RaftLabs.Lib.GoMap
import RaftLabs.Lib.GoString
import RaftLabs.Lib.GoRunes
import RaftLabs.Lib.GoJson
import RaftLabs.Lib.GoSlice
import RaftLabs.Lib.Grouping
import RaftLabs.Lib.Leveling
import RaftLabs.Lib.Cursor
import RaftLabs.Lib.Joins
import RaftLabs.Lib.Links
import RaftLabs.Lib.Search
import RaftLabs.Lib.Locality
import RaftLabs.Lib.Recording
import RaftLabs.Porcupine.Bitset
import RaftLabs.Porcupine.Checker
import RaftLabs.Porcupine.Refinement
import RaftLabs.Porcupine.Linking
import RaftLabs.Porcupine.Orders
import RaftLabs.Porcupine.KvModel
import RaftLabs.Porcupine.CheckSingle
import RaftLabs.Porcupine.Parallel
import RaftLabs.Porcupine.Operations
import RaftLabs.Porcupine.OpLog
import RaftLabs.Raft.Server
import RaftLabs.Raft.Handlers
import RaftLabs.Raft.Cluster
import RaftLabs.Raft.Memory
import RaftLabs.Raft.Merging
import RaftLabs.Raft.Votes
import RaftLabs.Raft.Elections
import RaftLabs.Raft.Safety
import RaftLabs.Raft.ServerSteps
import RaftLabs.Raft.Contiguity
import RaftLabs.Raft.Indices
import RaftLabs.Raft.Verified
import RaftLabs.Raft.BackOff
import RaftLabs.Raft.Tables
import RaftLabs.Raft.Bookkeeping
import RaftLabs.Raft.Ranges
import RaftLabs.Raft.Durability
import RaftLabs.Raft.LateEncoding
import RaftLabs.Raft.SnapshotBoundary
import RaftLabs.Raft.Retained
import RaftLabs.Raft.ApplyStream
import RaftLabs.Raft.Deliveries
import RaftLabs.Raft.Provenance
import RaftLabs.Raft.Host
import RaftLabs.Raft.Replication
import RaftLabs.KVRaft.Server
import RaftLabs.KVRaft.Service
import RaftLabs.KVRaft.Linear
import RaftLabs.KVRaft.Recovery
import RaftLabs.KVRaft.Stack
import RaftLabs.KVRaft.EndToEnd
import RaftLabs.KVRaft.OpLog
import RaftLabs.ShardCtrler.Config
import RaftLabs.ShardCtrler.Validity
import RaftLabs.ShardCtrler.Determinism
import RaftLabs.ShardCtrler.Balance
import RaftLabs.ShardCtrler.Panics
import RaftLabs.ShardCtrler.Movement
import RaftLabs.ShardCtrler.Surplus
import RaftLabs.ShardCtrler.Queries
import RaftLabs.ShardCtrler.OverRaft
import RaftLabs.ShardKV.Server
import RaftLabs.ShardKV.ClientTable
import RaftLabs.ShardKV.Service
import RaftLabs.ShardKV.LocalState
import RaftLabs.ShardKV.Ownership
import RaftLabs.ShardKV.Recovery
import RaftLabs.ShardKV.ConfigOrder
import RaftLabs.ShardKV.GarbageCollection
import RaftLabs.ShardKV.FirstConfig
import RaftLabs.ShardKV.Linear
import RaftLabs.ShardKV.OpLog
import RaftLabs.MapReduce.Coordinator
import RaftLabs.MapReduce.Phases
import RaftLabs.MapReduce.Worker
import RaftLabs.MapReduce.Tasks
import RaftLabs.MapReduce.Equivalence
import RaftLabs.MapReduce.WordCount
import RaftLabs.MapReduce.Progress
