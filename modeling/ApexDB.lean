import ApexDB.Lib.Loop
import ApexDB.Lib.Run
import ApexDB.Lib.Buckets
import ApexDB.Lib.AvlTree
import ApexDB.Lib.Cursor
import ApexDB.Lib.Arena
import ApexDB.Lib.HeapOrder
import ApexDB.Lib.LittleEndian
import ApexDB.Lib.Stream
import ApexDB.Lib.Ring
import ApexDB.Hashtable
import ApexDB.Avl
import ApexDB.Common
import ApexDB.Zset
import ApexDB.Heap
import ApexDB.ThreadPool
import ApexDB.PoolInit
import ApexDB.Protocol
import ApexDB.KvStore
import ApexDB.PooledStore
import ApexDB.Client
import ApexDB.Ui
import ApexDB.ServerLoop
import ApexDB.EventLoop
import ApexDB.History
import ApexDB.Sharding
import ApexDB.Server
import ApexDB.TcpRpc
import ApexDB.Connect
import ApexDB.Proxy
import ApexDB.Cli
import ApexDB.ClientOutput
import ApexDB.Cluster
import ApexDB.ProxyLoop
import ApexDB.Faults
import ApexDB.Spec.ZTree
import ApexDB.Spec.Value
import ApexDB.Spec.RefStore
import ApexDB.Spec.Readings
import ApexDB.Spec.Frames
import ApexDB.Spec.Service
import ApexDB.Proof.Hashtable
import ApexDB.Proof.HashtableRuns
import ApexDB.Proof.Migration
import ApexDB.Proof.Avl
import ApexDB.Proof.AvlValid
import ApexDB.Proof.Index
import ApexDB.Proof.MemberOrder
import ApexDB.Proof.ZTree
import ApexDB.Proof.Zset
import ApexDB.Proof.ZsetRuns
import ApexDB.Proof.Heap
import ApexDB.Proof.ThreadPool
import ApexDB.Proof.Codec
import ApexDB.Proof.Timers
import ApexDB.Proof.Store
import ApexDB.Proof.Commands
import ApexDB.Proof.Readings
import ApexDB.Proof.Expiry
import ApexDB.Proof.StoreRuns
import ApexDB.Proof.Batch
import ApexDB.Proof.Disposal
import ApexDB.Proof.Depth
import ApexDB.Proof.Handover
import ApexDB.Proof.PooledStore
import ApexDB.Proof.PooledRuns
import ApexDB.Proof.StoreLimits
import ApexDB.Proof.Zquery
import ApexDB.Proof.Response
import ApexDB.Proof.Ui
import ApexDB.Proof.Grammar
import ApexDB.Proof.ServerLoop
import ApexDB.Proof.Connections
import ApexDB.Proof.EventLoop
import ApexDB.Proof.OneOrder
import ApexDB.Proof.Interest
import ApexDB.Proof.TcpRpc
import ApexDB.Proof.Sharding
import ApexDB.Proof.Ttl
import ApexDB.Proof.Counter
import ApexDB.Proof.Cluster
import ApexDB.Proof.Appends
import ApexDB.Proof.Service
import ApexDB.Proof.ProxyService
import ApexDB.Proof.Faults
import ApexDB.Proof.MergeKeys
import ApexDB.Proof.WireLimits
import ApexDB.Proof.ReadBack
import ApexDB.Proof.Ownership
import ApexDB.Proof.PollTimeout
import ApexDB.Proof.Shutdown
import ApexDB.Proof.RpcReturns
import ApexDB.Proof.Cli
import ApexDB.Proof.UiCommand
import ApexDB.Proof.Backlog
import ApexDB.Proof.Isolation
import ApexDB.Proof.CatchUp
import ApexDB.Proof.Paging
import ApexDB.Proof.Sockets
import ApexDB.Proof.ClientOutput
import ApexDB.Proof.PoolInit
