import DistCache.Lib.CharStream
import DistCache.Storage.LRUCache
import DistCache.Storage.LRUInvariant
import DistCache.Storage.SafeCache
import DistCache.Storage.LRUEviction
import DistCache.Storage.LRUHistory
import DistCache.Storage.WAL
import DistCache.Storage.WALRoundTrip
import DistCache.Storage.MMapPersistence
import DistCache.Storage.WALCrash
import DistCache.Lib.WriteLog
import DistCache.Network.TCPServer
import DistCache.Recovery
import DistCache.RecoveryExpiry
import DistCache.RecoveryIsolation
import DistCache.Network.Concurrency
import DistCache.Cluster.HashRing
import DistCache.Cluster.RingPlacement
import DistCache.Lib.OutputStream
import DistCache.Network.AckedWrites
import DistCache.Network.WriteAhead
import DistCache.Patterns.BreakerProbes
import DistCache.Patterns.BreakerWindow
import DistCache.Storage.LRUSweeps
import DistCache.Cluster.NodeDiscovery
import DistCache.Cluster.RingHash
import DistCache.Lib.SelfDelimiting
import DistCache.Lib.SharedFile
import DistCache.Lib.Tokens
import DistCache.Network.RESPCommands
import DistCache.Storage.SnapshotCrash
import DistCache.Storage.SnapshotRaces
import DistCache.Storage.Backups
import DistCache.Storage.WALBinary
import DistCache.Lib.Overlap
import DistCache.Lib.RecencyFront
import DistCache.Monitoring.MetricsCollector
import DistCache.Network.ClientLoop
import DistCache.Network.LogOrder
import DistCache.Network.OwnKeys
import DistCache.Network.Locks
import DistCache.Network.Atomicity
import DistCache.Restarts
import DistCache.Network.Salvage
import DistCache.Network.Deaths
import DistCache.Storage.LRUCapacity
import DistCache.Cluster.NodeHistory
import DistCache.Cluster.RingWalk
