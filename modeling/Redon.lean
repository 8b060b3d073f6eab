import Redon.Proofs.Convergence
import Redon.Proofs.DiskSessions
import Redon.Proofs.Election
import Redon.Proofs.Reopen
import Redon.Proofs.Sharding
import Redon.RaftServer
import Redon.Proofs.Leadership
import Redon.Proofs.Terms
import Redon.Proofs.ThreadPool
import Redon.Lib.Lru
import Redon.Proofs.Lru
import Redon.Proofs.Scan
import Redon.DiskEvents
import Redon.Proofs.Recovery
import Redon.Proofs.DiskReads
import Redon.Proofs.FullSync
import Redon.Lib.LineReader
import Redon.Proofs.Hops
import Redon.Proofs.Requests
import Redon.Candidacy
import Redon.Proofs.Majority
import Redon.Proofs.Commands
import Redon.Server
import Redon.Proofs.Metrics
import Redon.Lifetime
import Redon.Proofs.Lifetime
import Redon.Compaction
import Redon.Proofs.Compaction
import Redon.Connection
import Redon.Proofs.Connection
import Redon.Lib.Fnv
import Redon.Proofs.ShardMap
import Redon.Proofs.Capacity
import Redon.Proofs.Wakeups
import Redon.Proofs.RaftRpc
import Redon.Lib.Json
import Redon.Web
import Redon.Proofs.Gateway
import Redon.Proofs.Bodies
import Redon.Accept
import Redon.Lib.Workers
import Redon.Proofs.Accept
import Redon.Proofs.Fencing
import Redon.Cli
import Redon.Links
import Redon.Proofs.Cli
import Redon.Proofs.Links
import Redon.Proofs.RouterNet
import Redon.Lib.Endless
import Redon.Lib.Numeral
import Redon.Main
import Redon.Proofs.FollowerLog
import Redon.Proofs.Main
import Redon.Proofs.Shutdown
import Redon.Proofs.Browser
import Redon.Lib.Histories
import Redon.Proofs.Acknowledged
import Redon.Proofs.Survival
