import Redon.Lib.Machine
import Redon.Router

/-!
# A server and its connections

A server that is not a router: lines that arrive on any number of connections, each executed and
recorded in the metrics, and the timer thread of its Raft node, if it has one.
-/

namespace Redon

open Lib

/-- The settings that decide what a server is. -/
structure ServerConfig where
  host : Bytes := ascii "127.0.0.1"
  port : ℕ := 6380
  isFollower : Bool := false
  followerAddrs : List Bytes := []
  raftPeers : List Bytes := []
  shardAddrs : List Bytes := []
  diskPath : Bytes := []
  deriving DecidableEq, Repr

namespace ServerConfig

/-- The combination of settings that `main` refuses to start with, if there is one. -/
def conflict (c : ServerConfig) : Option Bytes :=
  if c.isFollower && !c.followerAddrs.isEmpty then
    some (ascii "error: a --replica cannot also have --follower targets\n")
  else if !c.raftPeers.isEmpty && (c.isFollower || !c.followerAddrs.isEmpty) then
    some (ascii "error: --raft cannot be combined with --replica/--follower\n")
  else if !c.shardAddrs.isEmpty
      && (c.isFollower || !c.followerAddrs.isEmpty || !c.raftPeers.isEmpty) then
    some (ascii "error: --shard (router) cannot be combined with --replica/--follower/--raft\n")
  else if !c.diskPath.isEmpty && !c.shardAddrs.isEmpty then
    some (ascii "error: --disk cannot be combined with --shard (a router stores no data)\n")
  else none

/-- The Raft settings `setup_raft` makes, as the node's constructor leaves them. -/
def raft (c : ServerConfig) : RaftNode.Config :=
  RaftNode.Config.filtered
    { selfId := c.host ++ ascii ":" ++ decimal c.port, peers := c.raftPeers }

end ServerConfig

structure Metrics where
  commands : ℕ := 0
  gets : ℕ := 0
  sets : ℕ := 0
  dels : ℕ := 0
  getHits : ℕ := 0
  getMisses : ℕ := 0
  errors : ℕ := 0
  deriving DecidableEq, Repr

namespace Metrics

variable (m : Metrics)

def onCommand (verb : Bytes) (isError : Bool) : Metrics :=
  let m := { m with commands := m.commands + 1 }
  let m := if isError then { m with errors := m.errors + 1 } else m
  if verb = ascii "GET" then { m with gets := m.gets + 1 }
  else if verb = ascii "SET" then { m with sets := m.sets + 1 }
  else if verb = ascii "DEL" ∨ verb = ascii "DELETE" then { m with dels := m.dels + 1 }
  else m

def onGet (hit : Bool) : Metrics :=
  if hit then { m with getHits := m.getHits + 1 } else { m with getMisses := m.getMisses + 1 }

/-- The one line reported for `INFO`, given what stands behind its first field's name. -/
def infoText (stats : Bytes) : Bytes := ascii "uptime_s=" ++ stats

/-- What `handle_client` records for a line, off a router. -/
def record (verb : Bytes) (wasReplicaLink : Bool) (reply : Bytes) (getHit : Bool) : Metrics :=
  if !verb.isEmpty && !wasReplicaLink && !(ascii "__").isPrefixOf verb then
    let err := (ascii "ERR").isPrefixOf reply
    let m := m.onCommand verb err
    if verb = ascii "GET" && !err then m.onGet getHit else m
  else m

end Metrics

namespace MetricsHttp

/-- The response to every request; `render` is what there is to serve, if anything. -/
def response (render : Option Bytes) : Bytes :=
  let body := render.getD []
  ascii "HTTP/1.1 200 OK\r\n"
    ++ ascii "Content-Type: text/plain; version=0.0.4; charset=utf-8\r\n"
    ++ ascii "Content-Length: " ++ decimal body.length ++ ascii "\r\nConnection: close\r\n\r\n"
    ++ body

end MetricsHttp

/-- What executing a line meets besides the server's state. -/
structure LineIo where
  tick : RaftNode.Tick
  truncated : Bool
  reopened : Bool
  /-- What `INFO` reports behind the name of its first field. -/
  stats : Bytes

/-- A server that is not a router. The connections are numbered as they are accepted. -/
structure Server where
  node : Node
  isReplicaLink : ℕ → Bool
  closed : ℕ → Bool
  metrics : Metrics

namespace Server

variable (c : ServerConfig)

/-- The store is the one `run` sets up before it accepts a connection. -/
def start (store : Storage) (boot : RaftNode.Tick) : Server :=
  { node := ⟨store, if c.raftPeers.isEmpty then none else some (RaftNode.create c.raft boot)⟩
    isReplicaLink := fun _ => false
    closed := fun _ => false
    metrics := {} }

def env (io : LineIo) : ExecEnv :=
  { nodeIsFollower := c.isFollower
    raftConfig := c.raft
    tick := io.tick
    truncated := io.truncated
    reopened := io.reopened }

inductive Event where
  | line (conn : ℕ) (line : Bytes) (io : LineIo)
  /-- A section of the timer thread leaves the Raft node like this. -/
  | timer (node : RaftNode)

/-- The result of a line of connection `conn`. -/
def answer (s : Server) (conn : ℕ) (line : Bytes) (io : LineIo) : Executed :=
  s.node.answerLine (env c io) (Metrics.infoText io.stats) (s.isReplicaLink conn) line

/-- A closed connection has no more lines, and only a Raft node has the timer thread. -/
def step (s : Server) : Event → Option Server
  | .line conn line io =>
    if s.closed conn then none
    else
      let r := s.answer c conn line io
      some
        { node := ⟨r.store, r.raft⟩
          isReplicaLink := Function.update s.isReplicaLink conn r.isReplicaLink
          closed := Function.update s.closed conn r.shouldClose
          metrics := s.metrics.record (verbAndKey line).1 (s.isReplicaLink conn) r.reply
            r.wasGetHit }
  | .timer node => s.node.raft.map fun _ => { s with node := { s.node with raft := some node } }

end Server

end Redon
