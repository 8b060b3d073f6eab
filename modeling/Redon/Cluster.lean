import Mathlib.Data.Fintype.Card
import Redon.Lib.Machine
import Redon.Raft

/-!
# A Raft cluster

The nodes with their timer threads and the connections between them. A request travels on a
connection of its own, which the peer may serve at any later time or never, and its reply is taken
by the thread that waits for it or is lost. A step is one locked section of one node, or a thread
that turns to its next peer or gives one up; steps of different nodes come in any order, and
requests from outside the cluster may reach any node at any time.
-/

namespace Redon

open Lib RaftNode

inductive Rpc where
  | vote
  | append
  deriving DecidableEq, Repr

/-- A connection that carries one request, and its reply once the peer has served it. -/
structure Conn where
  kind : Rpc
  peer : Bytes
  term : ℤ
  id : Bytes
  reply : Option (ℤ × Bool)
  deriving DecidableEq, Repr

/-- Where a node's timer thread is, outside its locked sections. -/
inductive Thread where
  | idle
  | electionDue
  | heartbeatDue
  /-- In `start_election`, about to ask the first peer of `rest`. -/
  | asking (term : ℤ) (votes : ℕ) (rest : List Bytes)
  /-- In `start_election`, waiting for `peer` on a connection. -/
  | awaitVote (conn : ℕ) (peer : Bytes) (term : ℤ) (votes : ℕ) (rest : List Bytes)
  /-- In `send_heartbeats`, about to send to the first peer of `rest`. -/
  | beating (term : ℤ) (rest : List Bytes)
  | awaitAppend (conn : ℕ) (term : ℤ) (rest : List Bytes)
  deriving DecidableEq, Repr

/-- A cluster of `n` nodes: where they listen and the peers they are given. The identifiers are
distinct and the filtered peers of each node are the other nodes. -/
structure Cluster (n : ℕ) where
  host : Fin n → Bytes
  port : Fin n → ℕ
  raftPeers : Fin n → List Bytes
  distinct : Function.Injective fun i => host i ++ ascii ":" ++ decimal (port i)
  others : ∀ i p, p ∈ filterPeers (host i ++ ascii ":" ++ decimal (port i)) (raftPeers i)
    ↔ ∃ j, j ≠ i ∧ host j ++ ascii ":" ++ decimal (port j) = p

namespace Cluster

structure State (n : ℕ) where
  node : Fin n → RaftNode
  thread : Fin n → Thread
  conns : List Conn

inductive Action (n : ℕ) where
  | tick (i : Fin n) (now : ℕ)
  | startElection (i : Fin n) (t : Tick)
  | startHeartbeats (i : Fin n) (now : ℕ)
  /-- The thread opens a connection to its next peer, or leaves its loop. -/
  | nextPeer (i : Fin n)
  /-- The thread gives up on the peer it waits for: unreachable, timed out, or no proper reply. -/
  | giveUp (i : Fin n)
  | takeReply (i : Fin n) (t : Tick)
  /-- Node `j` serves the request on a connection made to it. -/
  | serve (conn : ℕ) (j : Fin n) (t : Tick)
  /-- Node `j` serves a request from outside the cluster. -/
  | inject (j : Fin n) (kind : Rpc) (term : ℤ) (id : Bytes) (t : Tick)

variable {n : ℕ} (C : Cluster n)

def selfId (i : Fin n) : Bytes := C.host i ++ ascii ":" ++ decimal (C.port i)

/-- The configuration `setup_raft` makes for node `i`, filtered. -/
def config (i : Fin n) : Config := Config.filtered { selfId := C.selfId i, peers := C.raftPeers i }

def init (boot : Fin n → Tick) : State n where
  node i := create (C.config i) (boot i)
  thread _ := .idle
  conns := []

def State.set (s : State n) (i : Fin n) (node : RaftNode) (thread : Thread) : State n :=
  { s with node := Function.update s.node i node, thread := Function.update s.thread i thread }

def handle (kind : Rpc) (j : Fin n) (s : RaftNode) (term : ℤ) (id : Bytes) (t : Tick) :
    (ℤ × Bool) × RaftNode :=
  match kind with
  | .vote => handleRequestVote (C.config j) s term id t
  | .append => handleAppendEntries (C.config j) s term id t

def step (s : State n) : Action n → Option (State n)
  | .tick i now =>
    match s.thread i, RaftNode.tick (C.config i) (s.node i) now with
    | .idle, (.nothing, node) => some (s.set i node .idle)
    | .idle, (.heartbeat, node) => some (s.set i node .heartbeatDue)
    | .idle, (.election, node) => some (s.set i node .electionDue)
    | _, _ => none
  | .startElection i t =>
    match s.thread i with
    | .electionDue =>
      let node := beginElection (C.config i) (s.node i) t
      some (s.set i node (.asking node.currentTerm 1 (C.config i).peers))
    | _ => none
  | .startHeartbeats i now =>
    match s.thread i, beginHeartbeats (s.node i) now with
    | .heartbeatDue, (none, node) => some (s.set i node .idle)
    | .heartbeatDue, (some term, node) => some (s.set i node (.beating term (C.config i).peers))
    | _, _ => none
  | .nextPeer i =>
    match s.thread i with
    | .asking term votes (p :: rest) =>
      some { s.set i (s.node i) (.awaitVote s.conns.length p term votes rest) with
        conns := s.conns ++ [⟨.vote, p, term, C.selfId i, none⟩] }
    | .beating term (p :: rest) =>
      some { s.set i (s.node i) (.awaitAppend s.conns.length term rest) with
        conns := s.conns ++ [⟨.append, p, term, C.selfId i, none⟩] }
    | .asking _ _ [] => some (s.set i (s.node i) .idle)
    | .beating _ [] => some (s.set i (s.node i) .idle)
    | _ => none
  | .giveUp i =>
    match s.thread i with
    | .awaitVote _ _ term votes rest => some (s.set i (s.node i) (.asking term votes rest))
    | .awaitAppend _ term rest => some (s.set i (s.node i) (.beating term rest))
    | _ => none
  | .takeReply i t =>
    match s.thread i with
    | .awaitVote c _ term votes rest =>
      match (s.conns[c]?).bind Conn.reply with
      | none => none
      | some reply =>
        match countVote (C.config i) (s.node i) term votes reply t with
        | (.superseded, node) => some (s.set i node .idle)
        | (.won, node) => some (s.set i node .heartbeatDue)
        | (.votes votes, node) => some (s.set i node (.asking term votes rest))
    | .awaitAppend c term rest =>
      match (s.conns[c]?).bind Conn.reply with
      | none => none
      | some reply =>
        match heardHeartbeat (C.config i) (s.node i) term reply.1 t with
        | (true, node) => some (s.set i node (.beating term rest))
        | (false, node) => some (s.set i node .idle)
    | _ => none
  | .serve c j t =>
    match s.conns[c]? with
    | none => none
    | some conn =>
      if conn.reply = none ∧ conn.peer = C.selfId j then
        let (reply, node) := C.handle conn.kind j (s.node j) conn.term conn.id t
        some { s.set j node (s.thread j) with
          conns := s.conns.set c { conn with reply := some reply } }
      else none
  | .inject j kind term id t => some (s.set j (C.handle kind j (s.node j) term id t).2 (s.thread j))

/-- A step of a cluster whose nodes get requests from each other only. -/
def closedStep (s : State n) (a : Action n) : Option (State n) :=
  match a with
  | .inject _ _ _ _ _ => none
  | a => C.step s a

end Cluster

end Redon
