import Redon.RaftRpc
import Redon.RaftServer
import Redon.Server
import Redon.Socket

/-!
# A Raft cluster on the wire

The cluster as its servers run it. A node asks a peer with a line of text on a connection of its
own. The connection's thread at the peer receives the bytes in any pieces, executes the line and
sends the reply back; the asking thread reads what has come of it, or gives up. Clients send any
lines to any node: the role of the node is checked in one locked section, and what the line asks of
the store is done in a later one. Here the terms are `long`.

The field `writes` records which node admitted a write in which term; no step reads it.
-/

namespace Redon

open Lib RaftNode

/-- The term and the flag a reply of this kind carries, if it is a proper one. -/
def Rpc.read : Rpc → Bytes → Option (ℤ × Bool)
  | .vote, reply => decode (ascii "__VOTE__") (IStream.ofBytes reply).tokens
  | .append, reply => decode (ascii "__APPENDED__") (IStream.ofBytes reply).tokens

/-- A connection that was made, and the node that accepted it. -/
structure Dialled (n : ℕ) extends Socket where
  acceptor : Fin n

/-- A client's line in execution, with the Raft state that the check of the role has met. -/
structure Checked (n : ℕ) where
  node : Fin n
  isReplicaLink : Bool
  line : Bytes
  seen : RaftNode

structure RaftNet (n : ℕ) where
  store : Fin n → Storage
  node : Fin n → RaftNode
  thread : Fin n → Thread
  /-- One for each call of `rpc`: its connection, if one was made. -/
  calls : List (Option (Dialled n))
  checked : List (Checked n)
  writes : List (Fin n × ℤ)

namespace RaftNet

inductive Action (n : ℕ) where
  | tick (i : Fin n) (now : ℕ)
  | startElection (i : Fin n) (t : Tick)
  | startHeartbeats (i : Fin n) (now : ℕ)
  /-- The thread calls `rpc` for its next peer, or leaves its loop. If a connection is made, it is
  to a node that takes so many bytes of the request. -/
  | call (i : Fin n) (dialled : Option (Fin n × ℕ))
  /-- The thread gives up on a call: it timed out, or there is no proper reply. -/
  | giveUp (i : Fin n)
  | takeReply (i : Fin n) (t : Tick)
  /-- The thread of a call's connection looks at what it has and receives so many bytes. -/
  | receive (c k : ℕ)
  /-- The thread of a call's connection executes the next complete line. -/
  | execute (c : ℕ) (io : LineIo)
  | hangup (c : ℕ)
  /-- A client's line meets the check of the role. -/
  | check (j : Fin n) (isReplicaLink : Bool) (line : Bytes)
  /-- The line checked as number `k` is executed. -/
  | apply (k : ℕ) (io : LineIo)

variable {n : ℕ}

def set (s : RaftNet n) (i : Fin n) (node : RaftNode) (thread : Thread) : RaftNet n :=
  { s with node := Function.update s.node i node, thread := Function.update s.thread i thread }

def setSocket (s : RaftNet n) (c : ℕ) (x : Dialled n) : RaftNet n :=
  { s with calls := s.calls.set c (some x) }

/-- The connection of a call. -/
def socket (s : RaftNet n) (c : ℕ) : Option (Dialled n) := (s.calls[c]?).join

/-- What the caller can read by now. -/
def reply (s : RaftNet n) (kind : Rpc) (c : ℕ) : Option (ℤ × Bool) :=
  (s.socket c).bind fun x => (recvLine [] x.client.sent).bind kind.read

end RaftNet

namespace Cluster

open RaftNet

variable {n : ℕ} (C : Cluster n)

/-- The settings of the server that node `i` is part of. -/
def server (i : Fin n) : ServerConfig :=
  { host := C.host i, port := C.port i, raftPeers := C.raftPeers i }

def env (i : Fin n) (io : LineIo) : ExecEnv := Server.env (C.server i) io

def netInit (store : Fin n → Storage) (boot : Fin n → Tick) : RaftNet n where
  store := store
  node i := create (C.config i) (boot i)
  thread _ := .idle
  calls := []
  checked := []
  writes := []

/-- `rpc` up to the reply: the connection, if one is made, and whether all of the request is sent.
A connection is made to the node that listens at the address. -/
def dial (peer request : Bytes) (dialled : Option (Fin n × ℕ)) :
    Option (Option (Dialled n) × Bool) :=
  match splitHostPort peer, dialled with
  | some (host, port), some (j, sent) =>
    if C.host j = host ∧ C.port j = port then
      some (some ⟨.dialled request sent, j⟩, request.length ≤ sent)
    else none
  | _, _ => some (none, false)

/-- Node `i` calls a peer: its thread waits for the reply, or goes on with the next peer. -/
def callPeer (s : RaftNet n) (i : Fin n) (kind : Rpc) (peer : Bytes) (term : ℤ)
    (dialled : Option (Fin n × ℕ)) (await next : Thread) : Option (RaftNet n) :=
  (C.dial peer (kind.request (C.config i) term) dialled).map fun (socket, sent) =>
    { s.set i (s.node i) (if sent then await else next) with calls := s.calls ++ [socket] }

/-- Node `j` executes a line of a call's connection. -/
def execute (s : RaftNet n) (c : ℕ) (io : LineIo) : Option (RaftNet n) :=
  (s.socket c).bind fun x => x.nextLine.map fun (line, client) =>
    let j := x.acceptor
    let (nd, client) := Node.handleLine (C.env j io) (Metrics.infoText io.stats)
      ⟨s.store j, some (s.node j)⟩ client line
    { s.setSocket c { x with client := client } with
      store := Function.update s.store j nd.store
      node := Function.update s.node j (nd.raft.getD (s.node j)) }

/-- A client's line is executed. The handlers of Raft requests look at the node as it is now. -/
def apply (s : RaftNet n) (k : ℕ) (io : LineIo) : Option (RaftNet n) :=
  match s.checked[k]? with
  | none => none
  | some q =>
    let j := q.node
    let verb := (verbAndKey q.line).1
    let isRpc := verb = ascii "__RAFT_VOTE__" ∨ verb = ascii "__RAFT_APPEND__"
    let r := Node.answerLine (C.env j io) (Metrics.infoText io.stats)
      ⟨s.store j, some (if isRpc then s.node j else q.seen)⟩ q.isReplicaLink q.line
    some { s with
      store := Function.update s.store j r.store
      node := if isRpc then Function.update s.node j (r.raft.getD (s.node j)) else s.node
      checked := s.checked.eraseIdx k
      writes := if ExecState.isWrite verb ∧ q.seen.role = .leader
        then s.writes ++ [(j, q.seen.currentTerm)] else s.writes }

def netStep (s : RaftNet n) : RaftNet.Action n → Option (RaftNet n)
  | .tick i now =>
    match s.thread i, RaftNode.tick (C.config i) (s.node i) now with
    | .idle, (.nothing, node) => some (s.set i node .idle)
    | .idle, (.heartbeat, node) => some (s.set i node .heartbeatDue)
    | .idle, (.election, node) => some (s.set i node .electionDue)
    | _, _ => none
  | .startElection i t =>
    match s.thread i with
    | .electionDue =>
      let node := beginElectionLong (C.config i) (s.node i) t
      some (s.set i node (.asking node.currentTerm 1 (C.config i).peers))
    | _ => none
  | .startHeartbeats i now =>
    match s.thread i, beginHeartbeats (s.node i) now with
    | .heartbeatDue, (none, node) => some (s.set i node .idle)
    | .heartbeatDue, (some term, node) => some (s.set i node (.beating term (C.config i).peers))
    | _, _ => none
  | .call i dialled =>
    match s.thread i with
    | .asking term votes (p :: rest) =>
      C.callPeer s i .vote p term dialled (.awaitVote s.calls.length p term votes rest)
        (.asking term votes rest)
    | .beating term (p :: rest) =>
      C.callPeer s i .append p term dialled (.awaitAppend s.calls.length term rest)
        (.beating term rest)
    | .asking _ _ [] => some (s.set i (s.node i) .idle)
    | .beating _ [] => some (s.set i (s.node i) .idle)
    | _ => none
  | .giveUp i =>
    match s.thread i with
    | .awaitVote _ _ term votes rest => some (s.set i (s.node i) (.asking term votes rest))
    | .awaitAppend _ term rest => some (s.set i (s.node i) (.beating term rest))
    | _ => none
  | .takeReply i t =>
    match s.thread i with
    | .awaitVote c _ term votes rest =>
      match s.reply .vote c with
      | none => none
      | some reply =>
        match countVote (C.config i) (s.node i) term votes reply t with
        | (.superseded, node) => some (s.set i node .idle)
        | (.won, node) => some (s.set i node .heartbeatDue)
        | (.votes votes, node) => some (s.set i node (.asking term votes rest))
    | .awaitAppend c term rest =>
      match s.reply .append c with
      | none => none
      | some reply =>
        match heardHeartbeat (C.config i) (s.node i) term reply.1 t with
        | (true, node) => some (s.set i node (.beating term rest))
        | (false, node) => some (s.set i node .idle)
    | _ => none
  | .receive c k => (s.socket c).bind fun x => (x.receive k).map fun y =>
    s.setSocket c { x with toSocket := y }
  | .execute c io => C.execute s c io
  | .hangup c => (s.socket c).map fun x => s.setSocket c { x with toSocket := x.hangup }
  | .check j isReplicaLink line =>
    some { s with checked := s.checked ++ [⟨j, isReplicaLink, line, s.node j⟩] }
  | .apply k io => C.apply s k io

/-- No election is started from the largest `long`. -/
def inRange (s : RaftNet n) : RaftNet.Action n → Bool
  | .startElection i _ => (s.node i).currentTerm < 2 ^ 63 - 1
  | _ => true

end Cluster

end Redon
