import Redon.Command
import Redon.Lib.Machine

/-!
# A Raft node and its client port

One node as it runs: lines that any client or peer sends to its port, and the locked sections of its
timer thread, in any order. Here the term is the `long` it is in the source, so that starting an
election can overflow it.
-/

namespace Redon

open Lib RaftNode

/-- `beginElection` on a term that is a `long`. -/
def RaftNode.beginElectionLong (c : Config) (s : RaftNode) (t : Tick) : RaftNode :=
  { beginElection c s t with currentTerm := toLong (s.currentTerm + 1) }

namespace RaftServer

/-- Where the timer thread is, outside its locked sections. -/
inductive Timer where
  | idle
  | electionDue
  | heartbeatDue
  | electing (term : ℤ) (votes : ℕ)
  | beating (term : ℤ)
  deriving DecidableEq, Repr

structure State where
  store : Storage
  node : RaftNode
  timer : Timer

/-- A term in a reply is the text the peer sent for it. -/
inductive Action where
  | line (isReplicaLink : Bool) (line : Bytes) (t : Tick)
  | tick (now : ℕ)
  | startElection (t : Tick)
  | takeVote (term : Bytes) (granted : Bool) (t : Tick)
  | startHeartbeats (now : ℕ)
  | takeAppended (term : Bytes) (t : Tick)
  /-- The thread has no peer left to ask. -/
  | lastPeer

def Action.isElection : Action → Bool
  | .startElection _ => true
  | _ => false

def init (c : Config) (store : Storage) (boot : Tick) : State :=
  { store := store, node := create c boot, timer := .idle }

variable (e : ExecEnv)

def step (s : State) : Action → Option State
  | .line isReplicaLink line t =>
    let r := ExecState.executeLine { e with tick := t } ⟨s.store, isReplicaLink, some s.node⟩ line
    r.raft.map fun node => { s with store := r.store, node := node }
  | .tick now =>
    match s.timer, RaftNode.tick e.raftConfig s.node now with
    | .idle, (.nothing, node) => some { s with node := node }
    | .idle, (.heartbeat, node) => some { s with node := node, timer := .heartbeatDue }
    | .idle, (.election, node) => some { s with node := node, timer := .electionDue }
    | _, _ => none
  | .startElection t =>
    match s.timer with
    | .electionDue =>
      let node := beginElectionLong e.raftConfig s.node t
      some { s with node := node, timer := .electing node.currentTerm 1 }
    | _ => none
  | .takeVote term granted t =>
    match s.timer, stol term with
    | .electing electionTerm votes, some replyTerm =>
      match countVote e.raftConfig s.node electionTerm votes (replyTerm, granted) t with
      | (.superseded, node) => some { s with node := node, timer := .idle }
      | (.won, node) => some { s with node := node, timer := .heartbeatDue }
      | (.votes votes, node) => some { s with node := node, timer := .electing electionTerm votes }
    | _, _ => none
  | .startHeartbeats now =>
    match s.timer, beginHeartbeats s.node now with
    | .heartbeatDue, (none, node) => some { s with node := node, timer := .idle }
    | .heartbeatDue, (some term, node) => some { s with node := node, timer := .beating term }
    | _, _ => none
  | .takeAppended term t =>
    match s.timer, stol term with
    | .beating beatTerm, some replyTerm =>
      match heardHeartbeat e.raftConfig s.node beatTerm replyTerm t with
      | (true, node) => some { s with node := node }
      | (false, node) => some { s with node := node, timer := .idle }
    | _, _ => none
  | .lastPeer =>
    match s.timer with
    | .electing _ _ => some { s with timer := .idle }
    | .beating _ => some { s with timer := .idle }
    | _ => none

end RaftServer

end Redon
