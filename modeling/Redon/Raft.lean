import Redon.Lib.Text

/-!
# A node of a Raft cluster

The locked sections of a node, one function each: the two handlers of a peer's request, the start
of an election, what a reply to a vote request does, and the same for heartbeats. What the clock
and the random generator return is an input.
-/

namespace Redon

open Lib

namespace RaftNode

inductive Role where
  | follower
  | candidate
  | leader
  deriving DecidableEq, Repr

structure Config where
  selfId : Bytes
  peers : List Bytes
  heartbeatMs : ℕ := 100
  electionTimeoutMinMs : ℕ := 400
  electionTimeoutMaxMs : ℕ := 800
  deriving DecidableEq, Repr

/-- The peers without the node itself and without repetitions. -/
def filterPeers (selfId : Bytes) (peers : List Bytes) : List Bytes :=
  peers.foldl (fun kept p => if p ≠ selfId ∧ p ∉ kept then kept ++ [p] else kept) []

/-- The configuration as the constructor leaves it. -/
def Config.filtered (c : Config) : Config := { c with peers := filterPeers c.selfId c.peers }

def Config.majority (c : Config) : ℕ := (c.peers.length + 1) / 2 + 1

/-- What the clock and the random generator return in a locked section. -/
structure Tick where
  now : ℕ
  draw : ℕ
  deriving DecidableEq, Repr

end RaftNode

structure RaftNode where
  role : RaftNode.Role
  currentTerm : ℤ
  /-- Empty if the node has not voted in this term. -/
  votedFor : Bytes
  /-- Empty if unknown. -/
  leaderId : Bytes
  electionDeadline : ℕ
  lastHeartbeatSent : ℕ
  deriving DecidableEq, Repr

namespace RaftNode

/-- An election timeout within the configured bounds. -/
def Config.electionTimeout (c : Config) (t : Tick) : ℕ :=
  c.electionTimeoutMinMs + t.draw % (c.electionTimeoutMaxMs - c.electionTimeoutMinMs + 1)

variable (c : Config) (s : RaftNode)

def resetElectionDeadlineLocked (t : Tick) : RaftNode :=
  { s with electionDeadline := t.now + c.electionTimeout t }

def create (t : Tick) : RaftNode :=
  resetElectionDeadlineLocked c ⟨.follower, 0, [], [], 0, t.now⟩ t

def becomeFollowerLocked (term : ℤ) (t : Tick) : RaftNode :=
  resetElectionDeadlineLocked c
    { s with role := .follower, currentTerm := term, votedFor := [], leaderId := [] } t

/-- The reply carries the term and whether the vote is granted. -/
def handleRequestVote (term : ℤ) (candidateId : Bytes) (t : Tick) : (ℤ × Bool) × RaftNode :=
  let s := if s.currentTerm < term then becomeFollowerLocked c s term t else s
  if term = s.currentTerm ∧ (s.votedFor = [] ∨ s.votedFor = candidateId) then
    ((s.currentTerm, true), resetElectionDeadlineLocked c { s with votedFor := candidateId } t)
  else ((s.currentTerm, false), s)

/-- The reply carries the term and whether the heartbeat is accepted. -/
def handleAppendEntries (term : ℤ) (leaderId : Bytes) (t : Tick) : (ℤ × Bool) × RaftNode :=
  if s.currentTerm ≤ term then
    let s := if s.currentTerm < term then { s with currentTerm := term, votedFor := [] } else s
    let s := resetElectionDeadlineLocked c { s with role := .follower, leaderId := leaderId } t
    ((s.currentTerm, true), s)
  else ((s.currentTerm, false), s)

/-- What the timer decides to do. -/
inductive Due where
  | nothing
  | heartbeat
  | election
  deriving DecidableEq, Repr

/-- The locked section of the timer loop. -/
def tick (now : ℕ) : Due × RaftNode :=
  if s.role = .leader then
    if s.lastHeartbeatSent + c.heartbeatMs ≤ now then
      (.heartbeat, { s with lastHeartbeatSent := now })
    else (.nothing, s)
  else if s.electionDeadline ≤ now then (.election, s)
  else (.nothing, s)

/-- The locked section that starts an election. -/
def beginElection (t : Tick) : RaftNode :=
  resetElectionDeadlineLocked c { s with
    role := .candidate
    currentTerm := s.currentTerm + 1
    votedFor := c.selfId
    leaderId := [] } t

/-- How an election goes on after a reply. -/
inductive Counted where
  | superseded
  | won
  | votes (n : ℕ)
  deriving DecidableEq, Repr

/-- The locked section of an election of `term` with `votes` so far, after a reply. -/
def countVote (term : ℤ) (votes : ℕ) (reply : ℤ × Bool) (t : Tick) : Counted × RaftNode :=
  if s.currentTerm ≠ term ∨ s.role ≠ .candidate then (.superseded, s)
  else if s.currentTerm < reply.1 then (.superseded, becomeFollowerLocked c s reply.1 t)
  else if reply.2 then
    if c.majority ≤ votes + 1 then
      (.won, { s with role := .leader, leaderId := c.selfId, lastHeartbeatSent := 0 })
    else (.votes (votes + 1), s)
  else (.votes votes, s)

/-- The locked section that starts a round of heartbeats: its term, if the node leads. -/
def beginHeartbeats (now : ℕ) : Option ℤ × RaftNode :=
  if s.role ≠ .leader then (none, s)
  else (some s.currentTerm, { s with lastHeartbeatSent := now })

/-- The locked section of a round of heartbeats after a reply: whether the round goes on. -/
def heardHeartbeat (term replyTerm : ℤ) (t : Tick) : Bool × RaftNode :=
  if s.role ≠ .leader ∨ s.currentTerm ≠ term then (false, s)
  else if s.currentTerm < replyTerm then (false, becomeFollowerLocked c s replyTerm t)
  else (true, s)

end RaftNode

end Redon
