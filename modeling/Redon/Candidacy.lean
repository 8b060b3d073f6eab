import Redon.Cluster

/-!
# An election from start to end

`start_election` of one node with any list of peers. It asks them in order; between two of its
locked sections the node may serve any requests. What comes of asking a peer is an input.
-/

namespace Redon

open Lib

namespace RaftNode

/-- A request the node serves. -/
structure Inbound where
  kind : Rpc
  term : ℤ
  id : Bytes
  tick : Tick

def serve (c : Config) (s : RaftNode) (q : Inbound) : RaftNode :=
  match q.kind with
  | .vote => (handleRequestVote c s q.term q.id q.tick).2
  | .append => (handleAppendEntries c s q.term q.id q.tick).2

def serveAll (c : Config) (s : RaftNode) (qs : List Inbound) : RaftNode := qs.foldl (serve c) s

/-- What comes of a request to a peer: the requests served before its reply is looked at, and the
reply, if the peer was reached and sent a proper one. -/
structure Sent where
  served : List Inbound
  reply : Option (ℤ × Bool)
  tick : Tick

/-- The loop of `start_election` over the peers, with `votes` so far: whether the election is
won. -/
def voteLoop (c : Config) (term : ℤ) : List Sent → ℕ → RaftNode → Bool × RaftNode
  | [], _, s => (false, s)
  | x :: xs, votes, s =>
    let s := serveAll c s x.served
    match x.reply with
    | none => voteLoop c term xs votes s
    | some reply =>
      match countVote c s term votes reply x.tick with
      | (.superseded, s) => (false, s)
      | (.won, s) => (true, s)
      | (.votes votes, s) => voteLoop c term xs votes s

/-- The loop of `send_heartbeats` over the peers. -/
def beatLoop (c : Config) (term : ℤ) : List Sent → RaftNode → RaftNode
  | [], s => s
  | x :: xs, s =>
    let s := serveAll c s x.served
    match x.reply with
    | none => beatLoop c term xs s
    | some reply =>
      match heardHeartbeat c s term reply.1 x.tick with
      | (false, s) => s
      | (true, s) => beatLoop c term xs s

/-- What comes of a round of heartbeats: the requests served before it starts, the clock, and what
comes of each peer. -/
structure Beats where
  served : List Inbound
  now : ℕ
  sent : Bytes → Sent

def sendHeartbeats (c : Config) (s : RaftNode) (b : Beats) : RaftNode :=
  match beginHeartbeats (serveAll c s b.served) b.now with
  | (none, s) => s
  | (some term, s) => beatLoop c term (c.peers.map b.sent) s

/-- `start_election`, given what comes of asking each peer and of the heartbeats after a win. -/
def startElection (c : Config) (s : RaftNode) (t : Tick) (asked : Bytes → Sent) (b : Beats) :
    RaftNode :=
  let s := beginElection c s t
  match voteLoop c s.currentTerm (c.peers.map asked) 1 s with
  | (true, s) => sendHeartbeats c s b
  | (false, s) => s

end RaftNode

end Redon
