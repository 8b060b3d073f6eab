import Redon.Replication

/-!
# A leader with several followers

The replicator has a link for each follower, with a queue and a sender thread of its own. A change
is handed to one link after the other while the call that made it holds the storage lock. A sender
waits for that lock only to cut its snapshot, and no call waits for a sender. The followers are
different servers.

Some fields only record what happened: what was handed over (`Links.history`) and the changes that
clients made (`Links.changes`).
-/

namespace Redon

open Lib

namespace Replicator

/-- A link with its sender, its connections and its follower. -/
structure Peer where
  link : Link
  sender : Sender
  opened : ℕ
  conn : ℕ → Conn
  follower : Node
  log : List (ℕ × Bytes)

structure Links (n : ℕ) where
  store : Storage
  /-- What the call that holds the storage lock has yet to hand over, and to which link. -/
  pending : List (Fin n × Storage.Replicated)
  peer : Fin n → Peer
  history : List (Fin n × Storage.Replicated)
  changes : List Mutation

/-- The leader and its followers: what executing a line depends on, and what `INFO` reports. -/
structure Followers (n : ℕ) where
  leaderEnv : ExecEnv
  followerEnv : Fin n → ExecEnv
  info : Bytes
  leads : leaderEnv.nodeIsFollower = false
  follows : ∀ i, (followerEnv i).nodeIsFollower = true

namespace Links

variable {n : ℕ}

/-- The changes that call `Replicator::enqueue`, with the loop over the links in it. -/
def handOver (rs : List Storage.Replicated) : List (Fin n × Storage.Replicated) :=
  rs.flatMap fun r => (List.finRange n).map fun i => (i, r)

/-- What of it goes to link `i`. -/
def handed (rs : List (Fin n × Storage.Replicated)) (i : Fin n) : List Storage.Replicated :=
  (rs.filter (·.1 = i)).map Prod.snd

/-- The leader as link `i` sees it, with this link and its follower. -/
def view (s : Links n) (i : Fin n) : State where
  leader := ⟨s.store, handed s.pending i, (s.peer i).link, handed s.history i⟩
  sender := (s.peer i).sender
  opened := (s.peer i).opened
  conn := (s.peer i).conn
  follower := (s.peer i).follower
  log := (s.peer i).log

/-- What a step on link `i` leaves there. -/
def put (s : Links n) (i : Fin n) (t : State) : Links n :=
  { s with
    peer := Function.update s.peer i
      ⟨t.leader.link, t.sender, t.opened, t.conn, t.follower, t.log⟩ }

def setLink (s : Links n) (i : Fin n) (link : Link) : Links n :=
  { s with peer := Function.update s.peer i { s.peer i with link := link } }

inductive Action (n : ℕ) where
  /-- A client's line takes the storage lock. -/
  | client (line : Bytes)
  /-- The next change is handed to the next link. -/
  | enqueue
  | stop (i : Fin n)
  | sender (i : Fin n) (a : SenderAction)
  | follower (i : Fin n) (a : FollowerAction)

end Links

/-- The cut is made under the storage lock. -/
def SenderAction.locks : SenderAction → Bool
  | .cut _ => true
  | _ => false

namespace Followers

variable {n : ℕ} (p : Followers n)

def step (s : Links n) : Links.Action n → Option (Links n)
  | .client line =>
    if s.pending ≠ [] ∨ 10 ∈ line then none
    else
      let r := (⟨s.store, none⟩ : Node).answerLine p.leaderEnv p.info false line
      some { s with
        store := r.store
        pending := Links.handOver r.replicated
        changes := s.changes ++ r.replicated.map Prod.fst }
  | .enqueue =>
    match s.pending with
    | [] => none
    | (i, r) :: rs =>
      some { s.setLink i ((s.peer i).link.enqueue (replicate r.1)) with
        pending := rs
        history := s.history ++ [(i, r)] }
  | .stop i => some (s.setLink i { (s.peer i).link with stop := true })
  | .sender i a =>
    if a.locks ∧ s.pending ≠ [] then none else ((s.view i).senderStep a).map (s.put i)
  | .follower i a => ((s.view i).followerStep (p.followerEnv i) p.info a).map (s.put i)

/-- A leader that starts replicating, and its followers. -/
def init (leader : Storage) (follower : Fin n → Storage) : Links n where
  store := leader
  pending := []
  peer := fun i =>
    ⟨⟨[], false, false, false⟩, .connecting, 0, fun _ => .fresh, ⟨follower i, none⟩, []⟩
  history := []
  changes := []

/-- The leader with follower `i` alone. -/
def pair (i : Fin n) : Pair where
  leaderEnv := p.leaderEnv
  followerEnv := p.followerEnv i
  info := p.info
  leads := p.leads
  follows := p.follows i

end Followers

end Replicator

end Redon
