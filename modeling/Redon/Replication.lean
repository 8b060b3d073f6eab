import Redon.Router

/-!
# Replication

A leader with one follower. The leader's clients change its store under the storage lock, and each
change is handed to the replicator one at a time while the lock is held. The sender thread connects
to the follower, makes the handshake, cuts a snapshot and starts streaming in one locked section,
sends the snapshot and then the queue, and starts over when a send fails or the queue overflowed.
The follower has a handler for each connection, which takes what was sent there in order; handlers
run independently of each other.

Some fields only record what happened: the changes handed over (`Leader.history`), the lines sent on
a connection and its cut (`Conn.trail`), and the lines the follower's handlers executed
(`State.log`). No step reads them.
-/

namespace Redon

open Lib

namespace Replicator

def kMaxQueue : ℕ := 100000

def setLine (key value : Bytes) : Bytes := ascii "SET " ++ key ++ ascii " " ++ value ++ ascii "\n"

def delLine (key : Bytes) : Bytes := ascii "DEL " ++ key ++ ascii "\n"

/-- The line a change is sent as. -/
def replicate : Mutation → Bytes
  | .set key value => setLine key value
  | .del key => delLine key

def hello : Bytes := ascii "__REPLSYNC__"

def ping : Bytes := ascii "PING"

/-- What the sender and the leader's clients share. -/
structure Link where
  queue : List Bytes
  streaming : Bool
  resyncNeeded : Bool
  stop : Bool

def Link.enqueue (l : Link) (line : Bytes) : Link :=
  if !l.streaming then l
  else if kMaxQueue ≤ l.queue.length then
    { l with queue := [], streaming := false, resyncNeeded := true }
  else { l with queue := l.queue ++ [line] }

structure Leader where
  store : Storage
  /-- What the call that holds the storage lock has yet to hand over; the lock is free if none. -/
  pending : List Storage.Replicated
  link : Link
  history : List Storage.Replicated

inductive LeaderAction where
  /-- A client's line takes the storage lock. -/
  | client (line : Bytes)
  /-- The next change is handed over. -/
  | enqueue
  | stop

def Leader.step (e : ExecEnv) (info : Bytes) (l : Leader) : LeaderAction → Option Leader
  | .client line =>
    if l.pending ≠ [] ∨ 10 ∈ line then none
    else
      let r := (⟨l.store, none⟩ : Node).answerLine e info false line
      some { l with store := r.store, pending := r.replicated }
  | .enqueue =>
    match l.pending with
    | [] => none
    | r :: rs =>
      some { l with
        pending := rs
        link := l.link.enqueue (replicate r.1)
        history := l.history ++ [r] }
  | .stop => some { l with link := { l.link with stop := true } }

/-- The leader when a snapshot was cut: its store, and how many changes it had handed over. -/
structure Cut where
  leader : Storage
  before : ℕ

/-- The leader's map right after the first `n` of the changes behind the cut. -/
def Cut.mapAfter (k : Cut) (history : List Storage.Replicated) (n : ℕ) : Map :=
  ((((history.drop k.before).take n).getLast?.map Prod.snd).getD k.leader).toMap

/-- What the sender did on a connection. -/
structure Trail where
  sent : List Bytes
  cut : Option Cut
  /-- How many entries of the snapshot could not be read. -/
  unread : ℕ

structure Conn where
  /-- Sent and not yet received. -/
  wire : Bytes
  /-- The follower's handler. -/
  client : Client
  trail : Trail

def Conn.fresh : Conn := ⟨[], .fresh, ⟨[], none, 0⟩⟩

/-- Sends a line, or only its first bytes. -/
def Conn.send (x : Conn) (line : Bytes) : Option ℕ → Conn
  | none =>
    { x with wire := x.wire ++ line, trail := { x.trail with sent := x.trail.sent ++ [line] } }
  | some n => { x with wire := x.wire ++ line.take n }

/-- Where the sender thread is, and the connection it is on. -/
inductive Sender where
  | connecting
  | greeting (c : ℕ)
  | awaiting (c : ℕ)
  | cutting (c : ℕ)
  /-- About to read the values of an on-disk snapshot. -/
  | opening (c : ℕ) (index : List (Σ _ : Bytes, Entry))
  | reading (c : ℕ) (index : List (Σ _ : Bytes, Entry)) (snapshot : List (Bytes × Bytes))
  | syncing (c : ℕ) (snapshot : List (Bytes × Bytes))
  /-- At the wait of the streaming loop. -/
  | waiting (c : ℕ)
  | sending (c : ℕ) (line : Bytes)
  | cleaning
  | pausing
  | stopped
  deriving DecidableEq

/-- The loop that sends the snapshot, or what follows it. -/
def Sender.sync (c : ℕ) : List (Bytes × Bytes) → Sender
  | [] => .waiting c
  | kv :: snapshot => .syncing c (kv :: snapshot)

/-- The loop that reads the snapshot's values, or what follows it. -/
def Sender.read (c : ℕ) : List (Σ _ : Bytes, Entry) → List (Bytes × Bytes) → Sender
  | [], snapshot => .sync c snapshot
  | kv :: index, snapshot => .reading c (kv :: index) snapshot

inductive SenderAction where
  | connect (connected : Bool)
  /-- A send, with the number of bytes that go out before it fails, if it does. -/
  | send (failed : Option ℕ)
  | ack (received : Bool)
  /-- The atomic cut, with the order the index is iterated in. -/
  | cut (order : IterOrder)
  | open (opened : Bool)
  | read (success : Bool)
  | wake
  | cleanup
  | resume

inductive FollowerAction where
  | receive (c n : ℕ)
  | execute (c : ℕ)
  /-- The handler gives up on its connection. -/
  | hangup (c : ℕ)
  /-- An ordinary client's line. -/
  | reader (line : Bytes)

structure State where
  leader : Leader
  sender : Sender
  /-- How many connections were made. -/
  opened : ℕ
  conn : ℕ → Conn
  follower : Node
  log : List (ℕ × Bytes)

namespace State

def setConn (s : State) (c : ℕ) (x : Conn) : State := { s with conn := Function.update s.conn c x }

def setTrail (s : State) (c : ℕ) (t : Trail) : State := s.setConn c { s.conn c with trail := t }

/-- Sends a line on connection `c`: the sender goes on to `next`, or to the clean-up. -/
def sendLine (s : State) (c : ℕ) (line : Bytes) (failed : Option ℕ) (next : Sender) :
    Option State :=
  match failed with
  | none => some { s.setConn c ((s.conn c).send line none) with sender := next }
  | some n =>
    if n < line.length then
      some { s.setConn c ((s.conn c).send line (some n)) with sender := .cleaning }
    else none

/-- `snapshot_locked` and the cut made inside it. -/
def cutSnapshot (s : State) (c : ℕ) (order : IterOrder) : State :=
  { s.setTrail c { (s.conn c).trail with
      cut := some ⟨s.leader.store, s.leader.history.length⟩ } with
    leader := { s.leader with
      link := { s.leader.link with queue := [], resyncNeeded := false, streaming := true } }
    sender := match s.leader.store.disk with
      | some d => .opening c (d.snapshotIndex order)
      | none => .sync c s.leader.store.items.entries }

/-- Notes that `n` more entries could not be read. -/
def skip (s : State) (c n : ℕ) : State :=
  s.setTrail c { (s.conn c).trail with unread := (s.conn c).trail.unread + n }

/-- One turn of the loop in `read_snapshot`. -/
def readEntry (s : State) (c : ℕ) (kv : Σ _ : Bytes, Entry) (index : List (Σ _ : Bytes, Entry))
    (snapshot : List (Bytes × Bytes)) (success : Bool) : Option State :=
  match s.leader.store.disk with
  | none => none
  | some d =>
    match if success then d.readValue kv.2 else none with
    | some value => some { s with sender := .read c index (snapshot ++ [(kv.1, value)]) }
    | none => some { s.skip c 1 with sender := .read c index snapshot }

/-- The locked section of the streaming loop. -/
def wake (s : State) (c : ℕ) : State :=
  let link := s.leader.link
  if link.stop || link.resyncNeeded then
    { s with
      leader := { s.leader with link := { link with resyncNeeded := false } }
      sender := .cleaning }
  else
    match link.queue with
    | [] => { s with sender := .sending c (ping ++ ascii "\n") }
    | line :: queue =>
      { s with
        leader := { s.leader with link := { link with queue := queue } }
        sender := .sending c line }

def senderStep (s : State) (a : SenderAction) : Option State :=
  match s.sender, a with
  | .connecting, .connect connected =>
    if s.leader.link.stop then some { s with sender := .stopped }
    else if connected then
      some { s.setConn s.opened .fresh with opened := s.opened + 1, sender := .greeting s.opened }
    else some { s with sender := .cleaning }
  | .greeting c, .send failed => s.sendLine c (hello ++ ascii "\n") failed (.awaiting c)
  | .awaiting c, .ack received =>
    if received then
      match splitLine (s.conn c).client.sent with
      | none => none
      | some (reply, _) =>
        some { s with sender := if reply = ascii "OK" then .cutting c else .cleaning }
    else some { s with sender := .cleaning }
  | .cutting c, .cut order => if s.leader.pending ≠ [] then none else some (s.cutSnapshot c order)
  | .opening c index, .open opened =>
    if opened then some { s with sender := .read c index [] }
    else some { s.skip c index.length with sender := .sync c [] }
  | .reading c (kv :: index) snapshot, .read success => s.readEntry c kv index snapshot success
  | .syncing c (kv :: snapshot), .send failed =>
    s.sendLine c (setLine kv.1 kv.2) failed (.sync c snapshot)
  | .waiting c, .wake => some (s.wake c)
  | .sending c line, .send failed => s.sendLine c line failed (.waiting c)
  | .cleaning, .cleanup =>
    some { s with
      leader := { s.leader with link := { s.leader.link with streaming := false, queue := [] } }
      sender := if s.leader.link.stop then .stopped else .pausing }
  | .pausing, .resume =>
    some { s with sender := if s.leader.link.stop then .stopped else .connecting }
  | _, _ => none

/-- What the handler of connection `c` does with `n` bytes it receives; before that it looks at
what it has. -/
def receive (s : State) (c n : ℕ) : Option State :=
  let x := s.conn c
  if s.opened ≤ c ∨ x.client.closed ∨ (splitLine x.client.inbuf).isSome then none
  else if kMaxLineLength < x.client.inbuf.length then
    some (s.setConn c { x with client := { x.client with
      sent := x.client.sent ++ ascii "ERR line too long" ++ [10]
      closed := true } })
  else if n = 0 ∨ 4096 < n ∨ x.wire.length < n then none
  else
    some (s.setConn c { x with
      wire := x.wire.drop n
      client := { x.client with inbuf := x.client.inbuf ++ x.wire.take n } })

/-- The handler of connection `c` executes the next complete line it has. -/
def execute (e : ExecEnv) (info : Bytes) (s : State) (c : ℕ) : Option State :=
  let x := s.conn c
  if s.opened ≤ c ∨ x.client.closed then none
  else
    match splitLine x.client.inbuf with
    | none => none
    | some (line, rest) =>
      let (follower, client) := s.follower.handleLine e info { x.client with inbuf := rest } line
      some { s.setConn c { x with client := client } with
        follower := follower
        log := s.log ++ [(c, line)] }

/-- The follower's handlers and its other clients. -/
def followerStep (e : ExecEnv) (info : Bytes) (s : State) : FollowerAction → Option State
  | .receive c n => s.receive c n
  | .execute c => s.execute e info c
  | .hangup c =>
    if s.opened ≤ c then none
    else some (s.setConn c { s.conn c with client := { (s.conn c).client with closed := true } })
  | .reader line =>
    if (verbAndKey line).1 = hello then none
    else
      let r := s.follower.answerLine e info false line
      some { s with follower := { store := r.store, raft := r.raft } }

end State

/-- The two servers: what executing a line depends on, and what `INFO` reports. -/
structure Pair where
  leaderEnv : ExecEnv
  followerEnv : ExecEnv
  info : Bytes
  leads : leaderEnv.nodeIsFollower = false
  follows : followerEnv.nodeIsFollower = true

inductive Action where
  | leader (a : LeaderAction)
  | sender (a : SenderAction)
  | follower (a : FollowerAction)

namespace Pair

def step (p : Pair) (s : State) : Action → Option State
  | .leader a => (s.leader.step p.leaderEnv p.info a).map fun l => { s with leader := l }
  | .sender a => s.senderStep a
  | .follower a => s.followerStep p.followerEnv p.info a

/-- A leader that starts replicating, and its follower. -/
def init (leader follower : Storage) : State :=
  { leader := ⟨leader, [], ⟨[], false, false, false⟩, []⟩
    sender := .connecting
    opened := 0
    conn := fun _ => .fresh
    follower := ⟨follower, none⟩
    log := [] }

end Pair

end Replicator

end Redon
