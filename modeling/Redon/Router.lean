import Redon.Command
import Redon.Lib.ReadLine

/-!
# Servers and the sharding router

A connection's bytes are cut into lines, and each line is executed or, on a router, forwarded: the
router hashes the key to a shard, sends the line there on a connection of its own and relays the
first line of what the shard sends back.
-/

namespace Redon

open Lib

/-- The verb, in upper case, and the key of a line. -/
def verbAndKey (line : Bytes) : Bytes × Bytes :=
  let s := skipBom (skipSpaces line)
  let verb := s.takeWhile fun c => !isSpace c
  let s := skipSpaces (s.dropWhile fun c => !isSpace c)
  (toUpper verb, s.takeWhile fun c => !isSpace c)

def kMaxLineLength : ℕ := 64 * 1024

/-- The bytes up to a newline and those behind it, if there is one. -/
def splitLine (b : Bytes) : Option (Bytes × Bytes) :=
  if 10 ∈ b then some (b.takeWhile (· ≠ 10), (b.dropWhile (· ≠ 10)).drop 1) else none

/-- A server that is not a router. -/
structure Node where
  store : Storage
  raft : Option RaftNode

structure Client where
  inbuf : Bytes
  isReplicaLink : Bool
  /-- What was sent to the peer. -/
  sent : Bytes
  closed : Bool

def Client.fresh : Client := ⟨[], false, [], false⟩

namespace Node

variable (e : ExecEnv) (info : Bytes)

/-- The result of a line: `info` is what the metrics report for `INFO`. -/
def answerLine (nd : Node) (isReplicaLink : Bool) (line : Bytes) : Executed :=
  let x : ExecState := { store := nd.store, isReplicaLink := isReplicaLink, raft := nd.raft }
  if (verbAndKey line).1 = ascii "INFO" then x.answer info else x.executeLine e line

/-- One complete line: a replica link gets no reply. -/
def handleLine (nd : Node) (c : Client) (line : Bytes) : Node × Client :=
  let r := nd.answerLine e info c.isReplicaLink line
  ({ store := r.store, raft := r.raft },
    { c with
      isReplicaLink := r.isReplicaLink
      sent := if c.isReplicaLink then c.sent else c.sent ++ r.reply ++ [10]
      closed := r.shouldClose })

/-- Every complete line of the buffer, until one closes the connection. -/
def handleLines : ℕ → Node → Client → Node × Client
  | 0, nd, c => (nd, c)
  | fuel + 1, nd, c =>
    if c.closed then (nd, c)
    else
      match splitLine c.inbuf with
      | none => (nd, c)
      | some (line, rest) =>
        let (nd, c) := nd.handleLine e info { c with inbuf := rest } line
        handleLines fuel nd c

/-- One `recv`: the lines it completes, and then the check of what is left over. -/
def receive (nd : Node) (c : Client) (chunk : Bytes) : Node × Client :=
  if c.closed then (nd, c)
  else
    let c := { c with inbuf := c.inbuf ++ chunk }
    let (nd, c) := handleLines e info c.inbuf.length nd c
    if !c.closed && kMaxLineLength < c.inbuf.length then
      (nd, { c with sent := c.sent ++ ascii "ERR line too long" ++ [10], closed := true })
    else (nd, c)

def receiveAll (nd : Node) (c : Client) (chunks : List Bytes) : Node × Client :=
  chunks.foldl (fun (nd, c) chunk => nd.receive e info c chunk) (nd, c)

end Node

namespace Router

def fnv1a (s : Bytes) : UInt64 :=
  s.foldl (fun h c => (h ^^^ c.toUInt64) * 1099511628211) 1469598103934665603

/-- The shard of a key, among `n`. -/
def shardFor (n : ℕ) (key : Bytes) : ℕ := if n = 0 then 0 else (fnv1a key).toNat % n

def kMaxReply : ℕ := 128 * 1024

/-- The first line of what a shard sends, without one carriage return at its end. -/
def recvLine (sent : Bytes) : Option Bytes := readLine kMaxReply [] sent

def splitHostPort (addr : Bytes) : Option (Bytes × ℕ) :=
  let port := (addr.reverse.takeWhile (· ≠ 58)).reverse
  let host := ((addr.reverse.dropWhile (· ≠ 58)).drop 1).reverse
  if 58 ∉ addr ∨ host = [] ∨ port = [] then none
  else
    match stoi port with
    | none => none
    | some p => if p < 1 ∨ 65535 < p then none else some (host, p.toNat)

/-- The reply of a shard, given what it sends on the connection, if one is made. -/
def forward (shards : List Bytes) (i : ℕ) (answered : Option Bytes) : Bytes :=
  match shards[i]? with
  | none => ascii "ERR ROUTER: no such shard"
  | some addr =>
    match splitHostPort addr, answered with
    | none, _ => ascii "ERR ROUTER: invalid shard address '" ++ addr ++ ascii "'"
    | some _, none => ascii "ERR ROUTER: shard " ++ addr ++ ascii " is unreachable"
    | some _, some sent =>
      match recvLine sent with
      | none => ascii "ERR ROUTER: shard " ++ addr ++ ascii " request failed"
      | some reply => reply

/-- What a router does with a line: answers it or forwards it to a shard. -/
inductive Route where
  | reply (text : Bytes) (shouldClose : Bool)
  | forward (shard : ℕ)
  deriving DecidableEq, Repr

def routeLine (n : ℕ) (line : Bytes) : Route :=
  let (verb, key) := verbAndKey line
  if verb = [] then .reply [] false
  else if verb = ascii "QUIT" ∨ verb = ascii "EXIT" then .reply (ascii "OK") true
  else if verb = ascii "PING" then .reply (ascii "PONG") false
  else if key = [] then
    .reply (ascii "ERR ROUTER: '" ++ verb ++ ascii "' needs a key to route on") false
  else .forward (shardFor n key)

/-- A client's line, and how it arrives at the shard it is forwarded to. -/
structure Request where
  line : Bytes
  chunks : List Bytes

/-- A router's reply to a line, with all shards reachable, and what it does to them. -/
def serve (e : ExecEnv) (info : Bytes) (shards : List Bytes) (nodes : ℕ → Node) (q : Request) :
    Bytes × (ℕ → Node) :=
  if (verbAndKey q.line).1 = ascii "INFO" then (info, nodes)
  else
    match routeLine shards.length q.line with
    | .reply text _ => (text, nodes)
    | .forward i =>
      let (nd, c) := (nodes i).receiveAll e info .fresh q.chunks
      (forward shards i (some c.sent), Function.update nodes i nd)

end Router

/-- A server's reply to the same line. -/
def Node.serve (e : ExecEnv) (info : Bytes) (nd : Node) (q : Router.Request) : Bytes × Node :=
  let r := nd.answerLine e info false q.line
  (r.reply, { store := r.store, raft := r.raft })

end Redon
