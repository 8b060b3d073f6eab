import Mathlib.Data.List.DropRight
import Redon.Raft
import Redon.Storage

/-!
# The command layer

A line is trimmed, split into a verb, a key and the rest, and executed on the store. The state it
may change is the store, the connection's replica flag and the Raft node, if there is one.
-/

namespace Redon

open Lib

/-- ASCII white space, whatever the locale. -/
def isSpace (c : UInt8) : Bool :=
  c == 32 || c == 9 || c == 13 || c == 10 || c == 11 || c == 12

def skipSpaces (s : Bytes) : Bytes := s.dropWhile isSpace

/-- Skips a leading byte-order mark and the white space behind it. -/
def skipBom : Bytes → Bytes
  | 0xEF :: 0xBB :: 0xBF :: rest => skipSpaces rest
  | s => s

def trim (s : Bytes) : Bytes := (skipBom (skipSpaces s)).rdropWhile isSpace

def toUpper (s : Bytes) : Bytes := s.map fun c => if 97 ≤ c && c ≤ 122 then c - 32 else c

/-- The next token, and what is left behind it and the white space that follows. -/
def nextToken (s : Bytes) : Bytes × Bytes :=
  (s.takeWhile fun c => !isSpace c, skipSpaces (s.dropWhile fun c => !isSpace c))

def wrongArgs (verbLower : Bytes) : Bytes :=
  ascii "ERR wrong number of arguments for '" ++ verbLower ++ ascii "' command"

/-- What executing a line depends on besides the line and the state. -/
structure ExecEnv where
  nodeIsFollower : Bool
  raftConfig : RaftNode.Config
  tick : RaftNode.Tick
  /-- Whether an on-disk engine's file is truncated and reopened when it is cleared. -/
  truncated : Bool
  reopened : Bool

structure ExecState where
  store : Storage
  isReplicaLink : Bool
  raft : Option RaftNode

structure Executed extends ExecState where
  reply : Bytes
  shouldClose : Bool
  /-- Whether a well-formed `GET` found its key. -/
  wasGetHit : Bool
  /-- The changes handed to the replicator. -/
  replicated : List Storage.Replicated

namespace ExecState

variable (e : ExecEnv) (x : ExecState)

def answer (reply : Bytes) : Executed :=
  { x with reply := reply, shouldClose := false, wasGetHit := false, replicated := [] }

def executeReplSync : Executed :=
  if !e.nodeIsFollower then x.answer (ascii "ERR __REPLSYNC__ is only valid on a read-only replica")
  else if x.isReplicaLink then
    x.answer (ascii "ERR replication sync already in progress on this connection")
  else
    let (cleared, store) := x.store.clear e.truncated e.reopened
    { x with store := store, isReplicaLink := true }.answer
      (if cleared then ascii "OK" else ascii "ERR replica storage failed to reset for sync")

/-- The text of a reply to a peer's request. -/
def raftReply (word : Bytes) (reply : ℤ × Bool) : Bytes :=
  word ++ decimalInt reply.1 ++ ascii " " ++ (if reply.2 then ascii "1" else ascii "0")

def executeRaft (verb key rest : Bytes) : Executed :=
  match x.raft with
  | none => x.answer (ascii "ERR this node is not part of a Raft cluster")
  | some node =>
    match stol key with
    | none => x.answer (ascii "ERR malformed Raft RPC")
    | some term =>
      if verb = ascii "__RAFT_VOTE__" then
        let (reply, node) := node.handleRequestVote e.raftConfig term rest e.tick
        { x with raft := some node }.answer (raftReply (ascii "__VOTE__ ") reply)
      else
        let (reply, node) := node.handleAppendEntries e.raftConfig term rest e.tick
        { x with raft := some node }.answer (raftReply (ascii "__APPENDED__ ") reply)

/-- The text of a node's Raft status. -/
def statusLine (node : RaftNode) : Bytes :=
  ascii "role=" ++ (match node.role with
    | .leader => ascii "leader"
    | .candidate => ascii "candidate"
    | .follower => ascii "follower")
    ++ ascii " term=" ++ decimalInt node.currentTerm ++ ascii " leader="
    ++ (if node.leaderId.isEmpty then ascii "(none)" else node.leaderId)

def executeRole : Executed :=
  x.answer (match x.raft with
    | some node => statusLine node
    | none => ascii "standalone (not a Raft cluster)")

def executeSet (key rest : Bytes) : Executed :=
  if key.isEmpty || rest.isEmpty then x.answer (wrongArgs (ascii "set"))
  else
    let (stored, store, replicated) := x.store.set key rest
    { { x with store := store }.answer
        (if stored then ascii "OK" else ascii "ERR write failed: data not persisted") with
      replicated := replicated }

def executeGet (key rest : Bytes) : Executed :=
  if key.isEmpty || !rest.isEmpty then x.answer (wrongArgs (ascii "get"))
  else
    let (found, store) := x.store.get key
    { { x with store := store }.answer (found.getD (ascii "(nil)")) with
      wasGetHit := found.isSome }

def executeDel (key rest : Bytes) : Executed :=
  if key.isEmpty || !rest.isEmpty then x.answer (wrongArgs (ascii "del"))
  else
    let (d, store, replicated) := x.store.del key
    { { x with store := store }.answer
        (if !d.durable then ascii "ERR write failed: data not persisted"
          else ascii "(integer) " ++ decimal d.removed) with
      replicated := replicated }

def executeExists (key rest : Bytes) : Executed :=
  if key.isEmpty || !rest.isEmpty then x.answer (wrongArgs (ascii "exists"))
  else x.answer (ascii "(integer) " ++ decimal (if x.store.exists? key then 1 else 0))

def executePing (key rest : Bytes) : Executed :=
  if !key.isEmpty || !rest.isEmpty then x.answer (wrongArgs (ascii "ping"))
  else x.answer (ascii "PONG")

def executeQuit (key rest : Bytes) : Executed :=
  if !key.isEmpty || !rest.isEmpty then x.answer (wrongArgs (ascii "quit"))
  else { x.answer (ascii "OK") with shouldClose := true }

def isWrite (verb : Bytes) : Bool :=
  verb = ascii "SET" || verb = ascii "DEL" || verb = ascii "DELETE"

def executeVerb (verb key rest : Bytes) : Executed :=
  if verb = ascii "SET" then x.executeSet key rest
  else if verb = ascii "GET" then x.executeGet key rest
  else if verb = ascii "DEL" ∨ verb = ascii "DELETE" then x.executeDel key rest
  else if verb = ascii "EXISTS" then x.executeExists key rest
  else if verb = ascii "PING" then x.executePing key rest
  else if verb = ascii "QUIT" ∨ verb = ascii "EXIT" then x.executeQuit key rest
  else x.answer (ascii "ERR unknown command '" ++ verb ++ ascii "'")

/-- Whether a write is refused on this node, and with what reply. -/
def refusal (verb : Bytes) : Option Bytes :=
  if e.nodeIsFollower && !x.isReplicaLink && isWrite verb then
    some (ascii "ERR READONLY this node is a read-only replica")
  else
    match x.raft with
    | some node =>
      if node.role ≠ .leader ∧ isWrite verb then
        some (ascii "ERR NOTLEADER "
          ++ (if node.leaderId.isEmpty then ascii "(unknown)" else node.leaderId))
      else none
    | none => none

def executeTokens (verb key rest : Bytes) : Executed :=
  if verb = ascii "__REPLSYNC__" then x.executeReplSync e
  else if verb = ascii "__RAFT_VOTE__" ∨ verb = ascii "__RAFT_APPEND__" then
    x.executeRaft e verb key rest
  else if verb = ascii "ROLE" then x.executeRole
  else
    match x.refusal e verb with
    | some reply => x.answer reply
    | none => x.executeVerb verb key rest

def executeLine (line : Bytes) : Executed :=
  let s := trim line
  if s.isEmpty then x.answer []
  else
    let (verb, s) := nextToken s
    let (key, rest) := nextToken s
    x.executeTokens e (toUpper verb) key rest

end ExecState

end Redon
