import Redon.Lib.Numeral
import Redon.Server

/-!
# The server's command line

`main` takes the flags out of the arguments, reads what is left by position, and refuses settings
that do not go together. An error is the text on the standard error; the program then returns 1.
-/

namespace Redon

open Lib

/-- The settings of a server: those of `ServerConfig`, and those that do not decide what it is. -/
@[ext]
structure Options extends ServerConfig where
  numWorkers : ℕ := 8
  walPath : Bytes := ascii "redon.wal"
  idleTimeoutSeconds : ℕ := 300
  capacity : ℕ := 0
  metricsPort : ℕ := 0
  deriving DecidableEq, Repr

namespace Main

/-- The number that `read` makes of the whole text, unless it is refused. -/
def parseNumber (read : Bytes → Option ℤ) (refused : ℤ → Bool) (text : Bytes) : Option ℕ :=
  match read text with
  | none => none
  | some value =>
    if consumed text ≠ text.length || refused value then none else some value.toNat

def parsePort : Bytes → Option ℕ :=
  parseNumber stoi fun value => value < 1 || value > 65535

def parseWorkers : Bytes → Option ℕ :=
  parseNumber stol fun value => value < 1 || value > 4096

def parseTimeout : Bytes → Option ℕ :=
  parseNumber stol fun value => value < 0 || value > 86400

def parseCapacity : Bytes → Option ℕ :=
  parseNumber stoll fun value => value < 0

/-- `hw` is what the system says of its hardware threads. -/
def defaultWorkers (hw : ℕ) : ℕ := if hw ≠ 0 then hw else 8

/-- The flags that take the next argument as their value. -/
inductive Flag where
  | follower
  | raft
  | shard
  | disk
  | metricsPort
  deriving DecidableEq, Repr

namespace Flag

def name : Flag → Bytes
  | follower => ascii "--follower"
  | raft => ascii "--raft"
  | shard => ascii "--shard"
  | disk => ascii "--disk"
  | metricsPort => ascii "--metrics-port"

/-- The error for a flag at the end of the arguments. -/
def missing (f : Flag) : Bytes :=
  ascii "error: " ++ f.name ++ (match f with
    | follower => ascii " needs a host:port argument\n"
    | raft => ascii " needs a host:port argument\n"
    | shard => ascii " needs a host:port argument\n"
    | disk => ascii " needs a file path argument\n"
    | metricsPort => ascii " needs a port number\n")

def set (o : Options) (value : Bytes) : Flag → Except Bytes Options
  | follower => .ok { o with followerAddrs := o.followerAddrs ++ [value] }
  | raft => .ok { o with raftPeers := o.raftPeers ++ [value] }
  | shard => .ok { o with shardAddrs := o.shardAddrs ++ [value] }
  | disk => .ok { o with diskPath := value }
  | metricsPort =>
    match parsePort value with
    | none => .error (ascii "error: invalid metrics port '" ++ value ++ ascii "'\n")
    | some mp => .ok { o with metricsPort := mp }

/-- The flag that an argument is. -/
def ofArg (arg : Bytes) : Option Flag :=
  if arg = ascii "--follower" then some follower
  else if arg = ascii "--raft" then some raft
  else if arg = ascii "--shard" then some shard
  else if arg = ascii "--disk" then some disk
  else if arg = ascii "--metrics-port" then some metricsPort
  else none

end Flag

/-- The loop that separates the flags from the positional arguments. -/
def separate : Options → List Bytes → List Bytes → Except Bytes (Options × List Bytes)
  | o, pos, [] => .ok (o, pos)
  | o, pos, arg :: args =>
    if arg = ascii "--replica" then separate { o with isFollower := true } pos args
    else
      match Flag.ofArg arg with
      | some f =>
        match args with
        | [] => .error f.missing
        | value :: args =>
          match f.set o value with
          | .error e => .error e
          | .ok o => separate o pos args
      | none =>
        if (ascii "--").isPrefixOf arg then
          .error (ascii "error: unknown option '" ++ arg ++ ascii "'\n")
        else separate o (pos ++ [arg]) args

/-- Sets a number from positional argument `i`, if there is one. -/
def setNumber (pos : List Bytes) (i : ℕ) (parse : Bytes → Option ℕ) (what expected : Bytes)
    (set : ℕ → Options) (o : Options) : Except Bytes Options :=
  match pos[i]? with
  | none => .ok o
  | some text =>
    match parse text with
    | none => .error (ascii "error: invalid " ++ what ++ ascii " '" ++ text ++ ascii "'"
        ++ expected ++ ascii "\n")
    | some n => .ok (set n)

variable (pos : List Bytes) (o : Options)

/-- A single positional argument is the port. -/
def setAddress : Except Bytes Options :=
  if pos.length = 1 then
    setNumber pos 0 parsePort (ascii "port") [] (fun n => { o with port := n }) o
  else if 2 ≤ pos.length then
    let o := { o with host := pos.headD [] }
    setNumber pos 1 parsePort (ascii "port") [] (fun n => { o with port := n }) o
  else .ok o

def setThreads : Except Bytes Options :=
  setNumber pos 2 parseWorkers (ascii "thread count") (ascii " (expected 1..4096)")
    (fun n => { o with numWorkers := n }) o

def setWal : Options :=
  match pos[3]? with
  | none => o
  | some path => { o with walPath := path }

def setIdle : Except Bytes Options :=
  setNumber pos 4 parseTimeout (ascii "idle timeout") (ascii " (expected 0..86400 seconds)")
    (fun n => { o with idleTimeoutSeconds := n }) o

def setCapacity : Except Bytes Options :=
  setNumber pos 5 parseCapacity (ascii "capacity") (ascii " (expected a non-negative integer)")
    (fun n => { o with capacity := n }) o

/-- The checks of the settings as a whole. -/
def check : Except Bytes Options :=
  if 6 < pos.length then
    .error (ascii "usage: redon-server [host] [port] [threads] [wal] [idle] "
      ++ ascii "[capacity] [--replica] [--follower host:port ...]\n")
  else
    match o.conflict with
    | some e => .error e
    | none =>
      if o.metricsPort ≠ 0 && o.metricsPort % 2 ^ 16 = o.port then
        .error (ascii "error: --metrics-port must differ from the data port (" ++ decimal o.port
          ++ ascii ")\n")
      else .ok o

/-- The settings with which `main` makes the server, for arguments without the program's name. -/
def main (hw : ℕ) (args : List Bytes) : Except Bytes Options := do
  let (o, pos) ← separate { numWorkers := defaultWorkers hw } [] args
  let o ← setAddress pos o
  let o ← setThreads pos o
  let o := setWal pos o
  let o ← setIdle pos o
  let o ← setCapacity pos o
  check pos o

end Main

end Redon
