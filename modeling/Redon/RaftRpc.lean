import Redon.Cluster
import Redon.Lib.IStream
import Redon.Router

/-!
# The sender's side of a Raft request

A node asks a peer on a connection of its own: it sends one line, reads one line back, and takes the
term and the flag from the tokens of that line. What the peer sends back for a request is an input.
-/

namespace Redon

open Lib

namespace RaftNode

def kMaxLine : ℕ := 1024

def splitHostPort (addr : Bytes) : Option (Bytes × ℕ) := Router.splitHostPort addr

/-- The first line of what a peer sends. -/
def recvLine : Bytes → Bytes → Option Bytes
  | _, [] => none
  | line, c :: rest =>
    if c = 10 then some line
    else if kMaxLine ≤ line.length then none
    else recvLine (line ++ [c]) rest

/-- What the peer at a host and a port sends back for a request, if a connection is made and takes
all of the request. -/
abbrev Net := Bytes → ℕ → Bytes → Option Bytes

/-- The tokens of the reply to a request. -/
def rpc (net : Net) (host : Bytes) (port : ℕ) (request : Bytes) : Option (List Bytes) :=
  match net host port request with
  | none => none
  | some sent => (recvLine [] sent).map fun reply => (IStream.ofBytes reply).tokens

/-- The term and the flag, from the tokens of a reply. -/
def decode (replyWord : Bytes) : List Bytes → Option (ℤ × Bool)
  | word :: replyTerm :: flag :: _ =>
    if word ≠ replyWord then none
    else (stol replyTerm).map fun n => (n, flag = ascii "1")
  | _ => none

/-- The line that asks for `word` in a term. -/
def request (word : Bytes) (c : Config) (term : ℤ) : Bytes :=
  word ++ decimalInt term ++ ascii " " ++ c.selfId ++ ascii "\n"

variable (net : Net) (c : Config) (peer : Bytes) (term : ℤ)

def sendRpc (word replyWord : Bytes) : Option (ℤ × Bool) :=
  match splitHostPort peer with
  | none => none
  | some (host, port) => (rpc net host port (request word c term)).bind (decode replyWord)

def sendRequestVote : Option (ℤ × Bool) :=
  sendRpc net c peer term (ascii "__RAFT_VOTE__ ") (ascii "__VOTE__")

def sendAppendEntries : Option (ℤ × Bool) :=
  sendRpc net c peer term (ascii "__RAFT_APPEND__ ") (ascii "__APPENDED__")

end RaftNode

namespace Rpc

open RaftNode

/-- The line a node sends for a request of this kind. -/
def request : Rpc → Config → ℤ → Bytes
  | .vote => RaftNode.request (ascii "__RAFT_VOTE__ ")
  | .append => RaftNode.request (ascii "__RAFT_APPEND__ ")

def send : Rpc → Net → Config → Bytes → ℤ → Option (ℤ × Bool)
  | .vote => sendRequestVote
  | .append => sendAppendEntries

def handle : Rpc → Config → RaftNode → ℤ → Bytes → Tick → (ℤ × Bool) × RaftNode
  | .vote => handleRequestVote
  | .append => handleAppendEntries

end Rpc

end Redon
