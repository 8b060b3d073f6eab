import Redon.Connection
import Redon.Socket

/-!
# The command-line client

`redon-cli` with a server, or a router, at the other end of its connection. The client sends a line
and reads one line back before it prompts again; it leaves when it believes that the server has
closed the connection. Bytes travel in any pieces in both directions, and each line meets the state
that the server's other threads have left.

The fields `sent`, `executed` and `replies` record the lines that the client sent, perhaps not all
of the last one, those that the server executed and what it replied; no step reads them.
-/

namespace Redon

open Lib

namespace Cli

def firstWordUpper (line : Bytes) : Bytes :=
  toUpper ((skipSpaces line).takeWhile fun c => !isSpace c)

inductive Phase where
  | prompt
  /-- In `recv_line`, for the reply to a line. -/
  | reading (line : Bytes)
  /-- The input ended. -/
  | ended
  /-- The server accepted that the client quits. -/
  | quit
  /-- The client gave up on the connection. -/
  | lost
  deriving DecidableEq

structure Session where
  phase : Phase
  inbuf : Bytes
  printed : List Bytes
  /-- The connection at the server. -/
  socket : Socket
  /-- How many bytes of the server's the client has received. -/
  taken : ℕ
  /-- The connection has failed, or the server has given up on the client. -/
  broken : Bool
  sent : List Bytes
  executed : List Bytes
  replies : List Bytes

inductive Action where
  /-- A line is typed. If sending it fails, so many bytes of it go out. -/
  | type (line : Bytes) (failed : Option ℕ)
  | endInput
  /-- The server's thread receives so many bytes. -/
  | receive (k : ℕ)
  /-- The server's thread executes the next line. -/
  | execute (w : World)
  | break
  /-- The client receives so many bytes, none if the connection is closed. -/
  | recv (k : ℕ)
  /-- The client has a line. -/
  | print

namespace Session

def init : Session where
  phase := .prompt
  inbuf := []
  printed := []
  socket := ⟨[], .fresh⟩
  taken := 0
  broken := false
  sent := []
  executed := []
  replies := []

/-- The line without its carriage return; a blank one is not sent. -/
def type (s : Session) (line : Bytes) (failed : Option ℕ) : Option Session :=
  let line := dropCr line
  let out := line ++ ascii "\n"
  if line = [] then some s
  else
    match failed with
    | none =>
      some { s with
        phase := .reading line
        socket := { s.socket with wire := s.socket.wire ++ out }
        sent := s.sent ++ [line] }
    | some k =>
      if out.length ≤ k then none
      else
        some { s with
          phase := .lost
          socket := { s.socket with wire := s.socket.wire ++ out.take k }
          broken := true
          sent := s.sent ++ [line] }

/-- The server's thread executes a line. A replica link gets no reply. -/
def execute (shards : Option (List Bytes)) (s : Session) (w : World) : Option Session :=
  s.socket.nextLine.map fun (line, client) =>
    let r := w.respond shards client.isReplicaLink line
    { s with
      socket := { s.socket with client := { client with
        isReplicaLink := r.isReplicaLink
        sent := if client.isReplicaLink then client.sent else client.sent ++ r.reply ++ [10]
        closed := r.shouldClose } }
      executed := s.executed ++ [line]
      replies := s.replies ++ [r.reply] }

/-- One turn of the loop in `recv_line`. -/
def recv (s : Session) (k : ℕ) : Option Session :=
  let coming := s.socket.client.sent.drop s.taken
  if k = 0 then
    if s.broken ∨ (s.socket.client.closed ∧ coming = []) then some { s with phase := .lost }
    else none
  else if 4096 < k ∨ coming.length < k then none
  else
    let inbuf := s.inbuf ++ coming.take k
    some { s with
      inbuf := inbuf
      taken := s.taken + k
      phase := if kMaxLineLength < inbuf.length then .lost else s.phase }

/-- The client prints the reply and leaves if it asked to and was not refused. -/
def print (s : Session) (line reply rest : Bytes) : Session :=
  let reply := dropCr reply
  let verb := firstWordUpper line
  let serverRejected := ascii "ERR" <+: reply
  { s with
    inbuf := rest
    printed := s.printed ++ [reply]
    phase := if (verb = ascii "QUIT" ∨ verb = ascii "EXIT") ∧ ¬serverRejected then .quit
      else .prompt }

def step (shards : Option (List Bytes)) (s : Session) (a : Action) : Option Session :=
  match a, s.phase with
  | .type line failed, .prompt => if 10 ∈ line then none else s.type line failed
  | .endInput, .prompt => some { s with phase := .ended }
  | .receive k, _ => (s.socket.receive k).map fun x => { s with socket := x }
  | .execute w, _ => s.execute shards w
  | .break, _ => some { s with socket := s.socket.hangup, broken := true }
  | .recv k, .reading _ => if 10 ∈ s.inbuf then none else s.recv k
  | .print, .reading line => (splitLine s.inbuf).map fun (reply, rest) => s.print line reply rest
  | _, _ => none

/-- A line that the client and the server take alike: not too long, with no byte-order mark, and
none that makes the connection a replica link. -/
def Tame (line : Bytes) : Prop :=
  line.length ≤ kMaxLineLength ∧ skipBom (skipSpaces line) = skipSpaces line
    ∧ (verbAndKey line).1 ≠ ascii "__REPLSYNC__"

instance (line : Bytes) : Decidable (Tame line) := instDecidableAnd

/-- The typed lines are tame, and each reply is one line that the client can hold. -/
def tame (shards : Option (List Bytes)) (s : Session) : Action → Bool
  | .type line _ => Tame (dropCr line)
  | .execute w => s.socket.nextLine.all fun (line, client) =>
    let reply := (w.respond shards client.isReplicaLink line).reply
    10 ∉ reply ∧ reply.length < kMaxLineLength
  | _ => true

end Session

end Cli

end Redon
