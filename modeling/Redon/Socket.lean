import Redon.Router

/-!
# One request on a connection

A server that asks another one makes a connection, sends a line and reads a line back. The thread of
the connection at the other server receives the bytes in any pieces and executes a line when it has
one; whether the asking server is still there makes no difference to it.
-/

namespace Redon

open Lib

/-- A connection that was made, with its thread at the server that accepted it. -/
structure Socket where
  /-- Sent and not yet received. -/
  wire : Bytes
  client : Client

namespace Socket

/-- A connection on which the first bytes of a request were sent. -/
def dialled (request : Bytes) (sent : ℕ) : Socket := ⟨request.take sent, .fresh⟩

/-- The thread refuses an overlong line before it receives more. -/
def receive (x : Socket) (k : ℕ) : Option Socket :=
  if x.client.closed ∨ (splitLine x.client.inbuf).isSome then none
  else if kMaxLineLength < x.client.inbuf.length then
    some { x with client := { x.client with
      sent := x.client.sent ++ ascii "ERR line too long" ++ [10]
      closed := true } }
  else if k = 0 ∨ 4096 < k ∨ x.wire.length < k then none
  else
    some {
      wire := x.wire.drop k
      client := { x.client with inbuf := x.client.inbuf ++ x.wire.take k } }

/-- The next line to execute, and the thread's state as it does. -/
def nextLine (x : Socket) : Option (Bytes × Client) :=
  if x.client.closed then none
  else (splitLine x.client.inbuf).map fun (line, rest) => (line, { x.client with inbuf := rest })

def hangup (x : Socket) : Socket := { x with client := { x.client with closed := true } }

end Socket

end Redon
