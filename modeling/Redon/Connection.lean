import Redon.Lib.LineService
import Redon.Router

/-!
# A connection's thread

`handle_client` on a server or a router. Between two lines of a connection the other threads change
what they share, so each line is executed in a world of its own. What was executed is recorded; no
step reads the record but to count the lines.
-/

namespace Redon

open Lib

/-- What a line meets: the shared state as the other threads have left it, and what the shard that
the line is forwarded to sends back, if it can be reached. -/
structure World where
  node : Node
  env : ExecEnv
  info : Bytes
  answered : Option Bytes

structure Response where
  reply : Bytes
  shouldClose : Bool
  isReplicaLink : Bool

/-- What a line comes to, on a router if there are shards. -/
def World.respond (shards : Option (List Bytes)) (w : World) (isReplicaLink : Bool)
    (line : Bytes) : Response :=
  if (verbAndKey line).1 = ascii "INFO" then ⟨w.info, false, isReplicaLink⟩
  else
    match shards with
    | some shards =>
      match Router.routeLine shards.length line with
      | .reply text shouldClose => ⟨text, shouldClose, isReplicaLink⟩
      | .forward i => ⟨Router.forward shards i w.answered, false, isReplicaLink⟩
    | none =>
      let x : ExecState :=
        { store := w.node.store, isReplicaLink := isReplicaLink, raft := w.node.raft }
      let r := x.executeLine w.env line
      ⟨r.reply, r.shouldClose, r.isReplicaLink⟩

/-- A line that was executed. -/
structure Handled where
  line : Bytes
  wasReplicaLink : Bool
  reply : Bytes
  deriving DecidableEq, Repr

/-- A connection, its buffer apart. -/
structure Handler where
  isReplicaLink : Bool
  sent : Bytes
  closed : Bool
  handled : List Handled
  deriving DecidableEq, Repr

namespace Handler

def accepted : Handler := ⟨false, [], false, []⟩

variable (shards : Option (List Bytes)) (world : ℕ → World)

/-- One complete line; the `n`th of the connection meets `world n`. -/
def handleLine (c : Handler) (line : Bytes) : Handler :=
  let r := (world c.handled.length).respond shards c.isReplicaLink line
  { isReplicaLink := r.isReplicaLink
    sent := if c.isReplicaLink then c.sent else c.sent ++ r.reply ++ [10]
    closed := r.shouldClose
    handled := c.handled ++ [⟨line, c.isReplicaLink, r.reply⟩] }

def service : LineService UInt8 Handler where
  handle := handleLine shards world
  closed := closed
  refuse c := { c with sent := c.sent ++ ascii "ERR line too long" ++ [10], closed := true }
  closed_refuse _ := rfl

/-- The thread of a connection that receives `chunks`. -/
def handleClient (chunks : List Bytes) : Handler :=
  ((service shards world).receiveAll 10 kMaxLineLength (accepted, []) chunks).1

end Handler

end Redon
