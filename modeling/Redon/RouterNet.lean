import Redon.Socket

/-!
# Routers in front of shards

Clients send lines to routers that share one list of shards. A worker of a router answers a line
itself or forwards it on a connection of its own, and it answers its client with the shard's reply
or with an error: the shard has no proper address, no connection is made, or the request fails on
the way there or back. The shards serve the connections in any order, also those that a worker has
given up on.

The field `done` records the lines that shards executed, with their replies; no step reads it.
-/

namespace Redon

open Lib

namespace Router

/-- A client's line at a router. -/
structure Asked where
  line : Bytes
  /-- The shard that it was sent to, if a connection was made. -/
  dialled : Option (ℕ × Socket)
  /-- What the client is answered. -/
  result : Option Bytes

/-- A line that was executed, for the client's line of number `asked`. -/
structure Done where
  asked : ℕ
  line : Bytes
  reply : Bytes

/-- The same line sent to one server. -/
def Done.request (d : Done) : Request := ⟨d.line, [d.line ++ [10]]⟩

end Router

structure RouterNet where
  nodes : ℕ → Node
  asked : List Router.Asked
  done : List Router.Done

namespace RouterNet

open Router

inductive Action where
  /-- A worker takes a client's line. If a connection to a shard is made, it takes so many bytes. -/
  | ask (line : Bytes) (sent : Option ℕ)
  /-- The thread of a connection receives so many bytes. -/
  | receive (c k : ℕ)
  /-- The thread of a connection executes its next line. -/
  | execute (c : ℕ)
  | hangup (c : ℕ)
  /-- The worker reads the shard's reply. -/
  | takeReply (c : ℕ)
  /-- The connection fails or times out. -/
  | giveUp (c : ℕ)

def init (nodes : ℕ → Node) : RouterNet := ⟨nodes, [], []⟩

def setSocket (s : RouterNet) (c : ℕ) (a : Asked) (i : ℕ) (x : Socket) : RouterNet :=
  { s with asked := s.asked.set c { a with dialled := some (i, x) } }

def answer (s : RouterNet) (c : ℕ) (a : Asked) (result : Bytes) : RouterNet :=
  { s with asked := s.asked.set c { a with result := some result } }

variable (e : ExecEnv) (info : Bytes) (shards : List Bytes)

/-- `route_line`, up to the reply of a shard. -/
def ask (line : Bytes) (sent : Option ℕ) : Asked :=
  if (verbAndKey line).1 = ascii "INFO" then ⟨line, none, some info⟩
  else
    match routeLine shards.length line with
    | .reply text _ => ⟨line, none, some text⟩
    | .forward i =>
      let request := line ++ ascii "\n"
      match (shards[i]?).bind splitHostPort, sent with
      | some _, some k =>
        ⟨line, some (i, .dialled request k),
          if request.length ≤ k then none else some (forward shards i (some []))⟩
      | _, _ => ⟨line, none, some (forward shards i none)⟩

/-- What is done with the connection of line `c`. -/
def onSocket (s : RouterNet) (c : ℕ) (f : Asked → ℕ → Socket → Option RouterNet) :
    Option RouterNet :=
  match s.asked[c]? with
  | some a =>
    match a.dialled with
    | some (i, x) => f a i x
    | none => none
  | none => none

def step (s : RouterNet) : Action → Option RouterNet
  | .ask line sent =>
    if 10 ∈ line then none
    else some { s with asked := s.asked ++ [ask info shards line sent] }
  | .receive c k => s.onSocket c fun a i x => (x.receive k).map (s.setSocket c a i)
  | .execute c => s.onSocket c fun a i x => x.nextLine.map fun (line, client) =>
    let r := (s.nodes i).answerLine e info client.isReplicaLink line
    let (nd, client) := (s.nodes i).handleLine e info client line
    { s.setSocket c a i { x with client := client } with
      nodes := Function.update s.nodes i nd
      done := s.done ++ [⟨c, line, r.reply⟩] }
  | .hangup c => s.onSocket c fun a i x => some (s.setSocket c a i x.hangup)
  | .takeReply c => s.onSocket c fun a i x =>
    if a.result.isSome ∨ (recvLine x.client.sent).isNone then none
    else some (s.answer c a (forward shards i (some x.client.sent)))
  | .giveUp c => s.onSocket c fun a i _ =>
    if a.result.isSome then none else some (s.answer c a (forward shards i (some [])))

/-- The line is one that a shard does not refuse for its length. -/
def fits (_ : RouterNet) : Action → Bool
  | .ask line _ => line.length ≤ kMaxLineLength
  | _ => true

end RouterNet

end Redon
