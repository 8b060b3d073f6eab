import Redon.ThreadPool

/-!
# The accept loop

The loop of `Server::run` with the thread pool it hands the clients to. A socket belongs to a guard
of the loop until a task for it is submitted, then to the task; the task's scope counts the
connection, serves it, closes the socket and counts it down again. The sockets are numbered as they
are accepted, and `closed` lists the calls of `close_socket`.
-/

namespace Redon

/-- The pool `run` makes. -/
def ThreadPool.ofConfig (numWorkers : ℕ) : ThreadPool :=
  let maxQueued := numWorkers * 16
  ⟨numWorkers, if maxQueued < 256 then 256 else maxQueued⟩

/-- Where the accept loop is. -/
inductive AcceptLoop where
  | accepting
  /-- A client is accepted and not yet handed over. -/
  | holding (sock : ℕ)
  /-- The pool has not taken the client. -/
  | rejecting (sock : ℕ)
  | exited
  deriving DecidableEq, Repr

/-- Where the task that a worker runs is. -/
inductive Stage where
  /-- No task. -/
  | off
  | entered
  /-- In `on_connect`, between its two counters. -/
  | counted
  /-- In `handle_client`. -/
  | serving
  /-- In the destructor of the scope. -/
  | closed
  | left
  deriving DecidableEq, Repr

structure Acceptor (n : ℕ) where
  pool : ThreadPool.State n ℕ
  loop : AcceptLoop
  stage : Fin n → Stage
  connectionsTotal : ℕ
  connected : ℤ
  /-- How many clients were accepted. -/
  opened : ℕ
  closed : List ℕ

namespace Acceptor

variable {n : ℕ}

inductive Action (n : ℕ) where
  | accept (success : Bool)
  /-- The client is handed to the pool, unless an exception is thrown on the way. -/
  | submit (thrown : Bool)
  | reject
  /-- An exception ends the loop, and with it the pool. -/
  | fail
  | lock (w : Fin n)
  | wake (w : Fin n)
  /-- The task of worker `w` goes on; if it serves a client, `handle_client` returns or throws. -/
  | advance (w : Fin n)
  | finish (w : Fin n)

def init (p : ThreadPool) : Acceptor p.size :=
  ⟨p.init, .accepting, fun _ => .off, 0, 0, 0, []⟩

def closeSocket (s : Acceptor n) (sock : ℕ) : Acceptor n := { s with closed := s.closed ++ [sock] }

/-- Worker `w` goes on to a stage. -/
def goTo (s : Acceptor n) (w : Fin n) (stage : Stage) : Acceptor n :=
  { s with stage := Function.update s.stage w stage }

/-- One step of the task that serves a socket, from its stage. -/
def serve (s : Acceptor n) (w : Fin n) (sock : ℕ) : Stage → Option (Acceptor n)
  | .entered => some { s.goTo w .counted with connectionsTotal := s.connectionsTotal + 1 }
  | .counted => some { s.goTo w .serving with connected := s.connected + 1 }
  | .serving => some ((s.goTo w .closed).closeSocket sock)
  | .closed => some { s.goTo w .left with connected := s.connected - 1 }
  | _ => none

def step (p : ThreadPool) (s : Acceptor n) : Action n → Option (Acceptor n)
  | .accept success =>
    match s.loop with
    | .accepting =>
      if success then some { s with loop := .holding s.opened, opened := s.opened + 1 } else some s
    | _ => none
  | .submit thrown =>
    match s.loop with
    | .holding sock =>
      if thrown then some { s with loop := .rejecting sock }
      else
        let (submitted, pool) := p.submit s.pool sock
        some { s with
          pool := { pool with submits := s.pool.submits ++ [(sock, submitted)] }
          loop := if submitted then .accepting else .rejecting sock }
    | _ => none
  | .reject =>
    match s.loop with
    | .rejecting sock => some { s.closeSocket sock with loop := .accepting }
    | _ => none
  | .fail =>
    match s.loop with
    | .accepting => some { s with loop := .exited, pool := { s.pool with stop := true } }
    | .rejecting sock =>
      some { s.closeSocket sock with loop := .exited, pool := { s.pool with stop := true } }
    | _ => none
  | .lock w => (p.step s.pool (.lock w)).map fun pool =>
    { s.goTo w (if (pool.worker w).job?.isSome then .entered else .off) with pool := pool }
  | .wake w => (p.step s.pool (.wake w)).map fun pool => { s with pool := pool }
  | .advance w =>
    match s.pool.worker w with
    | .running job => s.serve w job.task (s.stage w)
    | _ => none
  | .finish w =>
    match s.stage w with
    | .left => (p.step s.pool (.finish w .returned)).map fun pool =>
      { s.goTo w .off with pool := pool }
    | _ => none

end Acceptor

end Redon
