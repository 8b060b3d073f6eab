import Mathlib.Data.List.FinRange
import Mathlib.Logic.Function.Basic

/-!
# The thread pool

`ThreadPool` as a machine whose steps are its critical sections: a `submit` call, a worker's turn
with the lock in `worker_loop`, the end of a task (it returns or throws, `worker_loop` swallows the
exception) and the stop flag of the destructor. A sleeping worker may wake at any time: a
notification and a spurious wakeup are not told apart.

A task carries the number of the `submit` call it came from. That number and the fields `submits`,
`popped` and `finished` are a record of the run; no step reads them.
-/

namespace Redon

/-- The arguments of the constructor; a bound of 0 means no bound. -/
structure ThreadPool where
  numThreads : ℕ
  maxQueueSize : ℕ

namespace ThreadPool

variable {α : Type} {n : ℕ}

structure Job (α : Type) where
  id : ℕ
  task : α
  deriving DecidableEq

inductive Worker (α : Type) where
  /-- In front of its critical section. -/
  | ready
  /-- In `cv_.wait`. -/
  | asleep
  | running (job : Job α)
  | exited
  deriving DecidableEq

inductive Outcome where
  | returned
  | threw
  deriving DecidableEq

structure State (n : ℕ) (α : Type) where
  tasks : List (Job α)
  stop : Bool
  worker : Fin n → Worker α
  /-- The task and the result of every `submit` call so far. -/
  submits : List (α × Bool)
  popped : List (Job α)
  finished : List (Job α × Outcome)

/-- A pool with zero workers would never run anything. -/
def size (p : ThreadPool) : ℕ := if p.numThreads = 0 then 1 else p.numThreads

def init (p : ThreadPool) : State p.size α := ⟨[], false, fun _ => .ready, [], [], []⟩

def submit (p : ThreadPool) (s : State n α) (task : α) : Bool × State n α :=
  if s.stop then
    (false, s)
  else if p.maxQueueSize ≠ 0 ∧ p.maxQueueSize ≤ s.tasks.length then
    (false, s)
  else
    (true, { s with tasks := s.tasks ++ [⟨s.submits.length, task⟩] })

/-- The critical section of `worker_loop`. -/
def workerLoop (s : State n α) (w : Fin n) : State n α :=
  if s.stop || !s.tasks.isEmpty then
    match s.tasks with
    | [] => { s with worker := Function.update s.worker w .exited }
    | job :: rest => { s with
        tasks := rest
        popped := s.popped ++ [job]
        worker := Function.update s.worker w (.running job) }
  else
    { s with worker := Function.update s.worker w .asleep }

inductive Action (n : ℕ) (α : Type) where
  | submit (task : α)
  | lock (w : Fin n)
  | wake (w : Fin n)
  | finish (w : Fin n) (outcome : Outcome)
  | stop

def step (p : ThreadPool) (s : State n α) : Action n α → Option (State n α)
  | .submit task =>
    let (accepted, s') := p.submit s task
    some { s' with submits := s.submits ++ [(task, accepted)] }
  | .lock w =>
    match s.worker w with
    | .ready => some (workerLoop s w)
    | _ => none
  | .wake w =>
    match s.worker w with
    | .asleep => some { s with worker := Function.update s.worker w .ready }
    | _ => none
  | .finish w outcome =>
    match s.worker w with
    | .running job => some { s with
        worker := Function.update s.worker w .ready
        finished := s.finished ++ [(job, outcome)] }
    | _ => none
  | .stop => some { s with stop := true }

def Worker.job? : Worker α → Option (Job α)
  | .running job => some job
  | _ => none

/-- What the workers have in hand, worker by worker. -/
def State.running (s : State n α) : List (Job α) :=
  (List.finRange n).filterMap fun w => (s.worker w).job?

/-- The tasks for which `submit` returned true, in the order of the calls. -/
def State.accepted (s : State n α) : List (Job α) :=
  (s.submits.zipIdx.filter fun x => x.1.2).map fun x => ⟨x.2, x.1.1⟩

end ThreadPool

end Redon
