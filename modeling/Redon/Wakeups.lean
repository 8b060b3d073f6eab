import Redon.ThreadPool

/-!
# The pool's condition variable

The pool with the calls of `notify_one` and `notify_all` as steps of their own, made after the lock
is released. A notification wakes a worker that is in `cv_.wait` at that moment, if there is one; a
worker may also wake without any.
-/

namespace Redon

namespace ThreadPool

variable {α : Type} {n : ℕ}

def Worker.isAsleep : Worker α → Bool
  | .asleep => true
  | _ => false

/-- Where the destructor is. -/
inductive Dtor where
  | notCalled
  /-- The stop flag is set and `notify_all` is still to be called. -/
  | stopping
  /-- The workers are being joined. -/
  | joining
  deriving DecidableEq

structure Notified (n : ℕ) (α : Type) where
  pool : State n α
  /-- The `submit` calls that have pushed their task and have yet to call `notify_one`. -/
  submitting : ℕ
  dtor : Dtor

namespace Notified

def init (p : ThreadPool) : Notified p.size α := ⟨p.init, 0, .notCalled⟩

/-- The workers after `notify_all`. -/
def wakeAll (worker : Fin n → Worker α) (w : Fin n) : Worker α :=
  if (worker w).isAsleep then .ready else worker w

inductive Action (n : ℕ) (α : Type) where
  | submit (task : α)
  /-- A `notify_one` and the worker it wakes, if any waits. -/
  | notifyOne (woken : Option (Fin n))
  | lock (w : Fin n)
  | spurious (w : Fin n)
  | finish (w : Fin n) (outcome : Outcome)
  | stop
  | notifyAll

def step (p : ThreadPool) (s : Notified n α) : Action n α → Option (Notified n α)
  | .submit task =>
    (p.step s.pool (.submit task)).map fun pool =>
      { s with
        pool := pool
        submitting := if (p.submit s.pool task).1 then s.submitting + 1 else s.submitting }
  | .notifyOne woken =>
    match s.submitting, woken with
    | 0, _ => none
    | m + 1, some w =>
      (p.step s.pool (.wake w)).map fun pool => { s with pool := pool, submitting := m }
    | m + 1, none =>
      if ∃ w, (s.pool.worker w).isAsleep then none else some { s with submitting := m }
  | .lock w => (p.step s.pool (.lock w)).map fun pool => { s with pool := pool }
  | .spurious w => (p.step s.pool (.wake w)).map fun pool => { s with pool := pool }
  | .finish w outcome => (p.step s.pool (.finish w outcome)).map fun pool => { s with pool := pool }
  | .stop =>
    match s.dtor with
    | .notCalled =>
      (p.step s.pool .stop).map fun pool => { s with pool := pool, dtor := .stopping }
    | _ => none
  | .notifyAll =>
    match s.dtor with
    | .stopping =>
      some { s with pool := { s.pool with worker := wakeAll s.pool.worker }, dtor := .joining }
    | _ => none

/-- No notification is still to be issued. -/
def Settled (s : Notified n α) : Prop := s.submitting = 0 ∧ s.dtor ≠ .stopping

instance (s : Notified n α) : Decidable s.Settled := instDecidableAnd

end Notified

end ThreadPool

end Redon
