import Redon.Accept
import Redon.Lib.Workers
import Redon.Proofs.ThreadPool

/-!
# Every client's socket is closed once

A socket that was accepted is closed, or one of three holds it: the guard of the accept loop, the
queue of the pool, or a worker whose task has not closed it yet. Every step moves at most one socket
from one of these places to the next (`Inv.work` for the steps of a worker), so none is lost and
none is closed twice, whatever throws. The counters follow the stages of the tasks.
-/

namespace Redon

open Lib

/-- The socket that the loop's guard owns. -/
def AcceptLoop.sock? : AcceptLoop → Option ℕ
  | .holding sock => some sock
  | .rejecting sock => some sock
  | _ => none

namespace Stage

/-- The task owns its socket. -/
def holds : Stage → Bool
  | .entered => true
  | .counted => true
  | .serving => true
  | _ => false

/-- The task is counted as connected. -/
def isConnected : Stage → Bool
  | .serving => true
  | .closed => true
  | _ => false

/-- The task is counted among all connections. -/
def isCounted : Stage → Bool
  | .off => false
  | .entered => false
  | _ => true

end Stage

/-- A worker's turn with the lock: it pops the next job, or has none in its hand. -/
theorem ThreadPool.workerLoop_cases {α : Type} {n : ℕ} (s : ThreadPool.State n α) (w : Fin n) :
    (∃ x : Worker α, x.job? = none
      ∧ workerLoop s w = { s with worker := Function.update s.worker w x })
    ∨ ∃ job rest, s.tasks = job :: rest ∧ workerLoop s w = { s with
        tasks := rest
        popped := s.popped ++ [job]
        worker := Function.update s.worker w (.running job) } := by
  unfold workerLoop
  split_ifs
  · split
    · exact .inl ⟨.exited, rfl, rfl⟩
    · rename_i job rest htasks
      exact .inr ⟨job, rest, htasks, rfl⟩
  · exact .inl ⟨.asleep, rfl, rfl⟩

namespace Acceptor

variable {n : ℕ} {p : ThreadPool} {s s' : Acceptor n} {w : Fin n}

/-- The socket that the task of worker `w` owns. -/
def hand (s : Acceptor n) (w : Fin n) : Option ℕ :=
  if (s.stage w).holds then (s.pool.worker w).job?.map ThreadPool.Job.task else none

/-- The sockets that are not closed. -/
def held (s : Acceptor n) : List ℕ :=
  s.loop.sock?.toList ++ (s.pool.tasks.map ThreadPool.Job.task ++ gathered s.hand)

structure Inv (p : ThreadPool) (s : Acceptor n) : Prop where
  pool : ThreadPool.Inv p s.pool
  stages : ∀ w, s.stage w = .off ↔ (s.pool.worker w).job? = none
  places : (s.closed ++ s.held).Perm (List.range s.opened)
  connected : s.connected = tally Stage.isConnected s.stage
  total : s.connectionsTotal = s.pool.finished.length + tally Stage.isCounted s.stage
  stopped : s.pool.stop = true → s.loop = .exited

theorem inv_init (p : ThreadPool) : Inv p (init p) := by
  have htally : ∀ q : Stage → Bool, q .off = false → tally q (init p).stage = 0 := fun q hq =>
    List.countP_eq_zero.2 fun w _ => by simp [init, hq]
  refine ⟨ThreadPool.inv_init p, fun w => by simp [init, ThreadPool.init, ThreadPool.Worker.job?],
    ?_, ?_, ?_, by simp [init, ThreadPool.init]⟩
  · have hhand : gathered (init p).hand = [] := List.filterMap_eq_nil_iff.2 fun _ _ => rfl
    rw [held, hhand]
    exact .refl _
  · rw [htally _ rfl]
    rfl
  · rw [htally _ rfl]
    rfl

/-- A step of worker `w`, which goes on to the stage `x` and the state `y` of the pool's worker. -/
theorem Inv.work (h : Inv p s) {x : Stage} {y : ThreadPool.Worker ℕ}
    (hpool : ThreadPool.Inv p s'.pool) (hstage : s'.stage = Function.update s.stage w x)
    (hworker : s'.pool.worker = Function.update s.pool.worker w y)
    (hoff : x = .off ↔ y.job? = none) (hloop : s'.loop = s.loop) (hopened : s'.opened = s.opened)
    (hstop : s'.pool.stop = s.pool.stop)
    (hmoved : (s'.closed ++ (s'.pool.tasks.map ThreadPool.Job.task
        ++ (if x.holds then y.job?.map ThreadPool.Job.task else none).toList)).Perm
      (s.closed ++ (s.pool.tasks.map ThreadPool.Job.task ++ (s.hand w).toList)))
    (hconn : s'.connected + (s.stage w).isConnected.toNat = s.connected + x.isConnected.toNat)
    (htotal : s'.connectionsTotal + s.pool.finished.length + (s.stage w).isCounted.toNat
      = s.connectionsTotal + s'.pool.finished.length + x.isCounted.toNat) : Inv p s' := by
  have hhand : s'.hand = Function.update s.hand w
      (if x.holds then y.job?.map ThreadPool.Job.task else none) := by
    funext v
    by_cases hv : v = w
    · subst hv
      simp only [hand, hstage, hworker, Function.update_self]
    · simp only [hand, hstage, hworker, Function.update_of_ne hv]
  refine ⟨hpool, fun v => ?_, ?_, ?_, ?_, fun hs => hloop.trans (h.stopped (hstop ▸ hs))⟩
  · by_cases hv : v = w
    · subst hv
      rw [hstage, hworker, Function.update_self, Function.update_self]
      exact hoff
    · rw [hstage, hworker, Function.update_of_ne hv, Function.update_of_ne hv]
      exact h.stages v
  · rw [hopened]
    refine .trans ?_ h.places
    have hg := gathered_update s.hand w
      (if x.holds then y.job?.map ThreadPool.Job.task else none)
    rw [← hhand] at hg
    refine List.perm_iff_count.2 fun sock => ?_
    have hg := hg.count_eq sock
    have hm := hmoved.count_eq sock
    simp only [held, hloop, List.count_append] at hg hm ⊢
    omega
  · have ht := tally_update Stage.isConnected s.stage w x
    rw [← hstage] at ht
    have hc := h.connected
    omega
  · have ht := tally_update Stage.isCounted s.stage w x
    rw [← hstage] at ht
    have hc := h.total
    omega

theorem Inv.loop (h : Inv p s) {pool : ThreadPool.State n ℕ} {loop : AcceptLoop} {opened : ℕ}
    {closed : List ℕ} (hpool : ThreadPool.Inv p pool) (hworker : pool.worker = s.pool.worker)
    (hfinished : pool.finished = s.pool.finished) (hstop : pool.stop = true → loop = .exited)
    (hplaces : (closed ++ (loop.sock?.toList
      ++ (pool.tasks.map ThreadPool.Job.task ++ gathered s.hand))).Perm (List.range opened)) :
    Inv p { s with pool := pool, loop := loop, opened := opened, closed := closed } := by
  have hhand : hand { s with pool := pool, loop := loop, opened := opened, closed := closed }
      = s.hand := by
    funext v
    simp only [hand, hworker]
  refine ⟨hpool, fun v => ?_, ?_, h.connected, ?_, hstop⟩
  · simp only [hworker]
    exact h.stages v
  · rw [held, hhand]
    exact hplaces
  · simp only [hfinished]
    exact h.total

theorem Inv.accept (h : Inv p s) (hloop : s.loop = .accepting) :
    Inv p { s with loop := .holding s.opened, opened := s.opened + 1 } := by
  refine h.loop h.pool rfl rfl (fun hs => ?_) ?_
  · cases (h.stopped hs).symm.trans hloop
  · have hp := h.places
    rw [held, hloop] at hp
    rw [List.range_succ]
    refine .trans ?_ (hp.append_right [s.opened])
    refine List.perm_iff_count.2 fun sock => ?_
    simp only [AcceptLoop.sock?, Option.toList, List.count_append, List.count_nil]
    omega

theorem Inv.submit (h : Inv p s) {sock : ℕ} (hloop : s.loop = .holding sock) :
    Inv p { s with
      pool := { (p.submit s.pool sock).2 with
        submits := s.pool.submits ++ [(sock, (p.submit s.pool sock).1)] }
      loop := if (p.submit s.pool sock).1 then .accepting else .rejecting sock } := by
  have hpool := h.pool.submit sock
  have hp := h.places
  rw [held, hloop] at hp
  rcases ThreadPool.submit_cases p s.pool sock with he | ⟨hstop, -, he⟩ <;> rw [he] at hpool ⊢
  · refine h.loop hpool rfl rfl (fun hs => ?_) hp
    cases (h.stopped hs).symm.trans hloop
  · refine h.loop hpool rfl rfl (fun hs => ?_) (.trans ?_ hp)
    · cases hstop.symm.trans hs
    · refine List.perm_iff_count.2 fun x => ?_
      simp only [if_true, AcceptLoop.sock?, Option.toList, List.map_append, List.map_cons,
        List.map_nil, List.count_append, List.count_nil]
      omega

/-- The guard of the loop closes the socket it owns. -/
theorem Inv.closeSocket (h : Inv p s) {sock : ℕ} {loop : AcceptLoop} {pool : ThreadPool.State n ℕ}
    (hsock : s.loop.sock? = some sock) (hnone : loop.sock? = none)
    (hpool : ThreadPool.Inv p pool) (hworker : pool.worker = s.pool.worker)
    (hfinished : pool.finished = s.pool.finished) (htasks : pool.tasks = s.pool.tasks)
    (hstop : pool.stop = true → loop = .exited) :
    Inv p { s.closeSocket sock with pool := pool, loop := loop } := by
  refine h.loop hpool hworker hfinished hstop ?_
  have hp := h.places
  rw [held, hsock] at hp
  rw [hnone, htasks]
  simpa only [Acceptor.closeSocket, Option.toList_some, Option.toList_none, List.nil_append,
    List.append_assoc] using hp

/-- The task of worker `w` goes on to the stage `x`. -/
theorem Inv.goTo (h : Inv p s) {job : ThreadPool.Job ℕ} (hw : s.pool.worker w = .running job)
    {x : Stage} {total : ℕ} {connected : ℤ} {closed : List ℕ} (hx : x ≠ .off)
    (hmoved : closed ++ (if x.holds then [job.task] else [])
      = s.closed ++ if (s.stage w).holds then [job.task] else [])
    (hconn : connected + (s.stage w).isConnected.toNat = s.connected + x.isConnected.toNat)
    (htotal : total + (s.stage w).isCounted.toNat = s.connectionsTotal + x.isCounted.toNat) :
    Inv p { s.goTo w x with
      connectionsTotal := total, connected := connected, closed := closed } := by
  have hsame : s.pool.worker = Function.update s.pool.worker w (.running job) := by
    rw [← hw, Function.update_eq_self]
  have hhand : (s.hand w).toList = if (s.stage w).holds then [job.task] else [] := by
    rw [hand, hw]
    split_ifs <;> rfl
  have hnew : (if x.holds then (ThreadPool.Worker.running job).job?.map ThreadPool.Job.task
      else none).toList = if x.holds then [job.task] else [] := by
    split_ifs <;> rfl
  refine h.work h.pool rfl hsame (iff_of_false hx (by simp [ThreadPool.Worker.job?])) rfl rfl rfl
    ?_ hconn (by simp only [Acceptor.goTo]; omega)
  rw [hhand, hnew]
  refine List.perm_iff_count.2 fun sock => ?_
  have hc := congrArg (List.count sock) hmoved
  simp only [Acceptor.goTo, List.count_append] at hc ⊢
  omega

theorem Inv.serve (h : Inv p s) {job : ThreadPool.Job ℕ} (hw : s.pool.worker w = .running job)
    (hs : s.serve w job.task (s.stage w) = some s') : Inv p s' := by
  unfold Acceptor.serve at hs
  split at hs
  · rename_i hst
    cases hs
    refine h.goTo hw nofun ?_ ?_ ?_ <;> rw [hst] <;> rfl
  · rename_i hst
    cases hs
    refine h.goTo hw nofun ?_ ?_ ?_ <;> rw [hst]
    · rfl
    · simp [Stage.isConnected]
    · rfl
  · rename_i hst
    cases hs
    refine h.goTo hw nofun ?_ ?_ ?_ <;> rw [hst]
    · exact List.append_nil _
    · rfl
    · rfl
  · rename_i hst
    cases hs
    refine h.goTo hw nofun ?_ ?_ ?_ <;> rw [hst]
    · rfl
    · simp [Stage.isConnected]
    · rfl
  · cases hs

theorem Inv.lock (h : Inv p s) (hw : s.pool.worker w = .ready) :
    Inv p { s.goTo w (if ((ThreadPool.workerLoop s.pool w).worker w).job?.isSome then .entered
      else .off) with pool := ThreadPool.workerLoop s.pool w } := by
  have hpool := h.pool.workerLoop hw
  have hoff : s.stage w = .off := (h.stages w).2 (by rw [hw]; rfl)
  have hhand : s.hand w = none := by rw [hand, hoff]; rfl
  rcases ThreadPool.workerLoop_cases s.pool w with ⟨x, hx, he⟩ | ⟨job, rest, htasks, he⟩ <;>
    rw [he] at hpool ⊢ <;> simp only [Function.update_self]
  · rw [hx]
    refine h.work (x := .off) (y := x) hpool rfl rfl (iff_of_true rfl hx) rfl rfl rfl ?_ ?_ ?_
    · rw [hhand]
      exact .refl _
    · rw [hoff]
      rfl
    · rw [hoff]
      rfl
  · refine h.work (x := .entered) (y := .running job) hpool rfl rfl
      (iff_of_false nofun (by simp [ThreadPool.Worker.job?])) rfl rfl rfl ?_ ?_ ?_
    · rw [hhand, htasks]
      refine List.perm_iff_count.2 fun sock => ?_
      simp [Acceptor.goTo, ThreadPool.Worker.job?, Stage.holds, List.count_cons]
    · rw [hoff]
      rfl
    · rw [hoff]
      rfl

theorem Inv.wake (h : Inv p s) (hw : s.pool.worker w = .asleep) :
    Inv p { s with pool := { s.pool with worker := Function.update s.pool.worker w .ready } } := by
  have hoff : s.stage w = .off := (h.stages w).2 (by rw [hw]; rfl)
  have hhand : s.hand w = none := by rw [hand, hoff]; rfl
  refine h.work (x := .off) (y := .ready) (h.pool.idle (by rw [hw]; rfl) rfl nofun) ?_ rfl
    (iff_of_true rfl rfl) rfl rfl rfl ?_ ?_ ?_
  · rw [← hoff, Function.update_eq_self]
  · rw [hhand]
    exact .refl _
  · rw [hoff]
  · rw [hoff]

theorem Inv.finish (h : Inv p s) (hst : s.stage w = .left) {job : ThreadPool.Job ℕ}
    (hw : s.pool.worker w = .running job) :
    Inv p { s.goTo w .off with pool := { s.pool with
      worker := Function.update s.pool.worker w .ready
      finished := s.pool.finished ++ [(job, .returned)] } } := by
  have hhand : s.hand w = none := by rw [hand, hst]; rfl
  refine h.work (x := .off) (y := .ready) (h.pool.finish hw .returned) rfl rfl
    (iff_of_true rfl rfl) rfl rfl rfl ?_ ?_ ?_
  · rw [hhand]
    exact .refl _
  · rw [hst]
    rfl
  · rw [hst]
    simp [Acceptor.goTo, Stage.isCounted]
    omega

theorem Inv.stop (h : ThreadPool.Inv p s.pool) :
    ThreadPool.Inv p { s.pool with stop := true } :=
  ⟨h.order, h.ran, h.bound, fun w hw => ⟨rfl, (h.exited w hw).2⟩⟩

theorem Inv.step (h : Inv p s) {a : Action n} (hs : s.step p a = some s') : Inv p s' := by
  cases a with
  | accept success =>
    simp only [Acceptor.step] at hs
    split at hs
    · rename_i hloop
      split_ifs at hs <;> cases hs
      · exact h.accept hloop
      · exact h
    · cases hs
  | submit thrown =>
    simp only [Acceptor.step] at hs
    split at hs
    · rename_i sock hloop
      cases thrown with
      | true =>
        cases hs
        refine h.loop h.pool rfl rfl (fun hst => ?_) ?_
        · cases (h.stopped hst).symm.trans hloop
        · have hp := h.places
          rwa [held, hloop] at hp
      | false =>
        cases hs
        exact h.submit hloop
    · cases hs
  | reject =>
    simp only [Acceptor.step] at hs
    split at hs
    · rename_i sock hloop
      cases hs
      refine h.closeSocket (by rw [hloop]; rfl) rfl h.pool rfl rfl rfl fun hst => ?_
      cases (h.stopped hst).symm.trans hloop
    · cases hs
  | fail =>
    simp only [Acceptor.step] at hs
    split at hs
    · rename_i hloop
      cases hs
      refine h.loop (Inv.stop h.pool) rfl rfl (fun _ => rfl) ?_
      have hp := h.places
      rwa [held, hloop] at hp
    · rename_i sock hloop
      cases hs
      exact h.closeSocket (by rw [hloop]; rfl) rfl (Inv.stop h.pool) rfl rfl rfl fun _ => rfl
    · cases hs
  | lock w =>
    obtain ⟨pool, hpool, rfl⟩ := Option.map_eq_some_iff.1 hs
    obtain ⟨hw, rfl⟩ := ThreadPool.step_lock hpool
    exact h.lock hw
  | wake w =>
    obtain ⟨pool, hpool, rfl⟩ := Option.map_eq_some_iff.1 hs
    obtain ⟨hw, rfl⟩ := ThreadPool.step_wake hpool
    exact h.wake hw
  | advance w =>
    simp only [Acceptor.step] at hs
    split at hs
    · rename_i job hw
      exact h.serve hw hs
    · cases hs
  | finish w =>
    simp only [Acceptor.step] at hs
    split at hs
    · rename_i hst
      obtain ⟨pool, hpool, rfl⟩ := Option.map_eq_some_iff.1 hs
      obtain ⟨job, hw, rfl⟩ := ThreadPool.step_finish hpool
      exact h.finish hst hw
    · cases hs

theorem inv_reaches {s : Acceptor p.size} (hs : Reaches (step p) (init p) s) : Inv p s :=
  hs.inv (Inv p) (fun _ _ _ h => h.step) (inv_init p)

theorem length_held_le (h : Inv p s) (hb : p.maxQueueSize ≠ 0) :
    s.held.length ≤ 1 + p.maxQueueSize + n := by
  have hsock : s.loop.sock?.toList.length ≤ 1 := by cases s.loop.sock? <;> simp
  have htasks := h.pool.bound hb
  have hhand := length_gathered_le s.hand
  simp only [held, List.length_append, List.length_map]
  omega

/-- With every worker gone the pool has stopped and every task is done. -/
theorem Inv.drained (h : Inv p s) (hn : 0 < n) (hall : ∀ w, s.pool.worker w = .exited) :
    s.held = [] ∧ (∀ w, s.stage w = .off) ∧ s.pool.running = [] ∧ s.pool.tasks = [] := by
  obtain ⟨hstop, htasks⟩ := h.pool.exited ⟨0, hn⟩ (hall _)
  have hoff : ∀ w, s.stage w = .off := fun w => (h.stages w).2 (by rw [hall w]; rfl)
  have hhand : gathered s.hand = [] :=
    List.filterMap_eq_nil_iff.2 fun w _ => by rw [hand, hoff w]; rfl
  refine ⟨?_, hoff, List.filterMap_eq_nil_iff.2 fun w _ => by rw [hall w]; rfl, htasks⟩
  rw [held, h.stopped hstop, htasks, hhand]
  rfl

/-- In every reachable state of the accept loop, whatever is thrown where: a socket that was
accepted is closed once, or held at one place and not closed. The open ones are bounded, and when
the last worker exits every one is closed. -/
theorem sockets_closed_once {numWorkers : ℕ} {s : Acceptor (ThreadPool.ofConfig numWorkers).size}
    (hs : Reaches (step (ThreadPool.ofConfig numWorkers))
      (init (ThreadPool.ofConfig numWorkers)) s) :
    (s.closed ++ s.held).Perm (List.range s.opened) ∧ s.closed.Nodup
      ∧ s.opened ≤ s.closed.length + (1 + max 256 (numWorkers * 16) + max 1 numWorkers)
      ∧ ((∀ w, s.pool.worker w = .exited) → s.closed.Perm (List.range s.opened)) := by
  have h := inv_reaches hs
  have hnodup : (s.closed ++ s.held).Nodup := h.places.nodup_iff.2 List.nodup_range
  have hqueue : (ThreadPool.ofConfig numWorkers).maxQueueSize = max 256 (numWorkers * 16) := by
    simp only [ThreadPool.ofConfig]
    split_ifs <;> omega
  have hsize : (ThreadPool.ofConfig numWorkers).size = max 1 numWorkers := by
    rw [ThreadPool.size]
    change (if numWorkers = 0 then 1 else numWorkers) = _
    split_ifs <;> omega
  refine ⟨h.places, (List.nodup_append.1 hnodup).1, ?_, fun hall => ?_⟩
  · have hlen := h.places.length_eq
    have hheld := length_held_le h (by omega)
    rw [List.length_append, List.length_range] at hlen
    omega
  · have hp := h.places
    rwa [(h.drained (ThreadPool.size_pos _) hall).1, List.append_nil] at hp

/-- One worker: the first client is served, the second is turned away, and the pool is stopped. -/
def turnedAway : List (Action (ThreadPool.ofConfig 1).size) :=
  [.accept true, .submit false, .accept true, .lock ⟨0, ThreadPool.size_pos _⟩, .submit true,
    .advance ⟨0, ThreadPool.size_pos _⟩, .advance ⟨0, ThreadPool.size_pos _⟩, .reject,
    .advance ⟨0, ThreadPool.size_pos _⟩, .advance ⟨0, ThreadPool.size_pos _⟩, .fail,
    .finish ⟨0, ThreadPool.size_pos _⟩, .lock ⟨0, ThreadPool.size_pos _⟩]

theorem sockets_closed_once_solo :
    ∃ s : Acceptor (ThreadPool.ofConfig 1).size, Reaches (step (ThreadPool.ofConfig 1))
        (init (ThreadPool.ofConfig 1)) s
      ∧ s.opened = 2 ∧ s.closed = [1, 0] ∧ s.closed.Perm (List.range s.opened) := by
  obtain ⟨s, hs, hopen, hclosed, hall⟩ := exists_reaches (step (ThreadPool.ofConfig 1))
    (init (ThreadPool.ofConfig 1)) turnedAway
    (fun s => s.opened = 2 ∧ s.closed = [1, 0] ∧ ∀ w, s.pool.worker w = .exited) (by decide)
  exact ⟨s, hs, hopen, hclosed, (sockets_closed_once hs).2.2.2 hall⟩

theorem tally_counted_le (h : Inv p s) :
    tally Stage.isCounted s.stage ≤ s.pool.running.length := by
  rw [ThreadPool.State.running, List.length_filterMap_eq_countP]
  refine List.countP_mono_left fun w _ hw => ?_
  have hon : s.stage w ≠ .off := by
    intro hoff
    rw [hoff] at hw
    cases hw
  exact Option.isSome_iff_ne_none.2 fun hnone => hon ((h.stages w).2 hnone)

theorem tally_eq_zero {q : Stage → Bool} (hq : q .off = false) {stage : Fin n → Stage}
    (hoff : ∀ w, stage w = .off) : tally q stage = 0 :=
  List.countP_eq_zero.2 fun w _ => by simp [hoff w, hq]

/-- The number of clients that is reported is the number of tasks between the end of `on_connect`
and `on_disconnect`, so never negative and never more than the workers. The total counts the tasks
that the pool has run, and when the last worker exits, all that it accepted. -/
theorem connections_counted {p : ThreadPool} {s : Acceptor p.size}
    (hs : Reaches (step p) (init p) s) :
    s.connected = tally Stage.isConnected s.stage ∧ 0 ≤ s.connected ∧ s.connected ≤ p.size
      ∧ s.connected ≤ s.connectionsTotal ∧ s.connectionsTotal ≤ s.pool.accepted.length
      ∧ ((∀ w, s.pool.worker w = .exited) →
        s.connected = 0 ∧ s.connectionsTotal = s.pool.accepted.length) := by
  have h := inv_reaches hs
  have hle := tally_le Stage.isConnected s.stage
  have hcounted : tally Stage.isConnected s.stage ≤ tally Stage.isCounted s.stage :=
    List.countP_mono_left fun w _ hw => by
      cases hst : s.stage w <;> rw [hst] at hw <;> first | rfl | cases hw
  have hrunning := tally_counted_le h
  have hpopped := h.pool.ran.length_eq
  have horder := congrArg List.length h.pool.order
  rw [List.length_append, List.length_map] at hpopped
  rw [List.length_append] at horder
  have hconn := h.connected
  have htotal := h.total
  refine ⟨hconn, by omega, by omega, by omega, by omega, fun hall => ?_⟩
  obtain ⟨-, hoff, hrun, htasks⟩ := h.drained (ThreadPool.size_pos p) hall
  rw [hrun, List.length_nil] at hpopped
  rw [htasks, List.length_nil] at horder
  have h₁ := tally_eq_zero (q := Stage.isConnected) rfl hoff
  have h₂ := tally_eq_zero (q := Stage.isCounted) rfl hoff
  omega

theorem connections_counted_solo :
    ∃ s : Acceptor (ThreadPool.ofConfig 1).size, Reaches (step (ThreadPool.ofConfig 1))
        (init (ThreadPool.ofConfig 1)) s
      ∧ s.connected = 0 ∧ s.connectionsTotal = s.pool.accepted.length
      ∧ s.pool.submits = [(0, true)] := by
  obtain ⟨s, hs, hsub, hall⟩ := exists_reaches (step (ThreadPool.ofConfig 1))
    (init (ThreadPool.ofConfig 1)) turnedAway
    (fun s => s.pool.submits = [(0, true)] ∧ ∀ w, s.pool.worker w = .exited) (by decide)
  obtain ⟨hconn, htotal⟩ := (connections_counted hs).2.2.2.2.2 hall
  exact ⟨s, hs, hconn, htotal, hsub⟩

end Acceptor

end Redon
