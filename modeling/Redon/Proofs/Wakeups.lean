import Redon.Proofs.ThreadPool
import Redon.Wakeups

/-!
# No wakeup is lost

While a worker sleeps, each waiting task has a notification that is still to be issued or a worker
in front of its critical section (`Covered`). A worker falls asleep only when nothing waits and the
pool has not stopped, a `submit` adds a task and a notification, a notification turns a sleeper into
a worker that will look, and a worker that looks takes a task.

Forgetting the notifications, the machine is the pool's own (`reaches_pool`).
-/

namespace Redon

open Lib

namespace ThreadPool

variable {α : Type} {n : ℕ} {p : ThreadPool} {w : Fin n}

def Worker.isReady : Worker α → Bool
  | .ready => true
  | _ => false

/-- The number of workers in front of their critical section. -/
def looking (worker : Fin n → Worker α) : ℕ := tally Worker.isReady worker

namespace Notified

variable {s s' : Notified n α}

section Pool

theorem isAsleep_iff {x : Worker α} : x.isAsleep = true ↔ x = .asleep := by
  cases x <;> simp [Worker.isAsleep]

theorem not_asleep_wakeAll (worker : Fin n → Worker α) (w : Fin n) :
    wakeAll worker w ≠ .asleep := by
  unfold wakeAll
  split_ifs with h
  · exact nofun
  · exact fun hw => h (isAsleep_iff.2 hw)

/-- `notify_all` wakes the sleepers one by one. -/
theorem reaches_wake (s : State n α) : ∀ ws : List (Fin n), Reaches p.step s
    { s with worker := fun w => if w ∈ ws then wakeAll s.worker w else s.worker w }
  | [] => by
    simp only [List.not_mem_nil, if_false]
    exact .refl
  | v :: ws => by
    have hr := reaches_wake s ws
    by_cases hv : v ∉ ws ∧ s.worker v = .asleep
    · have hworker : (fun w => if w ∈ v :: ws then wakeAll s.worker w else s.worker w)
          = Function.update (fun w => if w ∈ ws then wakeAll s.worker w else s.worker w) v
            .ready := by
        funext w
        by_cases hw : w = v
        · subst hw
          simp [wakeAll, hv.2, Worker.isAsleep]
        · simp [hw]
      refine hr.tail ⟨.wake v, ?_⟩
      simp only [ThreadPool.step, if_neg hv.1, hv.2, hworker]
    · have hworker : (fun w => if w ∈ v :: ws then wakeAll s.worker w else s.worker w)
          = fun w => if w ∈ ws then wakeAll s.worker w else s.worker w := by
        funext w
        by_cases hw : w = v
        · subst hw
          by_cases hmem : w ∈ ws
          · simp [hmem]
          · have hne : ¬ (s.worker w).isAsleep = true := fun h => hv ⟨hmem, isAsleep_iff.1 h⟩
            simp [hmem, wakeAll, hne]
        · simp [hw]
      rw [hworker]
      exact hr

/-- A step is steps of the pool. -/
theorem step_pool {a : Action n α} (hs : step p s a = some s') :
    Reaches p.step s.pool s'.pool := by
  have one : ∀ {b : ThreadPool.Action n α} {f : State n α → Notified n α},
      (p.step s.pool b).map f = some s' → (∀ pool, (f pool).pool = pool) →
      Reaches p.step s.pool s'.pool := by
    intro b f h hf
    obtain ⟨pool, hpool, rfl⟩ := Option.map_eq_some_iff.1 h
    rw [hf]
    exact .single ⟨b, hpool⟩
  cases a with
  | submit task =>
    simp only [step] at hs
    exact one hs fun _ => rfl
  | notifyOne woken =>
    simp only [step] at hs
    split at hs
    · cases hs
    · exact one hs fun _ => rfl
    · obtain rfl := Option.some.inj (Option.ite_none_left_eq_some.1 hs).2
      exact .refl
  | lock w => exact one (b := .lock w) hs fun _ => rfl
  | spurious w => exact one (b := .wake w) hs fun _ => rfl
  | finish w o => exact one (b := .finish w o) hs fun _ => rfl
  | stop =>
    simp only [step] at hs
    split at hs
    · exact one hs fun _ => rfl
    · cases hs
  | notifyAll =>
    simp only [step] at hs
    split at hs
    · obtain rfl := Option.some.inj hs
      have hr := reaches_wake (p := p) s.pool (List.finRange n)
      simpa only [List.mem_finRange, if_true] using hr
    · cases hs

theorem reaches_pool {s : Notified p.size α} (hs : Reaches (step p) (init p) s) :
    Reaches p.step p.init s.pool := by
  refine hs.inv (fun s => Reaches p.step p.init s.pool) (fun s a s' h hstep => ?_) ?_
  · exact h.trans (step_pool hstep)
  · exact .refl

end Pool

/-- A sleeper means that every task has someone to come for it, and that the sleepers will be told
of a stop. -/
structure Covered (s : Notified n α) : Prop where
  tasks : (∃ w, s.pool.worker w = .asleep) →
    s.pool.tasks.length ≤ s.submitting + looking s.pool.worker
  stop : s.pool.stop = true → s.dtor = .stopping ∨ ∀ w, s.pool.worker w ≠ .asleep

theorem asleep_of_update {worker : Fin n → Worker α} {x : Worker α} {v : Fin n}
    (h : Function.update worker w x v = .asleep) (hx : x ≠ .asleep) : worker v = .asleep := by
  rw [Function.update_apply] at h
  split_ifs at h with hv
  · exact absurd h hx
  · exact h

/-- A worker gets in front of its critical section, perhaps by a notification. -/
theorem Covered.ready (h : Covered s) {pool : State n α} {m : ℕ}
    (htasks : pool.tasks = s.pool.tasks) (hstop : pool.stop = s.pool.stop)
    (hworker : pool.worker = Function.update s.pool.worker w .ready)
    (hw : (s.pool.worker w).isReady = false) (hm : s.submitting ≤ m + 1) :
    Covered { s with pool := pool, submitting := m } := by
  have hawake : ∀ v, pool.worker v = .asleep → s.pool.worker v = .asleep := by
    intro v hv
    rw [hworker] at hv
    exact asleep_of_update hv nofun
  refine ⟨?_, fun hs => ?_⟩
  · rintro ⟨v, hv⟩
    have hle := h.tasks ⟨v, hawake v hv⟩
    have hlook : looking pool.worker = looking s.pool.worker + 1 := by
      have htally := tally_update Worker.isReady s.pool.worker w .ready
      rw [hw, ← hworker] at htally
      exact htally
    simp only [htasks]
    omega
  · exact (h.stop (hstop ▸ hs)).imp_right fun hall v hv => hall v (hawake v hv)

theorem Covered.submit (h : Covered s) (task : α) (submits : List (α × Bool)) :
    Covered { s with
      pool := { (p.submit s.pool task).2 with submits := submits }
      submitting := if (p.submit s.pool task).1 then s.submitting + 1 else s.submitting } := by
  rcases submit_cases p s.pool task with he | ⟨-, -, he⟩ <;> rw [he]
  · exact ⟨h.tasks, h.stop⟩
  · refine ⟨fun hsleep => ?_, h.stop⟩
    have hle := h.tasks hsleep
    simp only [List.length_append, List.length_singleton, if_true]
    omega

theorem Covered.lock (h : Covered s) (hw : s.pool.worker w = .ready) :
    Covered { s with pool := workerLoop s.pool w } := by
  unfold workerLoop
  split_ifs with hwait
  · have hstop : ∀ x : Worker α, x ≠ .asleep → s.pool.stop = true → s.dtor = .stopping
        ∨ ∀ v, Function.update s.pool.worker w x v ≠ .asleep := fun x hx hs =>
      (h.stop hs).imp_right fun hall v hv => hall v (asleep_of_update hv hx)
    split
    · rename_i htasks
      refine ⟨fun _ => ?_, hstop _ nofun⟩
      simp only [htasks, List.length_nil, Nat.zero_le]
    · rename_i job rest htasks
      refine ⟨?_, hstop _ nofun⟩
      rintro ⟨v, hv⟩
      have hle := h.tasks ⟨v, asleep_of_update hv nofun⟩
      have hlook : looking (Function.update s.pool.worker w (.running job)) + 1
          = looking s.pool.worker := by
        have htally := tally_update Worker.isReady s.pool.worker w (.running job)
        rw [hw] at htally
        exact htally
      rw [htasks, List.length_cons] at hle
      change rest.length ≤ s.submitting + looking (Function.update s.pool.worker w (.running job))
      omega
  · -- it falls asleep, with nothing to do
    simp only [Bool.or_eq_true, Bool.not_eq_true', not_or, Bool.not_eq_false,
      List.isEmpty_iff] at hwait
    refine ⟨fun _ => ?_, fun hs => absurd hs hwait.1⟩
    simp only [hwait.2, List.length_nil, Nat.zero_le]

theorem Covered.step (h : Covered s) {a : Action n α} (hs : step p s a = some s') :
    Covered s' := by
  have hwake : ∀ {w m s₁}, s.submitting ≤ m + 1 →
      (p.step s.pool (.wake w)).map (fun pool => { s with pool := pool, submitting := m })
        = some s₁ → Covered s₁ := by
    intro w m s₁ hm hs
    obtain ⟨pool, hpool, rfl⟩ := Option.map_eq_some_iff.1 hs
    obtain ⟨hw, rfl⟩ := step_wake hpool
    exact h.ready rfl rfl rfl (by rw [hw]; rfl) hm
  cases a with
  | submit task =>
    simp only [Notified.step, ThreadPool.step, Option.map_some, Option.some.injEq] at hs
    subst hs
    exact h.submit task _
  | notifyOne woken =>
    simp only [Notified.step] at hs
    split at hs
    · cases hs
    · rename_i hm
      exact hwake hm.le hs
    · obtain ⟨hnone, hs⟩ := Option.ite_none_left_eq_some.1 hs
      obtain rfl := Option.some.inj hs
      refine ⟨?_, h.stop⟩
      rintro ⟨w, hw⟩
      exact absurd ⟨w, isAsleep_iff.2 hw⟩ hnone
  | lock w =>
    obtain ⟨pool, hpool, rfl⟩ := Option.map_eq_some_iff.1 hs
    obtain ⟨hw, rfl⟩ := step_lock hpool
    exact h.lock hw
  | spurious w => exact hwake (m := s.submitting) (Nat.le_succ _) hs
  | finish w o =>
    obtain ⟨pool, hpool, rfl⟩ := Option.map_eq_some_iff.1 hs
    obtain ⟨job, hw, rfl⟩ := step_finish hpool
    exact h.ready rfl rfl rfl (by rw [hw]; rfl) (Nat.le_succ _)
  | stop =>
    simp only [Notified.step] at hs
    split at hs
    · obtain ⟨pool, hpool, rfl⟩ := Option.map_eq_some_iff.1 hs
      obtain rfl := Option.some.inj hpool
      exact ⟨h.tasks, fun _ => .inl rfl⟩
    · cases hs
  | notifyAll =>
    simp only [Notified.step] at hs
    split at hs
    · obtain rfl := Option.some.inj hs
      have hnone := not_asleep_wakeAll s.pool.worker
      refine ⟨?_, fun _ => .inr hnone⟩
      rintro ⟨w, hw⟩
      exact absurd hw (hnone w)
    · cases hs

theorem exists_ready (worker : Fin n → Worker α) (h : 0 < looking worker) :
    ∃ w, worker w = .ready := by
  obtain ⟨w, -, hw⟩ := List.countP_pos_iff.1 h
  refine ⟨w, ?_⟩
  rcases hx : worker w with _ | _ | _ | _ <;> simp [hx, Worker.isReady] at hw ⊢

/-- In every reachable state with no notification still to be issued: if tasks wait, a worker is
left, and if tasks wait or the pool has stopped, not all the workers that are left are asleep. -/
theorem no_lost_wakeup {s : Notified p.size α} (hs : Reaches (step p) (init p) s)
    (hsettled : s.Settled) :
    (s.pool.tasks ≠ [] → ∃ w, s.pool.worker w ≠ .exited)
    ∧ (s.pool.tasks ≠ [] ∨ s.pool.stop = true → (∃ w, s.pool.worker w ≠ .exited) →
      ∃ w, s.pool.worker w ≠ .exited ∧ s.pool.worker w ≠ .asleep) := by
  have hcov : Covered s := hs.inv Covered (fun _ _ _ h => h.step)
    ⟨fun _ => Nat.zero_le _, nofun⟩
  have hinv : Inv p s.pool := (reaches_pool hs).inv (Inv p) (fun _ _ _ h => h.step) (inv_init p)
  refine ⟨fun htasks => ?_, ?_⟩
  · exact ⟨⟨0, p.size_pos⟩, fun hexit => htasks (hinv.exited _ hexit).2⟩
  · rintro hwork ⟨w, hw⟩
    by_cases hsleep : s.pool.worker w = .asleep
    · rcases hwork with htasks | hstop
      · have hle := hcov.tasks ⟨w, hsleep⟩
        have hpos := List.length_pos_iff.2 htasks
        rw [hsettled.1, Nat.zero_add] at hle
        obtain ⟨v, hv⟩ := exists_ready s.pool.worker (hpos.trans_le hle)
        exact ⟨v, by rw [hv]; exact nofun, by rw [hv]; exact nofun⟩
      · rcases hcov.stop hstop with hd | hall
        · exact absurd hd hsettled.2
        · exact absurd hsleep (hall w)
    · exact ⟨w, hw, hsleep⟩

/-- A worker sleeps, another pops the task of the first `submit` before its notification wakes the
sleeper, and the task of a second one waits for a worker that is on its way. -/
theorem no_lost_wakeup_two : ∃ s : Notified (ThreadPool.mk 2 0).size ℕ,
    Reaches (step ⟨2, 0⟩) (init ⟨2, 0⟩) s ∧ s.pool.tasks = [⟨1, 6⟩]
      ∧ s.pool.worker ⟨1, by decide⟩ = .running ⟨0, 5⟩
      ∧ ∃ w, s.pool.worker w ≠ .exited ∧ s.pool.worker w ≠ .asleep := by
  obtain ⟨s, hs, htasks, hrun, hsettled⟩ := exists_reaches (step ⟨2, 0⟩)
    (init ⟨2, 0⟩ : Notified (ThreadPool.mk 2 0).size ℕ)
    [.lock ⟨0, by decide⟩, .submit 5, .lock ⟨1, by decide⟩, .submit 6,
      .notifyOne (some ⟨0, by decide⟩), .notifyOne none]
    (fun s => s.pool.tasks = [⟨1, 6⟩] ∧ s.pool.worker ⟨1, by decide⟩ = .running ⟨0, 5⟩
      ∧ s.Settled) (by decide)
  have h := no_lost_wakeup hs hsettled
  have hne : s.pool.tasks ≠ [] := by rw [htasks]; exact List.cons_ne_nil _ _
  exact ⟨s, hs, htasks, hrun, h.2 (.inl hne) (h.1 hne)⟩

end Notified

end ThreadPool

end Redon
