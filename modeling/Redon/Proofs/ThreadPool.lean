import Redon.Lib.Machine
import Redon.Lib.Workers
import Redon.ThreadPool

/-!
# Every accepted task runs once

What was popped and what waits, in this order, are the accepted tasks in the order of the calls, and
what was popped is in a worker's hand or finished (`Inv`). A worker exits only when the pool has
stopped and nothing waits, and after the stop nothing is accepted, so nothing is left behind when
the last worker exits.
-/

namespace Redon

open Lib

namespace ThreadPool

variable {α : Type} {n : ℕ} {p : ThreadPool} {s s' : State n α} {w : Fin n}

theorem size_pos (p : ThreadPool) : 0 < p.size := by
  unfold size
  split_ifs with h
  · exact Nat.one_pos
  · exact Nat.pos_of_ne_zero h

/-- A task is refused, or pushed if there is room and the pool has not stopped. -/
theorem submit_cases (p : ThreadPool) (s : State n α) (task : α) :
    p.submit s task = (false, s) ∨ s.stop = false
      ∧ (p.maxQueueSize ≠ 0 → s.tasks.length < p.maxQueueSize)
      ∧ p.submit s task = (true, { s with tasks := s.tasks ++ [⟨s.submits.length, task⟩] }) := by
  unfold submit
  split_ifs with hstop hfull
  · exact .inl rfl
  · exact .inl rfl
  · exact .inr ⟨Bool.eq_false_iff.2 hstop, fun hb => not_le.1 fun hle => hfull ⟨hb, hle⟩, rfl⟩

/-- A worker that changes its state changes what is in its own hand only. -/
theorem running_update (s : State n α) (w : Fin n) (x : Worker α) :
    ((s.worker w).job?.toList
        ++ State.running { s with worker := Function.update s.worker w x }).Perm
      (x.job?.toList ++ s.running) := by
  have h := gathered_update (Worker.job? ∘ s.worker) w x.job?
  rw [← Function.comp_update] at h
  exact h

section Accepted

theorem accepted_concat (s : State n α) (task : α) (b : Bool) :
    State.accepted { s with submits := s.submits ++ [(task, b)] }
      = s.accepted ++ (if b then [⟨s.submits.length, task⟩] else []) := by
  unfold State.accepted
  rw [List.zipIdx_append, List.filter_append, List.map_append]
  congr 1
  cases b <;> simp

theorem mem_accepted {job : Job α} :
    job ∈ s.accepted ↔ s.submits[job.id]? = some (job.task, true) := by
  unfold State.accepted
  rw [List.mem_map]
  refine ⟨?_, fun h => ⟨((job.task, true), job.id), ?_, rfl⟩⟩
  · rintro ⟨⟨⟨task, b⟩, i⟩, hx, rfl⟩
    obtain ⟨hx, rfl⟩ := List.mem_filter.1 hx
    exact List.mem_zipIdx_iff_getElem?.1 hx
  · exact List.mem_filter.2 ⟨List.mem_zipIdx_iff_getElem?.2 h, rfl⟩

theorem nodup_accepted (s : State n α) : (s.accepted.map Job.id).Nodup := by
  unfold State.accepted
  rw [List.map_map]
  have h : (s.submits.zipIdx.map Prod.snd).Nodup := by
    rw [List.zipIdx_map_snd]
    exact List.nodup_range'
  exact h.sublist (List.filter_sublist.map _)

end Accepted

structure Inv (p : ThreadPool) (s : State n α) : Prop where
  order : s.popped ++ s.tasks = s.accepted
  ran : (s.running ++ s.finished.map Prod.fst).Perm s.popped
  bound : p.maxQueueSize ≠ 0 → s.tasks.length ≤ p.maxQueueSize
  exited : ∀ w, s.worker w = .exited → s.stop = true ∧ s.tasks = []

theorem inv_init (p : ThreadPool) : Inv p (p.init : State p.size α) := by
  refine ⟨rfl, ?_, fun _ => Nat.zero_le _, nofun⟩
  rw [show (p.init : State p.size α).running = [] from List.filterMap_eq_nil_iff.2 fun _ _ => rfl]
  exact .refl _

/-- A worker with nothing in its hand, before and after. -/
theorem Inv.idle (h : Inv p s) {x : Worker α} (hw : (s.worker w).job? = none) (hx : x.job? = none)
    (he : x = .exited → s.stop = true ∧ s.tasks = []) :
    Inv p { s with worker := Function.update s.worker w x } := by
  refine ⟨h.order, ?_, h.bound, fun v hv => ?_⟩
  · have hrun := running_update s w x
    rw [hw, hx] at hrun
    exact (hrun.append_right _).trans h.ran
  · simp only [Function.update_apply] at hv
    split_ifs at hv
    · exact he hv
    · exact h.exited v hv

theorem Inv.submit (h : Inv p s) (task : α) :
    Inv p { (p.submit s task).2 with submits := s.submits ++ [(task, (p.submit s task).1)] } := by
  rcases submit_cases p s task with he | ⟨hstop, hroom, he⟩ <;> rw [he]
  · refine ⟨?_, h.ran, h.bound, h.exited⟩
    rw [accepted_concat]
    exact h.order.trans (List.append_nil _).symm
  · refine ⟨?_, h.ran, fun hb => ?_, fun w hw => ?_⟩
    · have hacc := accepted_concat s task true
      rw [← h.order, List.append_assoc] at hacc
      exact hacc.symm
    · rw [List.length_append]
      exact hroom hb
    · have hexit := (h.exited w hw).1
      rw [hstop] at hexit
      cases hexit

theorem Inv.workerLoop (h : Inv p s) (hw : s.worker w = .ready) : Inv p (workerLoop s w) := by
  have hjob : (s.worker w).job? = none := by rw [hw]; rfl
  unfold ThreadPool.workerLoop
  split_ifs with hwait
  · split
    · rename_i htasks
      rw [htasks] at hwait
      exact h.idle hjob rfl fun _ => ⟨(Bool.or_false _).symm.trans hwait, htasks⟩
    · rename_i job rest htasks
      have horder := h.order
      rw [htasks] at horder
      refine ⟨(List.append_assoc ..).trans horder, ?_, fun hb => ?_, fun v hv => ?_⟩
      · have hrun := running_update s w (.running job)
        rw [hjob] at hrun
        refine (hrun.append_right (s.finished.map Prod.fst)).trans ?_
        exact (h.ran.cons job).trans (List.perm_append_singleton job s.popped).symm
      · have hlen := h.bound hb
        rw [htasks] at hlen
        exact Nat.le_of_succ_le hlen
      · simp only [Function.update_apply] at hv
        split_ifs at hv
        have hnil := (h.exited v hv).2
        rw [htasks] at hnil
        cases hnil
  · exact h.idle hjob rfl nofun

theorem Inv.finish (h : Inv p s) {job : Job α} (hw : s.worker w = .running job) (o : Outcome) :
    Inv p { s with
      worker := Function.update s.worker w .ready
      finished := s.finished ++ [(job, o)] } := by
  refine ⟨h.order, ?_, h.bound, fun v hv => ?_⟩
  · have hrun := running_update s w .ready
    rw [hw] at hrun
    rw [List.map_append, ← List.append_assoc]
    refine (List.perm_append_singleton job _).trans ?_
    exact (hrun.append_right (s.finished.map Prod.fst)).trans h.ran
  · simp only [Function.update_apply] at hv
    split_ifs at hv
    exact h.exited v hv

theorem step_lock {w : Fin n} (hs : p.step s (.lock w) = some s') :
    s.worker w = .ready ∧ s' = workerLoop s w := by
  simp only [ThreadPool.step] at hs
  split at hs
  · rename_i hw
    exact ⟨hw, (Option.some.inj hs).symm⟩
  · cases hs

theorem step_wake {w : Fin n} (hs : p.step s (.wake w) = some s') :
    s.worker w = .asleep ∧ s' = { s with worker := Function.update s.worker w .ready } := by
  simp only [ThreadPool.step] at hs
  split at hs
  · rename_i hw
    exact ⟨hw, (Option.some.inj hs).symm⟩
  · cases hs

theorem step_finish {w : Fin n} {o : Outcome} (hs : p.step s (.finish w o) = some s') :
    ∃ job, s.worker w = .running job ∧ s' = { s with
      worker := Function.update s.worker w .ready, finished := s.finished ++ [(job, o)] } := by
  simp only [ThreadPool.step] at hs
  split at hs
  · rename_i job hw
    exact ⟨job, hw, (Option.some.inj hs).symm⟩
  · cases hs

theorem Inv.step (h : Inv p s) {a : Action n α} (hs : p.step s a = some s') : Inv p s' := by
  cases a with
  | submit task =>
    obtain rfl := Option.some.inj hs
    exact h.submit task
  | lock w =>
    obtain ⟨hw, rfl⟩ := step_lock hs
    exact h.workerLoop hw
  | wake w =>
    obtain ⟨hw, rfl⟩ := step_wake hs
    exact h.idle (by rw [hw]; rfl) rfl nofun
  | finish w o =>
    obtain ⟨job, hw, rfl⟩ := step_finish hs
    exact h.finish hw o
  | stop =>
    obtain rfl := Option.some.inj hs
    exact ⟨h.order, h.ran, h.bound, fun w hw => ⟨rfl, (h.exited w hw).2⟩⟩

/-- Where the accepted tasks are. -/
theorem Inv.places (h : Inv p s) :
    (s.tasks ++ s.running ++ s.finished.map Prod.fst).Perm s.accepted := by
  rw [← h.order, List.append_assoc]
  exact (List.perm_append_comm).trans (h.ran.append_right _)

theorem Inv.popped_accepted (h : Inv p s) {job : Job α} (hj : job ∈ s.popped) :
    s.submits[job.id]? = some (job.task, true) := by
  refine mem_accepted.1 ?_
  rw [← h.order]
  exact List.mem_append_left _ hj

theorem Inv.drained (h : Inv p s) (hn : 0 < n) (hall : ∀ w, s.worker w = .exited) {job : Job α}
    (hj : job ∈ s.accepted) : job ∈ s.finished.map Prod.fst := by
  have htasks := (h.exited ⟨0, hn⟩ (hall _)).2
  have hrun : s.running = [] := List.filterMap_eq_nil_iff.2 fun w _ => by rw [hall w]; rfl
  have hmem := h.places.symm.subset hj
  rwa [htasks, hrun] at hmem

/-- In every reachable state an accepted task is at exactly one place: it waits, one worker runs it,
or it is finished. What was popped was accepted, and was popped in the order of the `submit` calls;
the bound is kept; and when all workers have exited every accepted task is finished. -/
theorem accepted_run_once {s : State p.size α} (hs : Reaches p.step p.init s) :
    (∀ i task, s.submits[i]? = some (task, true) →
      s.tasks.countP (·.id = i) + s.running.countP (·.id = i)
        + (s.finished.map Prod.fst).countP (·.id = i) = 1)
    ∧ (∀ job, job ∈ s.popped ∨ job ∈ s.tasks ∨ job ∈ s.running ∨ job ∈ s.finished.map Prod.fst →
      s.submits[job.id]? = some (job.task, true))
    ∧ (p.maxQueueSize ≠ 0 → s.tasks.length ≤ p.maxQueueSize)
    ∧ s.popped ++ s.tasks = s.accepted
    ∧ ((∀ w, s.worker w = .exited) → ∀ i task, s.submits[i]? = some (task, true) →
      (⟨i, task⟩ : Job α) ∈ s.finished.map Prod.fst) := by
  have h : Inv p s := hs.inv (Inv p) (fun _ _ _ h => h.step) (inv_init p)
  refine ⟨fun i task hi => ?_, fun job hj => ?_, h.bound, h.order, fun hall i task hi => ?_⟩
  · rw [← List.countP_append, ← List.countP_append, h.places.countP_eq]
    have hmem : i ∈ s.accepted.map Job.id :=
      List.mem_map.2 ⟨⟨i, task⟩, mem_accepted.2 hi, rfl⟩
    have hcount := List.count_eq_one_of_mem (nodup_accepted s) hmem
    rw [List.count, List.countP_map] at hcount
    rw [← hcount]
    exact List.countP_congr fun job _ => by simp
  · rcases hj with hj | hj
    · exact h.popped_accepted hj
    · refine mem_accepted.1 (h.places.subset ?_)
      rw [List.append_assoc]
      rcases hj with hj | hj | hj <;> simp only [List.mem_append, hj, true_or, or_true]
  · exact h.drained (size_pos p) hall (mem_accepted.2 hi)

/-- One worker and room for one task. -/
def solo : ThreadPool := ⟨1, 1⟩

/-- The second of three tasks is refused, the first throws, the worker exits behind the third. -/
theorem accepted_run_once_solo :
    ∃ s : State solo.size ℕ, Reaches solo.step solo.init s
      ∧ s.submits = [(5, true), (6, false), (7, true)]
      ∧ (⟨2, 7⟩ : Job ℕ) ∈ s.finished.map Prod.fst := by
  obtain ⟨s, hs, hsub, hall⟩ := exists_reaches solo.step (solo.init : State solo.size ℕ)
    [.lock ⟨0, solo.size_pos⟩, .submit 5, .submit 6, .wake ⟨0, solo.size_pos⟩,
      .lock ⟨0, solo.size_pos⟩, .submit 7, .finish ⟨0, solo.size_pos⟩ .threw, .stop,
      .lock ⟨0, solo.size_pos⟩, .finish ⟨0, solo.size_pos⟩ .returned, .lock ⟨0, solo.size_pos⟩]
    (fun s => s.submits = [(5, true), (6, false), (7, true)] ∧ ∀ w, s.worker w = .exited)
    (by decide)
  exact ⟨s, hs, hsub, (accepted_run_once hs).2.2.2.2 hall 2 7 (by rw [hsub]; rfl)⟩

end ThreadPool

end Redon
