import Redon.Proofs.Handover
import Redon.Proofs.Server

/-!
# What the metrics count

An error is told from the text of the reply. For every command but `GET` that is the same as the
command having been refused or having failed (`Does.err_eq`), while a `GET` replies with whatever
the client stored. So the counters are off by each `GET` of a value that looks like an error or
that the engine holds and does not read (`accounts_iff`).
-/

namespace Redon

open Lib

namespace Storage

theorem lookup_of_get {s : Storage} {k v : Bytes} (h : (s.get k).1 = some v) :
    s.toMap.lookup k = some v := by
  rcases hd : s.disk with _ | d
  · rw [toMap_of_none hd]
    rcases get_cases hd k with ⟨-, hg⟩ | ⟨i, v', -, hv, hg⟩
    · rw [hg] at h
      cases h
    · rw [hg] at h
      obtain rfl := Option.some.inj h
      exact LinkedMap.lookup_toMap.2 (LinkedMap.get?_eq_some.1 hv)
  · rw [get, hd] at h
    rw [toMap, hd]
    dsimp only at h ⊢
    unfold DiskStore.get at h
    split_ifs at h
    rw [DiskStore.lookup_toMap]
    exact h

end Storage

section Errors

variable {e : ExecEnv} {x : ExecState} {info : Bytes} {o : Op} {r : Executed}

/-- The command layer refuses the operation or fails to carry it out. -/
def Op.failed (e : ExecEnv) (x : ExecState) : Op → Bool
  | .refuse => true
  | .sync => !(x.store.clear e.truncated e.reopened).1
  | .call c => (x.store.call c).1.refused
  | _ => false

def Op.isGet : Op → Bool
  | .call (.get _) => true
  | _ => false

/-- The reply to anything but a `GET` looks like an error exactly if it is one. -/
theorem Does.err_eq (h : Does e x info o r) (hinfo : (ascii "ERR").isPrefixOf info = false)
    (ho : o.isGet = false) : (ascii "ERR").isPrefixOf r.reply = o.failed e x := by
  cases h with
  | blank => rfl
  | info => exact hinfo
  | refuse herr => exact List.isPrefixOf_iff_prefix.2 herr
  | sync =>
    change (ascii "ERR").isPrefixOf (if _ then _ else _) = !(x.store.clear e.truncated e.reopened).1
    cases (x.store.clear e.truncated e.reopened).1 <;> decide
  | raft => rfl
  | role =>
    unfold ExecState.executeRole
    rcases x.raft with _ | node
    · rfl
    · rfl
  | call c =>
    cases c with
    | set k v =>
      change (ascii "ERR").isPrefixOf (if _ then _ else _) = !(x.store.set k v).1
      cases (x.store.set k v).1 <;> decide
    | get k => cases ho
    | del k =>
      change (ascii "ERR").isPrefixOf (if _ then _ else _) = !(x.store.del k).1.durable
      cases (x.store.del k).1.durable <;> rfl
    | «exists» k => rfl
  | ping => rfl
  | quit => rfl

end Errors

namespace Metrics

theorem onCommand_eq (m : Metrics) (verb : Bytes) (isError : Bool) : ∃ g s d,
    m.onCommand verb isError = { m with
      commands := m.commands + 1
      gets := g
      sets := s
      dels := d
      errors := m.errors + isError.toNat } := by
  unfold onCommand
  cases isError with
  | false =>
    simp only [Bool.false_eq_true, if_false]
    split_ifs <;> exact ⟨_, _, _, rfl⟩
  | true =>
    simp only [if_true]
    split_ifs <;> exact ⟨_, _, _, rfl⟩

/-- What a line that counts adds to the counters. -/
theorem record_eq (m : Metrics) {verb : Bytes} {link : Bool} (reply : Bytes) (hit : Bool)
    (h : (!verb.isEmpty && !link && !(ascii "__").isPrefixOf verb) = true) :
    (m.record verb link reply hit).errors = m.errors + ((ascii "ERR").isPrefixOf reply).toNat
    ∧ (m.record verb link reply hit).getHits
      = m.getHits + (verb = ascii "GET" && !(ascii "ERR").isPrefixOf reply && hit).toNat
    ∧ (m.record verb link reply hit).getMisses
      = m.getMisses + (verb = ascii "GET" && !(ascii "ERR").isPrefixOf reply && !hit).toNat := by
  obtain ⟨g, s, d, hm⟩ := m.onCommand_eq verb ((ascii "ERR").isPrefixOf reply)
  unfold record
  rw [if_pos h]
  dsimp only
  rw [hm]
  cases (verb = ascii "GET" && !(ascii "ERR").isPrefixOf reply : Bool)
  · exact ⟨rfl, rfl, rfl⟩
  · cases hit <;> exact ⟨rfl, rfl, rfl⟩

end Metrics

namespace Server

variable (c : ServerConfig)

/-- What the counters are there to count. -/
structure Tally where
  hits : ℕ := 0
  misses : ℕ := 0
  errors : ℕ := 0
  deriving DecidableEq, Repr

/-- Blank lines, lines of replica links and internal verbs do not count. -/
def counted (s : Server) (conn : ℕ) (line : Bytes) : Bool :=
  !(verbAndKey line).1.isEmpty && !s.isReplicaLink conn
    && !(ascii "__").isPrefixOf (verbAndKey line).1

def Tally.line (t : Tally) (s : Server) (conn : ℕ) (line : Bytes) (io : LineIo) : Tally :=
  if !s.counted conn line then t
  else
    match s.op c conn line io with
    | .call (.get k) =>
      if (s.node.store.toMap.lookup k).isSome then { t with hits := t.hits + 1 }
      else { t with misses := t.misses + 1 }
    | o =>
      if o.failed (env c io) ⟨s.node.store, s.isReplicaLink conn, s.node.raft⟩ then
        { t with errors := t.errors + 1 }
      else t

/-- A server and the tally of what happened to it. -/
structure Audit where
  server : Server
  tally : Tally

def audit (a : Audit) (ev : Event) : Option Audit :=
  (a.server.step c ev).map fun s =>
    ⟨s, match ev with
      | .line conn line io => a.tally.line c a.server conn line io
      | .timer _ => a.tally⟩

/-- The counters are exact. -/
def Audit.Exact (a : Audit) : Prop :=
  a.server.metrics.getHits = a.tally.hits ∧ a.server.metrics.getMisses = a.tally.misses
    ∧ a.server.metrics.errors = a.tally.errors

/-- A `GET` that counts, of a value that starts like an error or that the engine does not read. -/
def Misread (s : Server) : Event → Prop
  | .line conn line io => s.counted conn line = true ∧ ∃ k v, s.op c conn line io = .call (.get k)
    ∧ s.node.store.toMap.lookup k = some v
    ∧ (ascii "ERR" <+: v ∨ (s.node.store.get k).1 = none)
  | .timer _ => False

variable {c}

section Line

variable {s : Server} {conn : ℕ} {line : Bytes} {io : LineIo} {k : Bytes}

theorem Tally.line_get (t : Tally) (hc : s.counted conn line = true)
    (ho : s.op c conn line io = .call (.get k)) :
    t.line c s conn line io
      = if (s.node.store.toMap.lookup k).isSome then { t with hits := t.hits + 1 }
        else { t with misses := t.misses + 1 } := by
  rw [Tally.line, hc, ho]
  rfl

theorem Tally.line_other (t : Tally) (hc : s.counted conn line = true)
    (ho : (s.op c conn line io).isGet = false) :
    t.line c s conn line io = { t with errors := t.errors + ((s.op c conn line io).failed (env c io)
      ⟨s.node.store, s.isReplicaLink conn, s.node.raft⟩).toNat } := by
  rw [Tally.line, hc]
  simp only [Bool.not_true, Bool.false_eq_true, if_false]
  split
  · rename_i k hop
    rw [hop] at ho
    cases ho
  · cases Op.failed _ _ _ <;> rfl

theorem verb_of_get (ho : s.op c conn line io = .call (.get k)) :
    (verbAndKey line).1 = ascii "GET" := by
  rw [verbAndKey_eq]
  cases (asks_of_lineOp ho).2 with
  | get hv _ _ => exact hv

/-- The counters after a line. -/
def recorded (c : ServerConfig) (s : Server) (conn : ℕ) (line : Bytes) (io : LineIo) : Metrics :=
  s.metrics.record (verbAndKey line).1 (s.isReplicaLink conn) (s.answer c conn line io).reply
    (s.answer c conn line io).wasGetHit

theorem recorded_of_not_counted (hc : s.counted conn line ≠ true) :
    s.recorded c conn line io = s.metrics := if_neg hc

/-- What a `GET` that counts adds to the counters, by what the store finds. -/
theorem recorded_get (hc : s.counted conn line = true)
    (ho : s.op c conn line io = .call (.get k)) :
    (s.recorded c conn line io).getHits = s.metrics.getHits
      + ((s.node.store.get k).1.any fun v => !(ascii "ERR").isPrefixOf v).toNat
    ∧ (s.recorded c conn line io).getMisses
      = s.metrics.getMisses + (s.node.store.get k).1.isNone.toNat
    ∧ (s.recorded c conn line io).errors = s.metrics.errors
      + ((s.node.store.get k).1.any fun v => (ascii "ERR").isPrefixOf v).toNat := by
  have hdoes := answer_does (c := c) s conn line io
  obtain ⟨herrors, hhits, hmisses⟩ := s.metrics.record_eq
    (s.answer c conn line io).reply (s.answer c conn line io).wasGetHit hc
  unfold recorded
  rw [herrors, hhits, hmisses, verb_of_get ho]
  rw [ho] at hdoes
  generalize s.answer c conn line io = r at hdoes ⊢
  cases hdoes with
  | call =>
    dsimp only [ExecState.called, ExecState.answer, Storage.call, Answer.isHit,
      ExecState.callReply]
    cases (s.node.store.get k).1 with
    | none => exact ⟨rfl, rfl, rfl⟩
    | some v => cases h : (ascii "ERR").isPrefixOf v <;> simp [h]

theorem recorded_other (hc : s.counted conn line = true)
    (ho : (s.op c conn line io).isGet = false) :
    (s.recorded c conn line io).getHits = s.metrics.getHits
    ∧ (s.recorded c conn line io).getMisses = s.metrics.getMisses
    ∧ (s.recorded c conn line io).errors = s.metrics.errors
      + ((s.op c conn line io).failed (env c io)
        ⟨s.node.store, s.isReplicaLink conn, s.node.raft⟩).toNat := by
  have hdoes := answer_does (c := c) s conn line io
  have herr := hdoes.err_eq rfl ho
  obtain ⟨herrors, hhits, hmisses⟩ := s.metrics.record_eq
    (s.answer c conn line io).reply (s.answer c conn line io).wasGetHit hc
  have hget : (decide ((verbAndKey line).1 = ascii "GET")
      && !(ascii "ERR").isPrefixOf (s.answer c conn line io).reply) = false := by
    by_cases hv : (verbAndKey line).1 = ascii "GET"
    · -- a `GET` that makes no call is refused
      have hop : s.op c conn line io = .refuse ∨ s.op c conn line io = .call (.get _) :=
        lineOp_get hv
      rcases hop with hop | hop
      · rw [herr, hop]
        simp [Op.failed]
      · rw [hop] at ho
        cases ho
    · simp [hv]
  unfold recorded
  rw [herrors, hhits, hmisses, hget, herr]
  exact ⟨rfl, rfl, rfl⟩

/-- A line that is not misread adds the same to the counters and to the tally. -/
theorem recorded_exact (t : Tally) (h : ¬s.Misread c (.line conn line io)) : ∃ i j k,
    (s.recorded c conn line io).getHits = s.metrics.getHits + i
    ∧ (t.line c s conn line io).hits = t.hits + i
    ∧ (s.recorded c conn line io).getMisses = s.metrics.getMisses + j
    ∧ (t.line c s conn line io).misses = t.misses + j
    ∧ (s.recorded c conn line io).errors = s.metrics.errors + k
    ∧ (t.line c s conn line io).errors = t.errors + k := by
  by_cases hc : s.counted conn line = true
  · by_cases ho : (s.op c conn line io).isGet = true
    · obtain ⟨k, ho⟩ : ∃ k, s.op c conn line io = .call (.get k) := by
        unfold Op.isGet at ho
        split at ho
        · exact ⟨_, ‹_›⟩
        · cases ho
      obtain ⟨hhits, hmisses, herrors⟩ := recorded_get hc ho
      rw [hhits, hmisses, herrors, t.line_get hc ho]
      rcases hfound : (s.node.store.get k).1 with _ | v
      · have hnone : s.node.store.toMap.lookup k = none := Option.eq_none_iff_forall_ne_some.2
          fun v hv => h ⟨hc, k, v, ho, hv, .inr hfound⟩
        rw [hnone]
        exact ⟨0, 1, 0, rfl, rfl, rfl, rfl, rfl, rfl⟩
      · have hsome := Storage.lookup_of_get hfound
        have hv : (ascii "ERR").isPrefixOf v = false := Bool.eq_false_iff.2 fun hv =>
          h ⟨hc, k, v, ho, hsome, .inl (List.isPrefixOf_iff_prefix.1 hv)⟩
        rw [hsome, Option.any_some, Option.any_some, hv]
        exact ⟨1, 0, 0, rfl, rfl, rfl, rfl, rfl, rfl⟩
    · rw [Bool.not_eq_true] at ho
      obtain ⟨hhits, hmisses, herrors⟩ := recorded_other hc ho
      rw [hhits, hmisses, herrors, t.line_other hc ho]
      exact ⟨0, 0, _, rfl, rfl, rfl, rfl, rfl, rfl⟩
  · rw [recorded_of_not_counted hc, Tally.line, if_pos (by simpa using hc)]
    exact ⟨0, 0, 0, rfl, rfl, rfl, rfl, rfl, rfl⟩

/-- A `GET` that is misread is a hit that is not counted. -/
theorem recorded_misread (t : Tally) (h : s.Misread c (.line conn line io)) :
    (s.recorded c conn line io).getHits = s.metrics.getHits
    ∧ (t.line c s conn line io).hits = t.hits + 1 := by
  obtain ⟨hc, k, v, ho, hv, hmis⟩ := h
  obtain ⟨hhits, -, -⟩ := recorded_get hc ho
  rw [hhits, t.line_get hc ho, hv]
  refine ⟨?_, rfl⟩
  rcases hfound : (s.node.store.get k).1 with _ | v'
  · rfl
  · have hsome := Storage.lookup_of_get hfound
    rw [hv] at hsome
    obtain rfl := Option.some.inj hsome
    rcases hmis with herr | hnone
    · rw [Option.any_some, List.isPrefixOf_iff_prefix.2 herr]
      rfl
    · rw [hfound] at hnone
      cases hnone

end Line

section Run

variable {a a' : Audit} {ev : Event}

/-- A step of an audited server: not misread, with the same added to both sides, or a hit lost. -/
theorem audit_cases (h : audit c a ev = some a') :
    (¬a.server.Misread c ev ∧ ∃ i j k,
      a'.server.metrics.getHits = a.server.metrics.getHits + i ∧ a'.tally.hits = a.tally.hits + i
      ∧ a'.server.metrics.getMisses = a.server.metrics.getMisses + j
      ∧ a'.tally.misses = a.tally.misses + j
      ∧ a'.server.metrics.errors = a.server.metrics.errors + k
      ∧ a'.tally.errors = a.tally.errors + k)
    ∨ (a.server.Misread c ev ∧ a'.server.metrics.getHits = a.server.metrics.getHits
      ∧ a'.tally.hits = a.tally.hits + 1) := by
  obtain ⟨s, hs, rfl⟩ := Option.map_eq_some_iff.1 h
  cases ev with
  | line conn line io =>
    obtain ⟨-, rfl⟩ := step_line hs
    by_cases hmis : a.server.Misread c (.line conn line io)
    · exact .inr ⟨hmis, recorded_misread a.tally hmis⟩
    · exact .inl ⟨hmis, recorded_exact a.tally hmis⟩
  | timer node =>
    obtain ⟨-, rfl⟩ := step_timer hs
    exact .inl ⟨id, 0, 0, 0, rfl, rfl, rfl, rfl, rfl, rfl⟩

/-- The counters of hits, misses and errors are exact after a run, whatever lines it had on
whatever connections, exactly if no `GET` that counts was misread in it. -/
theorem accounts_iff (c : ServerConfig) (store : Storage) (boot : RaftNode.Tick) (evs : List Event)
    (h : runActs (audit c) ⟨start c store boot, {}⟩ evs = some a) :
    a.Exact ↔ AllSteps (audit c) (fun a ev _ => ¬a.server.Misread c ev)
      ⟨start c store boot, {}⟩ evs := by
  have hstep := allSteps_iff (P := Audit.Exact) (Q := fun a ev _ => ¬a.server.Misread c ev)
    (fun a => a.server.metrics.getHits ≤ a.tally.hits) (fun a ev a' hle hs => ?_)
    (fun a ev a' hle hs => ?_) evs (s := ⟨start c store boot, {}⟩) le_rfl h
  · rw [hstep]
    exact and_iff_right ⟨rfl, rfl, rfl⟩
  · rcases audit_cases hs with ⟨-, i, j, k, h₁, h₂, -⟩ | ⟨-, h₁, h₂⟩ <;> omega
  · unfold Audit.Exact
    rcases audit_cases hs with ⟨hmis, i, j, k, h₁, h₂, h₃, h₄, h₅, h₆⟩ | ⟨hmis, h₁, h₂⟩
    · rw [and_iff_left hmis]
      omega
    · exact iff_of_false (fun he => by omega) fun he => he.2 hmis

theorem accounts_iff_hit :
    let evs := [.line 0 (ascii "SET k v") quietIo, .line 1 (ascii "GET k") quietIo]
    ∃ a, runActs (audit {}) ⟨start {} (.empty 0) ⟨0, 0⟩, {}⟩ evs = some a
      ∧ (a.Exact ↔ AllSteps (audit {}) (fun a ev _ => ¬a.server.Misread {} ev)
        ⟨start {} (.empty 0) ⟨0, 0⟩, {}⟩ evs) :=
  ⟨_, rfl, accounts_iff _ _ _ _ rfl⟩

/-- A `GET` that finds the value `ERRx` counts as an error and not as a hit. -/
theorem hit_counted_as_error :
    ∃ a, runActs (audit {}) ⟨start {} (.empty 0) ⟨0, 0⟩, {}⟩
        [.line 0 (ascii "SET k ERRx") quietIo, .line 0 (ascii "GET k") quietIo] = some a
      ∧ a.server.metrics.getHits = 0 ∧ a.server.metrics.errors = 1
      ∧ a.tally.hits = 1 ∧ a.tally.errors = 0 :=
  exists_run _ _ _ (fun a : Audit => a.server.metrics.getHits = 0 ∧ a.server.metrics.errors = 1
    ∧ a.tally.hits = 1 ∧ a.tally.errors = 0) (by decide)

end Run

end Server

end Redon
