import Redon.Proofs.Commands
import Redon.Proofs.Handover
import Redon.Server

/-!
# Who may change a server's map

A connection of a follower becomes the replica link once, by the handshake (`acceptances`), and from
then on its writes are executed; every other connection leaves the map alone. A server that is not
a follower makes no connection a replica link and never empties its store, and a Raft node that
does not lead changes neither the map nor the log and hands nothing on (`read_only`).
-/

namespace Redon

open Lib

namespace Storage

variable {s : Storage}

theorem toMap_clear (truncated reopened : Bool) : (s.clear truncated reopened).2.toMap = ∅ := by
  unfold clear
  rcases s.disk with _ | d
  · rfl
  · rfl

/-- A call that asks for no change makes none. -/
theorem call_of_read {c : Call} (hc : c.write = none) : (s.call c).2.toMap = s.toMap
    ∧ (s.call c).2.wal = s.wal ∧ s.handed c = [] := by
  cases c with
  | set => cases hc
  | get k =>
    obtain ⟨items, he, -⟩ := s.get_eq k
    refine ⟨s.toMap_get k, ?_, rfl⟩
    change (s.get k).2.wal = s.wal
    rw [he]
  | del => cases hc
  | «exists» => exact ⟨rfl, rfl, rfl⟩

end Storage

section Effects

variable {e : ExecEnv} {x : ExecState} {info : Bytes} {o : Op} {r : Executed}

/-- The operation is the handshake or a call that asks for a change. -/
def Op.mayWrite : Op → Bool
  | .sync => true
  | .call c => c.write.isSome
  | _ => false

theorem Does.keeps (h : Does e x info o r) (ho : o.mayWrite = false) :
    r.store.toMap = x.store.toMap ∧ r.store.wal = x.store.wal ∧ r.replicated = [] := by
  cases h with
  | sync => cases ho
  | call c =>
    exact Storage.call_of_read (Option.isNone_iff_eq_none.1 (by simpa [Op.mayWrite] using ho))
  | _ => exact ⟨rfl, rfl, rfl⟩

theorem Does.link (h : Does e x info o r) (ho : o ≠ .sync) : r.isReplicaLink = x.isReplicaLink := by
  cases h with
  | sync => exact absurd rfl ho
  | _ => rfl

theorem Does.calls (h : Does e x info o r) (ho : o ≠ .sync) :
    r.store = x.store ∨ ∃ c, r.store = (x.store.call c).2 := by
  cases h with
  | sync => exact absurd rfl ho
  | call c => exact .inr ⟨c, rfl⟩
  | _ => exact .inl rfl

theorem Does.raft_isSome (h : Does e x info o r) : r.raft.isSome = x.raft.isSome := by
  cases h with
  | raft _ _ hx => exact hx.symm
  | _ => rfl

end Effects

namespace Server

variable (c : ServerConfig)

/-- What a connection's line asks for. -/
def op (s : Server) (conn : ℕ) (line : Bytes) (io : LineIo) : Op :=
  s.node.lineOp (env c io) (s.isReplicaLink conn) line

/-- The connection whose handshake the server accepts in this event. -/
def accepts (s : Server) : Event → Option ℕ
  | .line conn line _ =>
    if (verbAndKey line).1 = ascii "__REPLSYNC__" ∧ c.isFollower = true
        ∧ s.isReplicaLink conn = false then some conn
    else none
  | .timer _ => none

/-- The connections whose handshakes are accepted in a run. -/
def acceptances : Server → List Event → List ℕ
  | _, [] => []
  | s, ev :: evs =>
    (s.accepts c ev).toList ++ ((s.step c ev).map fun s => acceptances s evs).getD []

variable {c} {s s' : Server} {conn : ℕ} {line : Bytes} {io : LineIo} {ev : Event}

section Step

theorem answer_does (s : Server) (conn : ℕ) (line : Bytes) (io : LineIo) :
    Does (env c io) ⟨s.node.store, s.isReplicaLink conn, s.node.raft⟩ (Metrics.infoText io.stats)
      (s.op c conn line io) (s.answer c conn line io) :=
  answerLine_does _ _ _

theorem step_line (h : s.step c (.line conn line io) = some s') :
    s.closed conn = false ∧ s' =
      { node := ⟨(s.answer c conn line io).store, (s.answer c conn line io).raft⟩
        isReplicaLink :=
          Function.update s.isReplicaLink conn (s.answer c conn line io).isReplicaLink
        closed := Function.update s.closed conn (s.answer c conn line io).shouldClose
        metrics := s.metrics.record (verbAndKey line).1 (s.isReplicaLink conn)
          (s.answer c conn line io).reply (s.answer c conn line io).wasGetHit } := by
  simp only [step] at h
  split_ifs at h with hclosed
  exact ⟨Bool.eq_false_iff.2 hclosed, (Option.some.inj h).symm⟩

theorem step_timer {node : RaftNode} (h : s.step c (.timer node) = some s') :
    s.node.raft.isSome = true ∧ s' = { s with node := { s.node with raft := some node } } := by
  obtain ⟨node', hnode, rfl⟩ := Option.map_eq_some_iff.1 h
  exact ⟨by rw [hnode]; rfl, rfl⟩

theorem op_eq_sync :
    s.op c conn line io = .sync ↔ s.accepts c (.line conn line io) = some conn := by
  unfold accepts
  rw [op, lineOp_sync, Option.ite_none_right_eq_some, and_iff_left rfl]
  rfl

theorem accepts_line {n : ℕ} (h : s.accepts c (.line conn line io) = some n) : n = conn := by
  simp only [accepts, Option.ite_none_right_eq_some] at h
  exact (Option.some.inj h.2).symm

theorem accepts_link {n : ℕ} (h : s.accepts c ev = some n) :
    c.isFollower = true ∧ s.isReplicaLink n = false := by
  cases ev with
  | timer => cases h
  | line conn line io =>
    obtain rfl := accepts_line h
    simp only [accepts, Option.ite_none_right_eq_some] at h
    exact h.1.2

/-- A connection is a replica link after a step exactly if it was one or its handshake is accepted
in it. -/
theorem step_link (h : s.step c ev = some s') (n : ℕ) :
    s'.isReplicaLink n = true ↔ s.isReplicaLink n = true ∨ s.accepts c ev = some n := by
  cases ev with
  | timer node =>
    obtain ⟨-, rfl⟩ := step_timer h
    simp [accepts]
  | line conn line io =>
    obtain ⟨-, rfl⟩ := step_line h
    have hdoes := answer_does (c := c) s conn line io
    by_cases hn : n = conn
    · subst hn
      dsimp only
      rw [Function.update_self, ← op_eq_sync]
      by_cases ho : s.op c n line io = .sync
      · rw [ho] at hdoes
        generalize s.answer c n line io = r at hdoes
        cases hdoes
        exact iff_of_true rfl (.inr ho)
      · rw [hdoes.link ho, or_iff_left ho]
    · dsimp only
      rw [Function.update_of_ne hn, or_iff_left fun ha => hn (accepts_line ha)]

theorem step_raft (h : s.step c ev = some s') : s'.node.raft.isSome = s.node.raft.isSome := by
  cases ev with
  | timer node =>
    obtain ⟨hsome, rfl⟩ := step_timer h
    exact hsome.symm
  | line conn line io =>
    obtain ⟨-, rfl⟩ := step_line h
    exact (answer_does s conn line io).raft_isSome

/-- A write that is made comes from the replica link, off a follower from anyone, and in a cluster
it is the leader that makes it. -/
theorem write_allowed {call : Call} (ho : s.op c conn line io = .call call)
    (hw : call.write.isSome = true) : (c.isFollower = true → s.isReplicaLink conn = true)
      ∧ ∀ node, s.node.raft = some node → node.role = .leader := by
  obtain ⟨href, hasks⟩ := asks_of_lineOp ho
  exact (refusal_of_write (hasks.isWrite hw)).1 href

theorem step_accepts {n : ℕ} (h : s.step c ev = some s') (ha : s.accepts c ev = some n) :
    s'.node.store.toMap = ∅ := by
  cases ev with
  | timer => cases ha
  | line conn line io =>
    obtain rfl := accepts_line ha
    obtain ⟨-, rfl⟩ := step_line h
    have hdoes := answer_does (c := c) s n line io
    rw [op_eq_sync.2 ha] at hdoes
    generalize s.answer c n line io = r at hdoes
    cases hdoes
    exact Storage.toMap_clear _ _

/-- A step that changes the map is a line of a replica link, the handshake, or off a follower. -/
theorem step_map (h : s.step c ev = some s') (hc : c.isFollower = true)
    (hne : s'.node.store.toMap ≠ s.node.store.toMap) : ∃ conn line io, ev = .line conn line io
      ∧ (s.isReplicaLink conn = true ∨ s.accepts c ev = some conn) := by
  cases ev with
  | timer =>
    obtain ⟨-, rfl⟩ := step_timer h
    exact absurd rfl hne
  | line conn line io =>
    obtain ⟨-, rfl⟩ := step_line h
    refine ⟨conn, line, io, rfl, ?_⟩
    rcases ho : s.op c conn line io with _ | _ | _ | _ | _ | _ | call | _ | _
    case sync => exact .inr (op_eq_sync.1 ho)
    case call =>
      rcases hw : call.write.isSome with _ | _
      · exact absurd ((answer_does s conn line io).keeps (by rw [ho]; exact hw)).1 hne
      · exact .inl ((write_allowed ho hw).1 hc)
    all_goals exact absurd ((answer_does s conn line io).keeps (by rw [ho]; rfl)).1 hne

theorem step_calls (h : s.step c ev = some s') (hc : c.isFollower = false) :
    s'.node.store = s.node.store ∨ ∃ call, s'.node.store = (s.node.store.call call).2 := by
  cases ev with
  | timer =>
    obtain ⟨-, rfl⟩ := step_timer h
    exact .inl rfl
  | line conn line io =>
    obtain ⟨-, rfl⟩ := step_line h
    refine (answer_does s conn line io).calls fun ho => ?_
    have hsync := lineOp_sync.1 ho
    exact Bool.false_ne_true (hc.symm.trans hsync.2.1)

/-- A cluster member that does not lead changes nothing of the store and hands nothing on. -/
theorem answer_not_leader {node : RaftNode} (hc : c.isFollower = false)
    (hraft : s.node.raft = some node) (hrole : node.role ≠ .leader) :
    (s.answer c conn line io).store.toMap = s.node.store.toMap
      ∧ (s.answer c conn line io).store.wal = s.node.store.wal
      ∧ (s.answer c conn line io).replicated = [] := by
  refine (answer_does s conn line io).keeps ?_
  rcases ho : s.op c conn line io with _ | _ | _ | _ | _ | _ | call | _ | _
  case sync => exact absurd ((lineOp_sync.1 ho).2.1) (by rw [env, hc]; exact Bool.false_ne_true)
  case call =>
    rcases hw : call.write.isSome with _ | _
    · exact hw
    · exact absurd ((write_allowed ho hw).2 node hraft) hrole
  all_goals rfl

end Step

section Run

/-- The replica links are the connections whose handshakes were accepted. -/
theorem link_iff {n : ℕ} : ∀ {evs : List Event} {s s' : Server}, runActs (step c) s evs = some s' →
    (s'.isReplicaLink n = true ↔ s.isReplicaLink n = true ∨ n ∈ acceptances c s evs)
  | [], s, s', h => by
    obtain rfl := Option.some.inj h
    simp [acceptances]
  | ev :: evs, s, s', h => by
    obtain ⟨s₁, hs, hr⟩ := Option.bind_eq_some_iff.1 h
    rw [link_iff hr, step_link hs, acceptances, hs, List.mem_append, Option.mem_toList, or_assoc]
    rfl

/-- No connection's handshake is accepted twice, or once it is a link. -/
theorem acceptances_nodup : ∀ (evs : List Event) (s : Server), (acceptances c s evs).Nodup
    ∧ ∀ n ∈ acceptances c s evs, s.isReplicaLink n = false
  | [], _ => ⟨List.nodup_nil, fun _ hn => by cases hn⟩
  | ev :: evs, s => by
    have hnow : ∀ n ∈ (s.accepts c ev).toList, s.isReplicaLink n = false := fun n hn =>
      (accepts_link (Option.mem_toList.1 hn)).2
    have hone : (s.accepts c ev).toList.Nodup := by cases s.accepts c ev <;> simp
    rw [acceptances]
    rcases hs : s.step c ev with _ | s₁
    · rw [Option.map_none, Option.getD_none, List.append_nil]
      exact ⟨hone, hnow⟩
    · obtain ⟨hnodup, hlater⟩ := acceptances_nodup evs s₁
      rw [Option.map_some, Option.getD_some]
      constructor
      · refine hone.append hnodup fun n hn hn' => ?_
        have hlink := (step_link hs n).2 (.inr (Option.mem_toList.1 hn))
        exact Bool.false_ne_true ((hlater n hn').symm.trans hlink)
      · intro n hn
        rcases List.mem_append.1 hn with hn | hn
        · exact hnow n hn
        · refine Bool.eq_false_iff.2 fun hlink => ?_
          exact Bool.false_ne_true ((hlater n hn).symm.trans ((step_link hs n).2 (.inl hlink)))

theorem acceptances_of_not_follower (hc : c.isFollower = false) : ∀ (evs : List Event) (s : Server),
    acceptances c s evs = []
  | [], _ => rfl
  | ev :: evs, s => by
    have hnone : s.accepts c ev = none := Option.eq_none_iff_forall_ne_some.2 fun n hn =>
      Bool.false_ne_true (hc.symm.trans (accepts_link hn).1)
    rw [acceptances, hnone]
    rcases s.step c ev with _ | s₁
    · rfl
    · exact acceptances_of_not_follower hc evs s₁

theorem raft_of_run {store : Storage} {boot : RaftNode.Tick} {evs : List Event}
    (h : runActs (step c) (start c store boot) evs = some s) :
    s.node.raft.isSome = !c.raftPeers.isEmpty := by
  refine (reaches_of_runActs h).inv (fun s => s.node.raft.isSome = !c.raftPeers.isEmpty)
    (fun _ _ _ hs hstep => (step_raft hstep).trans hs) ?_
  unfold start
  cases c.raftPeers.isEmpty <;> rfl

theorem not_follower_of_raft (hc : c.conflict = none) (hraft : c.raftPeers.isEmpty = false) :
    c.isFollower = false := by
  by_contra hf
  rw [Bool.not_eq_false] at hf
  simp only [ServerConfig.conflict, hf, hraft, Bool.not_false, Bool.true_or, Bool.and_self,
    if_true] at hc
  split_ifs at hc

/-- After every run of a server started with settings that `main` accepts. The handshakes accepted
are of different connections, and each empties the map. On a follower the map changes by such a
handshake or by a line of a connection that made one before. Off a follower no connection is a
replica link and the store changes by single calls only. A Raft node that does not lead keeps its
map and its log and hands nothing to the replicator. -/
theorem read_only (c : ServerConfig) (hc : c.conflict = none) (store : Storage)
    (boot : RaftNode.Tick) (evs : List Event)
    (h : runActs (step c) (start c store boot) evs = some s) :
    (acceptances c (start c store boot) evs).Nodup
    ∧ ∀ ev s', s.step c ev = some s' →
      (∀ n, s.accepts c ev = some n →
        n ∉ acceptances c (start c store boot) evs ∧ s'.node.store.toMap = ∅)
      ∧ (c.isFollower = true → s'.node.store.toMap ≠ s.node.store.toMap →
        ∃ conn line io, ev = .line conn line io
          ∧ (conn ∈ acceptances c (start c store boot) evs ∨ s.accepts c ev = some conn))
      ∧ (c.isFollower = false → (∀ n, s'.isReplicaLink n = false)
        ∧ (s'.node.store = s.node.store ∨ ∃ call, s'.node.store = (s.node.store.call call).2))
      ∧ ∀ node conn line io, s.node.raft = some node → node.role ≠ .leader →
        ev = .line conn line io → s'.node.store.toMap = s.node.store.toMap
          ∧ s'.node.store.wal = s.node.store.wal ∧ (s.answer c conn line io).replicated = [] := by
  have hlink : ∀ n, s.isReplicaLink n = true ↔ n ∈ acceptances c (start c store boot) evs := by
    intro n
    rw [link_iff h]
    exact or_iff_right Bool.false_ne_true
  refine ⟨(acceptances_nodup evs _).1, fun ev s' hs => ⟨fun n ha => ⟨fun hn => ?_, ?_⟩, ?_, ?_, ?_⟩⟩
  · exact Bool.false_ne_true ((accepts_link ha).2.symm.trans ((hlink n).2 hn))
  · exact step_accepts hs ha
  · intro hf hne
    obtain ⟨conn, line, io, hev, hwho⟩ := step_map hs hf hne
    exact ⟨conn, line, io, hev, hwho.imp_left (hlink conn).1⟩
  · intro hf
    refine ⟨fun n => Bool.eq_false_iff.2 fun hn => ?_, step_calls hs hf⟩
    rcases (step_link hs n).1 hn with hn | ha
    · rw [hlink, acceptances_of_not_follower hf] at hn
      cases hn
    · exact Bool.false_ne_true (hf.symm.trans (accepts_link ha).1)
  · rintro node conn line io hraft hrole rfl
    have hpeers : c.raftPeers.isEmpty = false := by
      have := raft_of_run h
      rw [hraft] at this
      simpa using this.symm
    obtain ⟨-, rfl⟩ := step_line hs
    exact answer_not_leader (not_follower_of_raft hc hpeers) hraft hrole

/-- Nothing of what a line meets matters here. -/
def quietIo : LineIo := ⟨⟨0, 0⟩, true, true, []⟩

/-- A leader's handshake and its first line. -/
def synced : List Event :=
  [.line 0 (ascii "__REPLSYNC__") quietIo, .line 0 (ascii "SET k v") quietIo]

theorem read_only_link :
    let c : ServerConfig := { isFollower := true }
    ∃ s, runActs (step c) (start c (.empty 0) ⟨0, 0⟩) synced = some s
      ∧ ∀ ev s', s.step c ev = some s' → s'.node.store.toMap ≠ s.node.store.toMap →
        ∃ conn line io, ev = .line conn line io ∧ (conn = 0 ∨ s.accepts c ev = some conn) := by
  refine ⟨_, rfl, fun ev s' hs hne => ?_⟩
  obtain ⟨-, hstep⟩ := read_only { isFollower := true } rfl (.empty 0) ⟨0, 0⟩ synced rfl
  obtain ⟨conn, line, io, hev, hwho⟩ := (hstep ev s' hs).2.1 rfl hne
  exact ⟨conn, line, io, hev, hwho.imp_left List.mem_singleton.1⟩

end Run

end Server

end Redon
