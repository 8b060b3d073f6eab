import Redon.Proofs.RaftNet

/-!
# Writes are fenced by terms

A client's write is checked against the role of the node in one section and made in a later one,
when the node may have lost its term. Still it is made for the term in which the node was seen to
lead, and that term was won by this node alone: so no two nodes admit a write in one term, and the
map of a node that never led is the one it started with.
-/

namespace Redon

open Lib RaftNode

/-- A node of a Raft cluster changes its map only by a write that meets it as a leader. -/
theorem answerLine_writes {e : ExecEnv} (he : e.nodeIsFollower = false) (info : Bytes)
    (store : Storage) (node : RaftNode) (link : Bool) (line : Bytes) :
    (Node.answerLine e info ⟨store, some node⟩ link line).store.toMap = store.toMap
      ∨ (ExecState.isWrite (verbAndKey line).1 = true ∧ node.role = .leader) := by
  have hdoes : Does e ⟨store, link, some node⟩ info (Node.lineOp e ⟨store, some node⟩ link line)
      (Node.answerLine e info ⟨store, some node⟩ link line) :=
    answerLine_does ⟨store, some node⟩ link line
  rcases hop : Node.lineOp e ⟨store, some node⟩ link line with _ | _ | _ | _ | _ | _ | call | _ | _
  case sync => exact absurd (lineOp_sync.1 hop).2.1 (by rw [he]; exact Bool.false_ne_true)
  case call =>
    rcases hw : call.write.isSome with _ | _
    · rw [hop] at hdoes
      exact .inl (hdoes.keeps hw).1
    · obtain ⟨href, hasks⟩ := asks_of_lineOp hop
      have hwrite := hasks.isWrite hw
      rw [verbAndKey_eq]
      exact .inr ⟨hwrite, ((refusal_of_write hwrite).1 href).2 node rfl⟩
  all_goals
    rw [hop] at hdoes
    exact .inl (hdoes.keeps rfl).1

namespace Cluster

variable {n : ℕ} {C : Cluster n} {s s' : RaftNet n} {conns : List Conn}

/-- What a step leaves of the record and of the checks made: a write enters the record when a line
is executed that met a leader at its check. -/
structure Logs (s s' : RaftNet n) : Prop where
  checked : ∀ q ∈ s'.checked, q ∈ s.checked ∨ q.seen = s.node q.node
  writes : ∀ w ∈ s'.writes, w ∈ s.writes
    ∨ ∃ q ∈ s.checked, q.seen.role = .leader ∧ w = (q.node, q.seen.currentTerm)
  kept : ∀ w ∈ s.writes, w ∈ s'.writes
  store : ∀ i, (s'.store i).toMap = (s.store i).toMap ∨ ∃ term, (i, term) ∈ s'.writes

theorem Logs.of_eq (hc : s'.checked = s.checked) (hw : s'.writes = s.writes)
    (hs : s'.store = s.store) : Logs s s' :=
  ⟨fun q hq => .inl (hc ▸ hq), fun w hm => .inl (hw ▸ hm), fun w hm => hw ▸ hm,
    fun i => .inl (by rw [hs])⟩

theorem apply_logs {k : ℕ} {io : LineIo} (hs : C.apply s k io = some s') : Logs s s' := by
  unfold Cluster.apply at hs
  split at hs
  · cases hs
  rename_i q hq
  have hmem := List.mem_of_getElem? hq
  obtain rfl := Option.some.inj hs
  refine ⟨fun q' hq' => .inl (List.mem_of_mem_eraseIdx hq'), fun w hw => ?_, fun w hw => ?_,
    fun i => ?_⟩
  · simp only [] at hw
    split_ifs at hw with hlead
    · rcases List.mem_append.1 hw with hw | hw
      · exact .inl hw
      · exact .inr ⟨q, hmem, hlead.2, List.mem_singleton.1 hw⟩
    · exact .inl hw
  · simp only []
    split_ifs
    · exact List.mem_append_left _ hw
    · exact hw
  · simp only []
    by_cases hi : i = q.node
    · subst hi
      rw [Function.update_self]
      -- a write is no request to the Raft node, so the line meets what the check has seen
      rcases answerLine_writes (e := C.env q.node io) rfl (Metrics.infoText io.stats)
        (s.store q.node) _ q.isReplicaLink q.line with hsame | ⟨hwrite, hrole⟩
      · exact .inl hsame
      · have hrpc : ¬ ((verbAndKey q.line).1 = ascii "__RAFT_VOTE__"
            ∨ (verbAndKey q.line).1 = ascii "__RAFT_APPEND__") := by
          rintro (hv | hv) <;> rw [hv] at hwrite <;> exact absurd hwrite (by decide)
        rw [if_neg hrpc] at hrole
        refine .inr ⟨q.seen.currentTerm, ?_⟩
        rw [if_pos ⟨hwrite, hrole⟩]
        exact List.mem_append_right _ (List.mem_singleton.2 rfl)
    · rw [Function.update_of_ne hi]
      exact .inl rfl

theorem Sim.logs (hC : C.Addressed) (h : C.Sim s conns) {a : RaftNet.Action n}
    (hs : C.netStep s a = some s') : Logs s s' := by
  cases a with
  | receive c k =>
    obtain ⟨x, -, hs⟩ := Option.bind_eq_some_iff.1 hs
    obtain ⟨y, -, rfl⟩ := Option.map_eq_some_iff.1 hs
    exact .of_eq rfl rfl rfl
  | execute c io =>
    obtain ⟨i, j, kind, term, -, -, rfl⟩ := h.executed hC hs
    exact .of_eq rfl rfl rfl
  | hangup c =>
    obtain ⟨x, -, rfl⟩ := Option.map_eq_some_iff.1 hs
    exact .of_eq rfl rfl rfl
  | check j link line =>
    obtain rfl := Option.some.inj hs
    refine ⟨fun q hq => ?_, fun w hw => .inl hw, fun w hw => hw, fun i => .inl rfl⟩
    rcases List.mem_append.1 hq with hq | hq
    · exact .inl hq
    · obtain rfl := List.mem_singleton.1 hq
      exact .inr rfl
  | apply k io => exact apply_logs hs
  | call i dialled =>
    simp only [netStep] at hs
    split at hs
    · obtain ⟨_, -, rfl⟩ := Option.map_eq_some_iff.1 hs
      exact .of_eq rfl rfl rfl
    · obtain ⟨_, -, rfl⟩ := Option.map_eq_some_iff.1 hs
      exact .of_eq rfl rfl rfl
    · obtain rfl := Option.some.inj hs
      exact .of_eq rfl rfl rfl
    · obtain rfl := Option.some.inj hs
      exact .of_eq rfl rfl rfl
    · cases hs
  | _ =>
    simp only [netStep] at hs
    repeat' split at hs
    all_goals cases hs <;> exact .of_eq rfl rfl rfl

/-- Who was seen to lead, and who has written, was elected in that term. -/
structure Fenced (C : Cluster n) (G : Votes n) (s : RaftNet n) : Prop where
  votes : ∃ conns, C.Sim s conns ∧ C.Inv G (abs s conns)
  checked : ∀ q ∈ s.checked, q.seen.role = .leader →
    Elected G q.seen.currentTerm (C.selfId q.node)
  writes : ∀ w ∈ s.writes, Elected G w.2 (C.selfId w.1)

theorem Fenced.step (hC : C.Addressed) {G : Votes n} (h : C.Fenced G s) {a : RaftNet.Action n}
    (hs : guarded inRange C.netStep s a = some s') : ∃ G', G ⊆ G' ∧ C.Fenced G' s' := by
  obtain ⟨conns, hsim, hinv⟩ := h.votes
  obtain ⟨conns', hr, hsim'⟩ := hsim.step hC hs
  obtain ⟨G', hsub, hinv'⟩ := hr.ghost C.Inv (fun _ _ _ _ h => h.step) hinv
  have hlogs := hsim.logs hC (guarded_eq_some.1 hs).2
  refine ⟨G', hsub, ⟨conns', hsim', hinv'⟩, fun q hq hrole => ?_, fun w hw => ?_⟩
  · rcases hlogs.checked q hq with hq | hseen
    · exact (h.checked q hq hrole).mono hsub
    · rw [hseen] at hrole ⊢
      exact (hinv.leads q.node hrole).mono hsub
  · rcases hlogs.writes w hw with hw | ⟨q, hq, hrole, rfl⟩
    · exact (h.writes w hw).mono hsub
    · exact (h.checked q hq hrole).mono hsub

section Run

variable {store : Fin n → Storage} {boot : Fin n → Tick}

end Run

end Cluster

end Redon
