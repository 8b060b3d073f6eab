import Redon.Proofs.Election

/-!
# Agreement on the leader

In a cluster whose nodes get requests from each other only, a heartbeat carries the term and the
name of a node that won that term. A node names a leader when it takes a heartbeat of its own term
or wins, and forgets it whenever its term changes, so it names the winner of its current term. The
winners so far are a history that only a won election extends (`Named`).
-/

namespace Redon

open Lib RaftNode

namespace RaftNode

variable {c : Config} {s s' : RaftNode} {term : ℤ} {id : Bytes} {t : Tick}

/-- The leader is forgotten, or neither it nor the term changes; who leads has led. -/
structure Holds (s s' : RaftNode) : Prop where
  leader : s'.leaderId = [] ∨ (s'.leaderId = s.leaderId ∧ s'.currentTerm = s.currentTerm)
  role : s'.role = .leader → s.role = .leader ∧ s'.leaderId = s.leaderId

theorem Holds.refl (s : RaftNode) : Holds s s := ⟨.inr ⟨rfl, rfl⟩, fun h => ⟨h, rfl⟩⟩

theorem becomeFollower_holds : Holds s (becomeFollowerLocked c s term t) :=
  ⟨.inl rfl, fun h => by cases h⟩

theorem handleRequestVote_holds : Holds s (handleRequestVote c s term id t).2 := by
  unfold handleRequestVote
  by_cases hlt : s.currentTerm < term
  · simp only [if_pos hlt]
    split_ifs
    · exact ⟨.inl rfl, fun h => by cases h⟩
    · exact becomeFollower_holds
  · simp only [if_neg hlt]
    split_ifs
    · exact ⟨.inr ⟨rfl, rfl⟩, fun h => ⟨h, rfl⟩⟩
    · exact .refl s

/-- A heartbeat is refused, or the node takes over its term and its sender. -/
theorem handleAppendEntries_cases (c : Config) (s : RaftNode) (term : ℤ) (id : Bytes) (t : Tick) :
    (handleAppendEntries c s term id t).2 = s ∨
    ((handleAppendEntries c s term id t).2.leaderId = id
      ∧ (handleAppendEntries c s term id t).2.currentTerm = term
      ∧ (handleAppendEntries c s term id t).2.role = .follower) := by
  unfold handleAppendEntries
  split_ifs with hle hlt
  · exact .inr ⟨rfl, rfl, rfl⟩
  · exact .inr ⟨rfl, le_antisymm hle (not_lt.1 hlt), rfl⟩
  · exact .inl rfl

theorem tick_holds (now : ℕ) : Holds s (RaftNode.tick c s now).2 := by
  unfold RaftNode.tick
  split_ifs <;> exact ⟨.inr ⟨rfl, rfl⟩, fun h => ⟨h, rfl⟩⟩

theorem beginElection_holds : Holds s (beginElection c s t) := ⟨.inl rfl, fun h => by cases h⟩

theorem beginHeartbeats_holds (now : ℕ) : Holds s (beginHeartbeats s now).2 := by
  unfold beginHeartbeats
  split_ifs <;> exact ⟨.inr ⟨rfl, rfl⟩, fun h => ⟨h, rfl⟩⟩

theorem beginHeartbeats_leads {now : ℕ} {node : RaftNode}
    (h : beginHeartbeats s now = (some term, node)) : s.role = .leader ∧ s.currentTerm = term := by
  unfold beginHeartbeats at h
  split_ifs at h with hr
  · cases h
  · exact ⟨not_not.1 hr, Option.some.inj (Prod.mk.inj h).1⟩

theorem heardHeartbeat_holds (c : Config) (s : RaftNode) (term replyTerm : ℤ) (t : Tick) :
    Holds s (heardHeartbeat c s term replyTerm t).2 := by
  unfold heardHeartbeat
  split_ifs
  · exact .refl s
  · exact becomeFollower_holds
  · exact .refl s

/-- A reply leaves the leader alone, unless it wins the election. -/
theorem countVote_holds (c : Config) (s : RaftNode) (term : ℤ) (votes : ℕ) (reply : ℤ × Bool)
    (t : Tick) :
    ((countVote c s term votes reply t).1 ≠ .won ∧ Holds s (countVote c s term votes reply t).2) ∨
    countVote c s term votes reply t = (.won, { s with
      role := .leader, leaderId := c.selfId, lastHeartbeatSent := 0 }) := by
  unfold countVote
  split_ifs
  · exact .inl ⟨nofun, .refl s⟩
  · exact .inl ⟨nofun, becomeFollower_holds⟩
  · exact .inr rfl
  · exact .inl ⟨nofun, .refl s⟩
  · exact .inl ⟨nofun, .refl s⟩

end RaftNode

namespace Cluster

variable {n : ℕ} {C : Cluster n}

/-- Who won which term. -/
abbrev Winners (n : ℕ) := Set (ℤ × Fin n)

section Invariant

variable {W W' : Winners n} {s s' : State n} {i : Fin n}

/-- The thread sends heartbeats of a term its node won, to other nodes. -/
def BeatsOk (C : Cluster n) (W : Winners n) (i : Fin n) : Thread → Prop
  | .beating term rest => (term, i) ∈ W ∧ C.selfId i ∉ rest
  | .awaitAppend _ term rest => (term, i) ∈ W ∧ C.selfId i ∉ rest
  | _ => True

structure Named (C : Cluster n) (W : Winners n) (s : State n) : Prop where
  leader : ∀ i, (s.node i).leaderId ≠ [] →
    ∃ j, C.selfId j = (s.node i).leaderId ∧ ((s.node i).currentTerm, j) ∈ W
  self : ∀ i, (s.node i).role = .leader → (s.node i).leaderId = C.selfId i
  conns : ∀ k ∈ s.conns, k.kind = .append → k.peer ≠ k.id ∧ ∃ j, C.selfId j = k.id ∧ (k.term, j) ∈ W
  threads : ∀ i, C.BeatsOk W i (s.thread i)

theorem Named.mono (h : C.Named W s) (hW : W ⊆ W') : C.Named W' s := by
  refine ⟨fun i hi => ?_, h.self, fun k hk ha => ?_, fun i => ?_⟩
  · obtain ⟨j, hj, hw⟩ := h.leader i hi
    exact ⟨j, hj, hW hw⟩
  · obtain ⟨hne, j, hj, hw⟩ := h.conns k hk ha
    exact ⟨hne, j, hj, hW hw⟩
  · have hi := h.threads i
    cases hth : s.thread i with
    | beating term rest =>
      rw [hth] at hi
      exact ⟨hW hi.1, hi.2⟩
    | awaitAppend c term rest =>
      rw [hth] at hi
      exact ⟨hW hi.1, hi.2⟩
    | _ => trivial

/-- A node that leads has won its term. -/
theorem Named.won (h : C.Named W s) (hi : (s.node i).role = .leader) :
    ((s.node i).currentTerm, i) ∈ W := by
  have hself := h.self i hi
  obtain ⟨j, hj, hw⟩ := h.leader i (by rw [hself]; exact C.selfId_ne_nil i)
  rw [hself] at hj
  rwa [C.selfId_injective hj] at hw

theorem Named.setNode (h : C.Named W s) (i : Fin n) (node : RaftNode)
    (hl : node.leaderId ≠ [] → ∃ j, C.selfId j = node.leaderId ∧ (node.currentTerm, j) ∈ W)
    (hr : node.role = .leader → node.leaderId = C.selfId i) :
    C.Named W { s with node := Function.update s.node i node } := by
  refine ⟨fun j hj => ?_, fun j hj => ?_, h.conns, h.threads⟩
  · by_cases hji : j = i
    · subst hji
      simp only [Function.update_self] at hj ⊢
      exact hl hj
    · simp only [Function.update_of_ne hji] at hj ⊢
      exact h.leader j hj
  · by_cases hji : j = i
    · subst hji
      simp only [Function.update_self] at hj ⊢
      exact hr hj
    · simp only [Function.update_of_ne hji] at hj ⊢
      exact h.self j hj

theorem Named.hold (h : C.Named W s) {node : RaftNode} (hh : Holds (s.node i) node) :
    C.Named W { s with node := Function.update s.node i node } := by
  refine h.setNode i node (fun hne => ?_) fun hr => ?_
  · obtain ⟨hl, ht⟩ := hh.leader.resolve_left hne
    rw [hl] at hne ⊢
    rw [ht]
    exact h.leader i hne
  · obtain ⟨hrole, hl⟩ := hh.role hr
    rw [hl]
    exact h.self i hrole

theorem Named.setThread (h : C.Named W s) {t : Thread} (ht : C.BeatsOk W i t) :
    C.Named W { s with thread := Function.update s.thread i t } := by
  refine ⟨h.leader, h.self, h.conns, fun j => ?_⟩
  by_cases hji : j = i
  · subst hji
    simp only [Function.update_self]
    exact ht
  · simp only [Function.update_of_ne hji]
    exact h.threads j

theorem Named.move (h : C.Named W s) {node : RaftNode} {th : Thread} (hh : Holds (s.node i) node)
    (ht : C.BeatsOk W i th) : C.Named W (s.set i node th) :=
  (h.hold hh).setThread ht

theorem Named.open (h : C.Named W s) {k : Conn}
    (hk : k.kind = .append → k.peer ≠ k.id ∧ ∃ j, C.selfId j = k.id ∧ (k.term, j) ∈ W) :
    C.Named W { s with conns := s.conns ++ [k] } := by
  refine ⟨h.leader, h.self, fun k' hk' => ?_, h.threads⟩
  rcases List.mem_append.1 hk' with hk' | hk'
  · exact h.conns k' hk'
  · rw [List.mem_singleton.1 hk']
    exact hk

theorem Named.reply (h : C.Named W s) {c : ℕ} {k : Conn} (hc : s.conns[c]? = some k)
    (r : Option (ℤ × Bool)) :
    C.Named W { s with conns := s.conns.set c { k with reply := r } } := by
  refine ⟨h.leader, h.self, fun k' hk' => ?_, h.threads⟩
  rcases List.mem_or_eq_of_mem_set hk' with hk' | rfl
  · exact h.conns k' hk'
  · exact h.conns k (List.mem_of_getElem? hc)

/-- Serving a request of another node. -/
theorem Named.handled (h : C.Named W s) {k : Conn} (hk : k ∈ s.conns) (j : Fin n) (t : Tick) :
    C.Named W (s.set j (C.handle k.kind j (s.node j) k.term k.id t).2 (s.thread j)) := by
  have hth := h.threads j
  rcases hkind : k.kind with _ | _
  · exact h.move handleRequestVote_holds hth
  · rcases handleAppendEntries_cases (C.config j) (s.node j) k.term k.id t with he | ⟨hl, ht, hr⟩
    · exact h.move (show Holds _ (handleAppendEntries ..).2 from he.symm ▸ .refl _) hth
    · refine (h.setNode j _ (fun _ => ?_) fun hlead => ?_).setThread hth
      · obtain ⟨-, j', hj', hw⟩ := h.conns k hk hkind
        exact ⟨j', hj'.trans hl.symm, ht.symm ▸ hw⟩
      · rw [show (C.handle .append j (s.node j) k.term k.id t).2.role = .follower from hr] at hlead
        cases hlead

theorem Named.takeVote (h : C.Named W s) {term : ℤ} {votes : ℕ} {rest : List Bytes}
    {reply : ℤ × Bool} {t : Tick}
    (hs : (match countVote (C.config i) (s.node i) term votes reply t with
        | (.superseded, node) => some (s.set i node .idle)
        | (.won, node) => some (s.set i node .heartbeatDue)
        | (.votes votes, node) => some (s.set i node (.asking term votes rest))) = some s') :
    C.Named W s' ∨ ((s'.node i).role = .leader
      ∧ C.Named (insert ((s'.node i).currentTerm, i) W) s') := by
  rcases countVote_holds (C.config i) (s.node i) term votes reply t with ⟨hnw, hh⟩ | hc
  · refine .inl ?_
    split at hs
    · rename_i heq
      rw [heq] at hh
      obtain rfl := Option.some.inj hs
      exact h.move hh trivial
    · rename_i heq
      rw [heq] at hnw
      exact absurd rfl hnw
    · rename_i heq
      rw [heq] at hh
      obtain rfl := Option.some.inj hs
      exact h.move hh trivial
  · rw [hc] at hs
    obtain rfl := Option.some.inj hs
    have hnode : (s.set i { s.node i with
        role := .leader, leaderId := (C.config i).selfId, lastHeartbeatSent := 0 }
        .heartbeatDue).node i = { s.node i with
        role := .leader, leaderId := (C.config i).selfId, lastHeartbeatSent := 0 } :=
      Function.update_self ..
    rw [hnode]
    refine .inr ⟨rfl, ((h.mono (Set.subset_insert _ _)).setNode i _ (fun _ => ?_)
      fun _ => rfl).setThread trivial⟩
    exact ⟨i, rfl, Set.mem_insert _ _⟩

/-- A step wins at most one election, and its winner leads right then. -/
theorem Named.step (h : C.Named W s) {a : Action n} (hs : C.closedStep s a = some s') :
    C.Named W s' ∨ ∃ i, (s'.node i).role = .leader
      ∧ C.Named (insert ((s'.node i).currentTerm, i) W) s' := by
  cases a with
  | tick i now =>
    refine .inl ?_
    have hh := tick_holds (c := C.config i) (s := s.node i) now
    simp only [closedStep, Cluster.step] at hs
    split at hs
    all_goals first
      | (rename_i heq; rw [heq] at hh; obtain rfl := Option.some.inj hs; exact h.move hh trivial)
      | cases hs
  | startElection i t =>
    refine .inl ?_
    simp only [closedStep, Cluster.step] at hs
    split at hs
    · obtain rfl := Option.some.inj hs
      exact h.move beginElection_holds trivial
    · cases hs
  | startHeartbeats i now =>
    refine .inl ?_
    have hh := beginHeartbeats_holds (s := s.node i) now
    simp only [closedStep, Cluster.step] at hs
    split at hs
    · rename_i heq
      rw [heq] at hh
      obtain rfl := Option.some.inj hs
      exact h.move hh trivial
    · rename_i term node hth heq
      rw [heq] at hh
      obtain rfl := Option.some.inj hs
      obtain ⟨hlead, rfl⟩ := beginHeartbeats_leads heq
      refine h.move hh ⟨h.won hlead, fun hp => ?_⟩
      obtain ⟨j, hne, hj⟩ := (C.mem_peers i _).1 hp
      exact hne (C.selfId_injective hj)
    · cases hs
  | nextPeer i =>
    refine .inl ?_
    have hthr := h.threads i
    simp only [closedStep, Cluster.step] at hs
    split at hs
    · rename_i term votes p rest hth
      obtain rfl := Option.some.inj hs
      have ho := h.open (k := ⟨.vote, p, term, C.selfId i, none⟩) fun hk => by cases hk
      exact ho.move (.refl _) trivial
    · rename_i term p rest hth
      rw [hth] at hthr
      obtain ⟨hw, hp⟩ := hthr
      rw [List.mem_cons, not_or] at hp
      obtain rfl := Option.some.inj hs
      have ho := h.open (k := ⟨.append, p, term, C.selfId i, none⟩)
        fun _ => ⟨Ne.symm hp.1, i, rfl, hw⟩
      exact ho.move (.refl _) ⟨hw, hp.2⟩
    · obtain rfl := Option.some.inj hs
      exact h.move (.refl _) trivial
    · obtain rfl := Option.some.inj hs
      exact h.move (.refl _) trivial
    · cases hs
  | giveUp i =>
    refine .inl ?_
    have hthr := h.threads i
    simp only [closedStep, Cluster.step] at hs
    split at hs
    · obtain rfl := Option.some.inj hs
      exact h.move (.refl _) trivial
    · rename_i c term rest hth
      rw [hth] at hthr
      obtain rfl := Option.some.inj hs
      exact h.move (.refl _) hthr
    · cases hs
  | takeReply i t =>
    have hthr := h.threads i
    simp only [closedStep, Cluster.step] at hs
    split at hs
    · rename_i c p term votes rest hth
      rcases hr : (s.conns[c]?).bind Conn.reply with _ | reply <;> rw [hr] at hs
      · cases hs
      · exact (h.takeVote hs).imp id fun hw => ⟨i, hw⟩
    · refine .inl ?_
      rename_i c term rest hth
      rw [hth] at hthr
      rcases hr : (s.conns[c]?).bind Conn.reply with _ | reply <;> rw [hr] at hs
      · cases hs
      · have hh := heardHeartbeat_holds (C.config i) (s.node i) term reply.1 t
        simp only [] at hs
        split at hs <;> rename_i heq <;> rw [heq] at hh <;> obtain rfl := Option.some.inj hs
        · exact h.move hh hthr
        · exact h.move hh trivial
    · cases hs
  | serve c j t =>
    refine .inl ?_
    simp only [closedStep, Cluster.step] at hs
    split at hs
    · cases hs
    · rename_i k hc
      split_ifs at hs with hcond
      obtain rfl := Option.some.inj hs
      exact (h.handled (List.mem_of_getElem? hc) j t).reply hc _
  | inject j kind term id t => cases hs

end Invariant

theorem step_of_closedStep {s s' : State n} {a : Action n} (h : C.closedStep s a = some s') :
    C.step s a = some s' := by
  cases a <;> first | exact h | cases h

/-- Node `j` led `term` at some moment of a run that ends in `s`. -/
def Led (C : Cluster n) (boot : Fin n → Tick) (s : State n) (term : ℤ) (j : Fin n) : Prop :=
  ∃ s₀, Reaches C.closedStep (C.init boot) s₀ ∧ Reaches C.closedStep s₀ s
    ∧ (s₀.node j).role = .leader ∧ (s₀.node j).currentTerm = term

/-- The winners were elected and have led. -/
theorem named_reaches {boot : Fin n → Tick} {s : State n}
    (hs : Reaches C.closedStep (C.init boot) s) :
    ∃ (G : Votes n) (W : Winners n), C.Inv G s ∧ C.Named W s
      ∧ ∀ p ∈ W, Elected G p.1 (C.selfId p.2) ∧ C.Led boot s p.1 p.2 := by
  induction hs with
  | refl =>
    exact ⟨∅, ∅, C.inv_init boot, ⟨fun i hi => absurd rfl hi, nofun, nofun, fun i => trivial⟩,
      fun p hp => hp.elim⟩
  | @tail s₁ s₂ hr hstep ih =>
    obtain ⟨a, ha⟩ := hstep
    obtain ⟨G, W, hG, hW, hall⟩ := ih
    obtain ⟨G', hsub, hG'⟩ := hG.step (step_of_closedStep ha)
    have hold : ∀ p ∈ W, Elected G' p.1 (C.selfId p.2) ∧ C.Led boot s₂ p.1 p.2 := by
      intro p hp
      obtain ⟨he, s₀, h₀, h₁, hlead⟩ := hall p hp
      exact ⟨he.mono hsub, s₀, h₀, h₁.tail ⟨a, ha⟩, hlead⟩
    rcases hW.step ha with hW' | ⟨i, hi, hW'⟩
    · exact ⟨G', W, hG', hW', hold⟩
    · refine ⟨G', _, hG', hW', fun p hp => ?_⟩
      rcases hp with rfl | hp
      · exact ⟨hG'.leads i hi, _, hr.tail ⟨a, ha⟩, .refl, hi, rfl⟩
      · exact hold p hp

/-- In every reachable state the leader a node names has led the node's current term. So two nodes
of one term name the same leader, a leader names itself, and no heartbeat of its own term is on its
way to a leader. -/
theorem leader_agreed {boot : Fin n → Tick} {s : State n}
    (hs : Reaches C.closedStep (C.init boot) s) :
    (∀ i, (s.node i).leaderId ≠ [] →
      ∃ j, C.selfId j = (s.node i).leaderId ∧ C.Led boot s (s.node i).currentTerm j)
    ∧ (∀ i j, (s.node i).currentTerm = (s.node j).currentTerm → (s.node i).leaderId ≠ [] →
      (s.node j).leaderId ≠ [] → (s.node i).leaderId = (s.node j).leaderId)
    ∧ (∀ i, (s.node i).role = .leader → (s.node i).leaderId = C.selfId i)
    ∧ ∀ i, (s.node i).role = .leader → ∀ k ∈ s.conns, k.kind = .append → k.peer = C.selfId i →
      k.term ≠ (s.node i).currentTerm := by
  obtain ⟨G, W, hG, hW, hall⟩ := named_reaches hs
  have hunique : ∀ {term j j'}, (term, j) ∈ W → (term, j') ∈ W → C.selfId j = C.selfId j' :=
    fun hj hj' => elected_unique hG.once (hall _ hj).1 (hall _ hj').1
  refine ⟨fun i hi => ?_, fun i j ht hi hj => ?_, hW.self, fun i hi k hk hkind hpeer hterm => ?_⟩
  · obtain ⟨j, hj, hw⟩ := hW.leader i hi
    exact ⟨j, hj, (hall _ hw).2⟩
  · obtain ⟨i', hi', hwi⟩ := hW.leader i hi
    obtain ⟨j', hj', hwj⟩ := hW.leader j hj
    rw [← hi', ← hj']
    exact hunique (ht ▸ hwi) hwj
  · obtain ⟨hne, j, hj, hw⟩ := hW.conns k hk hkind
    rw [hterm] at hw
    exact hne (by rw [hpeer, ← hj, hunique hw (hW.won hi)])

/-- The first node wins term 1 and its heartbeat reaches the third, which then names it. -/
theorem leader_agreed_trio : ∃ s, Reaches trio.closedStep (trio.init fun _ => ⟨0, 0⟩) s
    ∧ (s.node 2).leaderId = ascii "n:1"
    ∧ ∃ j, trio.selfId j = ascii "n:1"
      ∧ trio.Led (fun _ => ⟨0, 0⟩) s (s.node 2).currentTerm j := by
  obtain ⟨s, hs, hl⟩ := exists_reaches trio.closedStep (trio.init fun _ => ⟨0, 0⟩)
    [.tick 0 400, .startElection 0 ⟨400, 0⟩, .nextPeer 0, .serve 0 1 ⟨400, 0⟩,
      .takeReply 0 ⟨400, 0⟩, .startHeartbeats 0 401, .nextPeer 0, .giveUp 0, .nextPeer 0,
      .serve 2 2 ⟨402, 0⟩] (fun s => (s.node 2).leaderId = ascii "n:1") (by decide)
  obtain ⟨j, hj, hled⟩ := (leader_agreed hs).1 2 (by rw [hl]; decide)
  exact ⟨s, hs, hl, j, hj.trans hl, hled⟩

end Cluster

end Redon
