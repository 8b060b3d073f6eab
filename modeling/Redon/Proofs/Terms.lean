import Redon.Proofs.Election
import Redon.Proofs.Tokens
import Redon.RaftServer

/-!
# Terms only go up, up to the end of their range

Every step of a node but the start of an election is one locked section (`step_section`). Such a
section leaves the term alone or raises it to one that was read from a text, so it stays in the
range of a `long` (`Rises`). Starting an election adds one to it, and that goes down exactly from
the largest `long`, which any client can make the term.
-/

namespace Redon

open Lib RaftNode

namespace RaftNode

variable {c : Config} {s s' : RaftNode} {term : ℤ} {t : Tick}

/-- The term does not fall, and stays a `long`. -/
def Rises (s s' : RaftNode) : Prop :=
  s.currentTerm ≤ s'.currentTerm ∧ (InLong s.currentTerm → InLong s'.currentTerm)

theorem rises_of_eq (h : s'.currentTerm = s.currentTerm) : Rises s s' :=
  ⟨h.ge, fun hs => h ▸ hs⟩

theorem rises_of_max (ht : InLong term) (h : s'.currentTerm = max s.currentTerm term) :
    Rises s s' := by
  refine ⟨h ▸ le_max_left _ _, fun hs => ?_⟩
  rcases max_choice s.currentTerm term with hm | hm <;> rw [h, hm]
  · exact hs
  · exact ht

theorem handleRequestVote_term (id : Bytes) :
    (handleRequestVote c s term id t).2.currentTerm = max s.currentTerm term := by
  unfold handleRequestVote
  by_cases hlt : s.currentTerm < term
  · rw [max_eq_right hlt.le]
    simp only [if_pos hlt]
    split_ifs <;> rfl
  · rw [max_eq_left (not_lt.1 hlt)]
    simp only [if_neg hlt]
    split_ifs <;> rfl

theorem handleAppendEntries_term (id : Bytes) :
    (handleAppendEntries c s term id t).2.currentTerm = max s.currentTerm term := by
  unfold handleAppendEntries
  split_ifs with hle hlt
  · exact (max_eq_right hle).symm
  · exact (max_eq_left (not_lt.1 hlt)).symm
  · exact (max_eq_left (not_le.1 hle).le).symm

theorem becomeFollower_rises (ht : InLong term) (h : s.currentTerm < term) :
    Rises s (becomeFollowerLocked c s term t) :=
  rises_of_max ht (max_eq_right h.le).symm

/-- What a locked section other than the start of an election makes of the node. The terms it is
given were read from a text. -/
inductive Section (c : Config) (s : RaftNode) : RaftNode → Prop
  | same : Section c s s
  | vote {term : ℤ} (h : InLong term) (id : Bytes) (t : Tick) :
    Section c s (handleRequestVote c s term id t).2
  | append {term : ℤ} (h : InLong term) (id : Bytes) (t : Tick) :
    Section c s (handleAppendEntries c s term id t).2
  | tick (now : ℕ) : Section c s (RaftNode.tick c s now).2
  | count (term : ℤ) (votes : ℕ) {replyTerm : ℤ} (h : InLong replyTerm) (granted : Bool)
    (t : Tick) : Section c s (countVote c s term votes (replyTerm, granted) t).2
  | beat (now : ℕ) : Section c s (beginHeartbeats s now).2
  | heard (term : ℤ) {replyTerm : ℤ} (h : InLong replyTerm) (t : Tick) :
    Section c s (heardHeartbeat c s term replyTerm t).2

theorem Section.rises (h : Section c s s') : Rises s s' := by
  cases h with
  | same => exact rises_of_eq rfl
  | vote h id t => exact rises_of_max h (handleRequestVote_term id)
  | append h id t => exact rises_of_max h (handleAppendEntries_term id)
  | tick now =>
    unfold RaftNode.tick
    split_ifs <;> exact rises_of_eq rfl
  | count term votes h granted t =>
    unfold countVote
    split_ifs with h1 h2
    · exact rises_of_eq rfl
    · exact becomeFollower_rises h h2
    · exact rises_of_eq rfl
    · exact rises_of_eq rfl
    · exact rises_of_eq rfl
  | beat now =>
    unfold beginHeartbeats
    split_ifs <;> exact rises_of_eq rfl
  | heard term h t =>
    unfold heardHeartbeat
    split_ifs with h1 h2
    · exact rises_of_eq rfl
    · exact becomeFollower_rises h h2
    · exact rises_of_eq rfl

end RaftNode

section Line

variable {e : ExecEnv} {x : ExecState} {node : RaftNode}

theorem executeVerb_raft (verb key rest : Bytes) : (x.executeVerb verb key rest).raft = x.raft := by
  unfold ExecState.executeVerb ExecState.executeSet ExecState.executeGet ExecState.executeDel
    ExecState.executeExists ExecState.executePing ExecState.executeQuit
  split_ifs <;> rfl

/-- Whatever the line, the node is left as it was or has answered a peer's request. -/
inductive Served (e : ExecEnv) (node : RaftNode) (line : Bytes) (r : Executed) : Prop
  | none (hr : r.raft = some node) (hreply : (lineTokens line).1 = ascii "__RAFT_VOTE__"
      ∨ (lineTokens line).1 = ascii "__RAFT_APPEND__" → r.reply = ascii "ERR malformed Raft RPC")
  | vote {term : ℤ} (hv : (lineTokens line).1 = ascii "__RAFT_VOTE__")
    (ht : stol (lineTokens line).2.1 = some term)
    (hr : r.raft
      = some (node.handleRequestVote e.raftConfig term (lineTokens line).2.2 e.tick).2)
    (hreply : r.reply = ExecState.raftReply (ascii "__VOTE__ ")
      (node.handleRequestVote e.raftConfig term (lineTokens line).2.2 e.tick).1)
  | append {term : ℤ} (hv : (lineTokens line).1 = ascii "__RAFT_APPEND__")
    (ht : stol (lineTokens line).2.1 = some term)
    (hr : r.raft
      = some (node.handleAppendEntries e.raftConfig term (lineTokens line).2.2 e.tick).2)
    (hreply : r.reply = ExecState.raftReply (ascii "__APPENDED__ ")
      (node.handleAppendEntries e.raftConfig term (lineTokens line).2.2 e.tick).1)

theorem executeRaft_served (h : x.raft = some node) {line : Bytes}
    (hv : (lineTokens line).1 = ascii "__RAFT_VOTE__"
      ∨ (lineTokens line).1 = ascii "__RAFT_APPEND__") : Served e node line
        (x.executeRaft e (lineTokens line).1 (lineTokens line).2.1 (lineTokens line).2.2) := by
  unfold ExecState.executeRaft
  simp only [h]
  split
  · exact .none h fun _ => rfl
  · rename_i term hterm
    split_ifs with hvote
    · exact .vote hvote hterm rfl rfl
    · exact .append (hv.resolve_left hvote) hterm rfl rfl

theorem executeLine_served (h : x.raft = some node) (line : Bytes) :
    Served e node line (x.executeLine e line) := by
  rw [executeLine_eq]
  split_ifs with htrim
  · refine .none h fun hv => ?_
    have hnil : (lineTokens line).1 = [] := by
      rw [lineTokens, List.isEmpty_iff.1 htrim]
      rfl
    rw [hnil] at hv
    exact absurd hv (by decide)
  · unfold ExecState.executeTokens
    split_ifs with hsync hraft hrole
    · refine .none ?_ fun hv => ?_
      · unfold ExecState.executeReplSync
        split_ifs <;> exact h
      · rw [hsync] at hv
        exact absurd hv (by decide)
    · exact executeRaft_served h hraft
    · exact .none h fun hv => absurd hv hraft
    · refine .none ?_ fun hv => absurd hv hraft
      split
      · exact h
      · exact (executeVerb_raft _ _ _).trans h

theorem Served.section {line : Bytes} {r : Executed} (h : Served e node line r) :
    ∃ node', r.raft = some node' ∧ Section e.raftConfig node node' := by
  cases h with
  | none hr _ => exact ⟨_, hr, .same⟩
  | vote _ ht hr _ => exact ⟨_, hr, .vote (inLong_of_stol ht) _ _⟩
  | append _ ht hr _ => exact ⟨_, hr, .append (inLong_of_stol ht) _ _⟩

end Line

namespace RaftServer

variable {e : ExecEnv} {s s' : State} {a : Action}

theorem step_section (ha : a.isElection = false) (h : step e s a = some s') :
    Section e.raftConfig s.node s'.node := by
  cases a with
  | line isReplicaLink line t =>
    obtain ⟨node, hnode, hr⟩ := (executeLine_served (e := { e with tick := t })
      (x := ⟨s.store, isReplicaLink, some s.node⟩) rfl line).section
    simp only [step, hnode, Option.map_some, Option.some.injEq] at h
    rw [← h]
    exact hr
  | tick now =>
    have hr := Section.tick (c := e.raftConfig) (s := s.node) now
    simp only [step] at h
    split at h
    · rename_i heq
      rw [heq] at hr
      obtain rfl := Option.some.inj h
      exact hr
    · rename_i heq
      rw [heq] at hr
      obtain rfl := Option.some.inj h
      exact hr
    · rename_i heq
      rw [heq] at hr
      obtain rfl := Option.some.inj h
      exact hr
    · cases h
  | startElection t => cases ha
  | takeVote term granted t =>
    simp only [step] at h
    split at h
    · rename_i electionTerm votes replyTerm htimer hterm
      have hr := Section.count (c := e.raftConfig) (s := s.node) electionTerm votes
        (inLong_of_stol hterm) granted t
      split at h <;> rename_i heq <;> rw [heq] at hr <;> obtain rfl := Option.some.inj h <;>
        exact hr
    · cases h
  | startHeartbeats now =>
    have hr := Section.beat (c := e.raftConfig) (s := s.node) now
    simp only [step] at h
    split at h
    · rename_i heq
      rw [heq] at hr
      obtain rfl := Option.some.inj h
      exact hr
    · rename_i heq
      rw [heq] at hr
      obtain rfl := Option.some.inj h
      exact hr
    · cases h
  | takeAppended term t =>
    simp only [step] at h
    split at h
    · rename_i beatTerm replyTerm htimer hterm
      have hr := Section.heard (c := e.raftConfig) (s := s.node) beatTerm
        (inLong_of_stol hterm) t
      split at h <;> rename_i heq <;> rw [heq] at hr <;> obtain rfl := Option.some.inj h <;>
        exact hr
    · cases h
  | lastPeer =>
    simp only [step] at h
    split at h
    · obtain rfl := Option.some.inj h
      exact .same
    · obtain rfl := Option.some.inj h
      exact .same
    · cases h

theorem step_rises (ha : a.isElection = false) (h : step e s a = some s') :
    Rises s.node s'.node :=
  (step_section ha h).rises

theorem step_election (ha : a.isElection = true) (h : step e s a = some s') :
    s'.node.currentTerm = toLong (s.node.currentTerm + 1) := by
  cases a with
  | startElection t =>
    simp only [step] at h
    split at h
    · obtain rfl := Option.some.inj h
      rfl
    · cases h
  | _ => cases ha

theorem toLong_succ {n : ℤ} (h : InLong n) :
    InLong (toLong (n + 1)) ∧ (n ≤ toLong (n + 1) ∧ InLong (n + 1) ↔ n ≠ 2 ^ 63 - 1) := by
  by_cases hmax : n = 2 ^ 63 - 1
  · subst hmax
    rw [toLong_max]
    decide
  · have hsucc : InLong (n + 1) := by
      obtain ⟨hlo, hhi⟩ := h
      constructor <;> omega
    rw [toLong_eq hsucc]
    exact ⟨hsucc, fun _ => hmax, fun _ => ⟨by omega, hsucc⟩⟩

/-- For every run of lines, elections and replies: no step lowers the term and no election leaves
the range of a `long` exactly if no election starts from the largest `long`. -/
theorem terms_rise_iff (e : ExecEnv) (store : Storage) (boot : Tick) (as : List Action) :
    AllSteps (step e) (fun s a s' => s.node.currentTerm ≤ s'.node.currentTerm
        ∧ (a.isElection = true → InLong (s.node.currentTerm + 1)))
      (init e.raftConfig store boot) as
    ↔ AllSteps (step e) (fun s a _ => a.isElection = true → s.node.currentTerm ≠ 2 ^ 63 - 1)
      (init e.raftConfig store boot) as := by
  refine allSteps_congr (fun s => InLong s.node.currentTerm) (fun s a s' hs hstep => ?_)
    (fun s a s' hs hstep => ?_) as (by decide : InLong 0)
  · rcases ha : a.isElection with _ | _
    · exact (step_rises ha hstep).2 hs
    · rw [step_election ha hstep]
      exact (toLong_succ hs).1
  · rcases ha : a.isElection with _ | _
    · simpa using (step_rises ha hstep).1
    · rw [step_election ha hstep]
      simpa using (toLong_succ hs).2

/-- A node on its own, as far as its port is concerned. -/
def solo : ExecEnv := ⟨false, { selfId := ascii "n:1", peers := [] }, ⟨0, 0⟩, true, true⟩

/-- A vote request with the largest `long`, and the next election. -/
theorem term_overflows : ∃ s s', Reaches (step solo) (init solo.raftConfig (.empty 0) ⟨0, 0⟩) s
    ∧ Reaches (step solo) s s' ∧ s.node.currentTerm = 2 ^ 63 - 1
    ∧ s'.node.currentTerm = -2 ^ 63 := by
  have h₁ : (runActs (step solo) (init solo.raftConfig (.empty 0) ⟨0, 0⟩)
      [.line false (ascii "__RAFT_VOTE__ 9223372036854775807 x") ⟨0, 0⟩]).isSome := by decide
  have h₂ : (runActs (step solo) (Option.get _ h₁)
      [.tick 400, .startElection ⟨400, 0⟩]).isSome := by rfl
  exact ⟨_, _, reaches_of_runActs (Option.some_get h₁).symm,
    reaches_of_runActs (Option.some_get h₂).symm, by rfl, by rfl⟩

end RaftServer

end Redon
