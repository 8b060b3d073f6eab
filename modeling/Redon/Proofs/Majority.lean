import Mathlib.Data.Finset.Card
import Redon.Candidacy
import Redon.Proofs.Election

/-!
# Who wins an election

While no request changes a candidate's role or term (`quiet_iff`) and no reply carries a higher
term, its votes are its own and one for each peer that grants it (`voteLoop_spec`), and the peers
are the distinct ones of the configuration without the node itself (`toFinset_filterPeers`). The
majority is looked at only when a vote comes in, so a node without peers never wins
(`elected_iff`).
-/

namespace Redon

open Lib

namespace RaftNode

section Peers

theorem mem_foldl_peers {selfId p : Bytes} : ∀ {peers kept : List Bytes},
    p ∈ peers.foldl (fun kept p => if p ≠ selfId ∧ p ∉ kept then kept ++ [p] else kept) kept
      ↔ p ∈ kept ∨ (p ∈ peers ∧ p ≠ selfId)
  | [], kept => by simp
  | q :: peers, kept => by
    rw [List.foldl_cons, mem_foldl_peers, List.mem_cons]
    split_ifs with hq
    · rw [List.mem_append, List.mem_singleton]
      constructor
      · rintro ((h | rfl) | ⟨h, hne⟩)
        · exact .inl h
        · exact .inr ⟨.inl rfl, hq.1⟩
        · exact .inr ⟨.inr h, hne⟩
      · rintro (h | ⟨rfl | h, hne⟩)
        · exact .inl (.inl h)
        · exact .inl (.inr rfl)
        · exact .inr ⟨h, hne⟩
    · constructor
      · rintro (h | ⟨h, hne⟩)
        · exact .inl h
        · exact .inr ⟨.inr h, hne⟩
      · rintro (h | ⟨rfl | h, hne⟩)
        · exact .inl h
        · exact .inl (not_not.1 fun hk => hq ⟨hne, hk⟩)
        · exact .inr ⟨h, hne⟩

/-- The distinct peers other than the node itself. -/
def Config.others (c : Config) : Finset Bytes := c.peers.toFinset.erase c.selfId

theorem toFinset_filterPeers (c : Config) : c.filtered.peers.toFinset = c.others := by
  ext p
  change p ∈ (filterPeers c.selfId c.peers).toFinset ↔ _
  rw [Config.others, List.mem_toFinset, filterPeers, mem_foldl_peers, Finset.mem_erase,
    List.mem_toFinset, and_comm]
  simp

theorem nodup_filtered (c : Config) : c.filtered.peers.Nodup :=
  Cluster.nodup_filterPeers _ _ [] List.nodup_nil

theorem length_filtered (c : Config) : c.filtered.peers.length = c.others.card := by
  rw [← toFinset_filterPeers, List.toFinset_card_of_nodup (nodup_filtered c)]

end Peers

section Quiet

variable {c : Config} {s : RaftNode} {T : ℤ}

/-- A request that leaves a candidate or leader of term `T` what it is. -/
def Inbound.Quiet (T : ℤ) (q : Inbound) : Prop :=
  match q.kind with
  | .vote => q.term ≤ T
  | .append => q.term < T

theorem quiet_iff (hs : s.role ≠ .follower) (q : Inbound) :
    (serve c s q).role = s.role ∧ (serve c s q).currentTerm = s.currentTerm
      ↔ q.Quiet s.currentTerm := by
  obtain ⟨kind, term, id, t⟩ := q
  cases kind with
  | vote =>
    change (handleRequestVote c s term id t).2.role = _
      ∧ (handleRequestVote c s term id t).2.currentTerm = _ ↔ term ≤ _
    unfold handleRequestVote
    by_cases hlt : s.currentTerm < term
    · simp only [if_pos hlt]
      rw [if_pos ⟨rfl, .inl rfl⟩]
      exact ⟨fun h => absurd h.1.symm hs, fun h => absurd hlt (not_lt.2 h)⟩
    · simp only [if_neg hlt]
      refine ⟨fun _ => not_lt.1 hlt, fun _ => ?_⟩
      split_ifs <;> exact ⟨rfl, rfl⟩
  | append =>
    change (handleAppendEntries c s term id t).2.role = _
      ∧ (handleAppendEntries c s term id t).2.currentTerm = _ ↔ term < _
    unfold handleAppendEntries
    split_ifs with hle
    · exact ⟨fun h => absurd h.1.symm hs, fun h => absurd hle (not_le.2 h)⟩
    · exact ⟨fun h => absurd h.1.symm hs, fun h => absurd hle (not_le.2 h)⟩
    · exact ⟨fun _ => not_le.1 hle, fun _ => ⟨rfl, rfl⟩⟩

/-- The node has this role in term `T`. -/
def Acts (role : Role) (T : ℤ) (s : RaftNode) : Prop := s.role = role ∧ s.currentTerm = T

theorem Acts.served {role : Role} (hrole : role ≠ .follower) : ∀ {qs : List Inbound}
    {s : RaftNode}, Acts role T s → (∀ q ∈ qs, q.Quiet T) → Acts role T (serveAll c s qs)
  | [], _, h, _ => h
  | q :: qs, s, h, hq => by
    have hstep := (quiet_iff (c := c) (h.1 ▸ hrole) q).2 (h.2.symm ▸ hq q List.mem_cons_self)
    rw [h.1, h.2] at hstep
    change Acts role T (serveAll c (serve c s q) qs)
    exact Acts.served hrole hstep fun q' hq' => hq q' (List.mem_cons_of_mem q hq')

/-- Meanwhile the node stays what it is, and the reply has no higher term. -/
def Sent.Calm (T : ℤ) (x : Sent) : Prop :=
  (∀ q ∈ x.served, q.Quiet T) ∧ ∀ r ∈ x.reply, r.1 ≤ T

/-- The peer was reached and granted its vote. -/
def Sent.granted (x : Sent) : Bool := x.reply.any Prod.snd

theorem countVote_acts (hs : Acts .candidate T s) {votes : ℕ} {term : ℤ} {granted : Bool}
    (hle : term ≤ T) (t : Tick) :
    countVote c s T votes (term, granted) t =
      if granted then
        if c.majority ≤ votes + 1 then
          (.won, { s with role := .leader, leaderId := c.selfId, lastHeartbeatSent := 0 })
        else (.votes (votes + 1), s)
      else (.votes votes, s) := by
  obtain ⟨hrole, rfl⟩ := hs
  rw [countVote, if_neg (by rw [hrole]; simp), if_neg (not_lt.2 hle)]

/-- The loop has won once the votes reach the majority, provided they had not before it. -/
theorem voteLoop_spec : ∀ (xs : List Sent) (votes : ℕ) {s : RaftNode}, Acts .candidate T s →
    (∀ x ∈ xs, x.Calm T) → votes < c.majority →
    if c.majority ≤ votes + xs.countP Sent.granted then
      ∃ s', voteLoop c T xs votes s = (true, s') ∧ Acts .leader T s'
    else ∃ s', voteLoop c T xs votes s = (false, s') ∧ Acts .candidate T s'
  | [], votes, s, h, _, hv => by
    rw [List.countP_nil, Nat.add_zero, if_neg (not_le.2 hv)]
    exact ⟨s, rfl, h⟩
  | x :: xs, votes, s, h, hx, hv => by
    obtain ⟨hquiet, hreply⟩ := hx x List.mem_cons_self
    have hxs := fun y hy => hx y (List.mem_cons_of_mem x hy)
    have hs := h.served (c := c) (by decide) hquiet
    rw [voteLoop, List.countP_cons]
    rcases hr : x.reply with _ | ⟨term, granted⟩
    · have hg : x.granted = false := by rw [Sent.granted, hr]; rfl
      rw [hg, if_neg Bool.false_ne_true, Nat.add_zero]
      exact voteLoop_spec xs votes hs hxs hv
    · have hg : x.granted = granted := by rw [Sent.granted, hr]; rfl
      dsimp only
      rw [countVote_acts hs (hreply _ hr), hg]
      cases granted with
      | false => exact voteLoop_spec xs votes hs hxs hv
      | true =>
        rw [if_pos rfl, if_pos rfl]
        by_cases hwon : c.majority ≤ votes + 1
        · rw [if_pos hwon, if_pos (by omega)]
          exact ⟨_, rfl, rfl, hs.2⟩
        · have h := voteLoop_spec xs (votes + 1) hs hxs (not_le.1 hwon)
          rwa [if_neg hwon, show votes + (xs.countP Sent.granted + 1)
            = votes + 1 + xs.countP Sent.granted by omega]

theorem beatLoop_acts : ∀ (xs : List Sent) {s : RaftNode}, Acts .leader T s →
    (∀ x ∈ xs, x.Calm T) → Acts .leader T (beatLoop c T xs s)
  | [], _, h, _ => h
  | x :: xs, s, h, hx => by
    obtain ⟨hquiet, hreply⟩ := hx x List.mem_cons_self
    have hxs := fun y hy => hx y (List.mem_cons_of_mem x hy)
    have hs := h.served (c := c) (by decide) hquiet
    rw [beatLoop]
    rcases hr : x.reply with _ | reply
    · exact beatLoop_acts xs hs hxs
    · have hheard : heardHeartbeat c (serveAll c s x.served) T reply.1 x.tick
          = (true, serveAll c s x.served) := by
        rw [heardHeartbeat, if_neg (by rw [hs.1, hs.2]; simp),
          if_neg (not_lt.2 (hs.2.symm ▸ hreply _ hr))]
      dsimp only
      rw [hheard]
      exact beatLoop_acts xs hs hxs

/-- Nothing that comes up in the election of term `T` supersedes it. -/
structure Undisturbed (c : Config) (T : ℤ) (asked : Bytes → Sent) (b : Beats) : Prop where
  asked : ∀ p ∈ c.others, (asked p).Calm T
  beats : ∀ q ∈ b.served, q.Quiet T
  heard : ∀ p ∈ c.others, (b.sent p).Calm T

theorem sendHeartbeats_acts {b : Beats} (hs : Acts .leader T s)
    (hserved : ∀ q ∈ b.served, q.Quiet T) (hsent : ∀ p ∈ c.peers, (b.sent p).Calm T) :
    Acts .leader T (sendHeartbeats c s b) := by
  have h := hs.served (c := c) (by decide) hserved
  rw [sendHeartbeats, beginHeartbeats, if_neg (by rw [h.1]; simp), h.2]
  exact beatLoop_acts _ ⟨h.1, rfl⟩ (List.forall_mem_map.2 hsent)

end Quiet

section Elected

variable {c : Config} {s : RaftNode} {t : Tick} {asked : Bytes → Sent} {b : Beats}

theorem countP_filtered (c : Config) (asked : Bytes → Sent) :
    (c.filtered.peers.map asked).countP Sent.granted
      = (c.others.filter fun p => (asked p).granted).card := by
  rw [List.countP_map, ← toFinset_filterPeers, ← List.toFinset_filter,
    List.toFinset_card_of_nodup ((nodup_filtered c).filter _), List.countP_eq_length_filter]
  rfl

/-- With a peer besides itself, the node is the leader exactly if its votes are a majority. -/
theorem startElection_peers (h : Undisturbed c (s.currentTerm + 1) asked b)
    (hpeers : c.others ≠ ∅) :
    (startElection c.filtered s t asked b).role = .leader
      ↔ c.filtered.majority ≤ 1 + (c.others.filter fun p => (asked p).granted).card := by
  have hmem : ∀ p ∈ c.filtered.peers, p ∈ c.others := fun p hp => by
    rw [← toFinset_filterPeers]
    exact List.mem_toFinset.2 hp
  have hcard := Finset.card_pos.2 (Finset.nonempty_iff_ne_empty.2 hpeers)
  have hspec := voteLoop_spec (c := c.filtered) (c.filtered.peers.map asked) 1
    (s := beginElection c.filtered s t) (T := (beginElection c.filtered s t).currentTerm)
    ⟨rfl, rfl⟩ (List.forall_mem_map.2 fun p hp => h.asked p (hmem p hp))
    (by rw [Config.majority, length_filtered]; omega)
  rw [countP_filtered] at hspec
  rw [startElection]
  split_ifs at hspec with hwon
  · obtain ⟨s', heq, hs'⟩ := hspec
    rw [heq]
    exact iff_of_true (sendHeartbeats_acts hs' h.beats fun p hp => h.heard p (hmem p hp)).1 hwon
  · obtain ⟨s', heq, hs'⟩ := hspec
    rw [heq]
    exact iff_of_false (fun hl => by rw [hs'.1] at hl; cases hl) hwon

/-- Without one, no vote comes in and the majority of one is never looked at. -/
theorem startElection_alone (hpeers : c.others = ∅) :
    startElection c.filtered s t asked b = beginElection c.filtered s t := by
  have hnil : c.filtered.peers = [] := by
    rw [← List.length_eq_zero_iff, length_filtered, hpeers, Finset.card_empty]
  rw [startElection, hnil]
  rfl

/-- An election is won exactly by a majority if and only if there is a peer besides the node. -/
theorem elected_iff (c : Config) (s : RaftNode) (t : Tick) (asked : Bytes → Sent) (b : Beats)
    (h : Undisturbed c (s.currentTerm + 1) asked b) :
    ((startElection c.filtered s t asked b).role = .leader
        ↔ (c.others.card + 1) / 2 + 1
          ≤ 1 + (c.others.filter fun p => (asked p).granted).card)
      ↔ c.others ≠ ∅ := by
  constructor
  · rintro hiff hpeers
    rw [startElection_alone hpeers, hpeers] at hiff
    cases hiff.2 (by simp)
  · intro hpeers
    rw [startElection_peers h hpeers, Config.majority, length_filtered]

/-- A peer that grants its vote as soon as it is asked. -/
def willing (_ : Bytes) : Sent := ⟨[], some (1, true), ⟨0, 0⟩⟩

theorem elected_iff_pair :
    let c : Config := ⟨ascii "a:1", [ascii "b:1", ascii "a:1", ascii "b:1"], 100, 400, 800⟩
    ((startElection c.filtered (create c ⟨0, 0⟩) ⟨400, 0⟩ willing ⟨[], 400, willing⟩).role = .leader
        ↔ (c.others.card + 1) / 2 + 1
          ≤ 1 + (c.others.filter fun p => (willing p).granted).card)
      ↔ c.others ≠ ∅ := by
  refine elected_iff _ _ _ _ _ ⟨fun p _ => ⟨?_, ?_⟩, ?_, fun p _ => ⟨?_, ?_⟩⟩ <;>
    simp [willing, create, resetElectionDeadlineLocked]

/-- A node whose list of peers names only the node itself has the majority of one and stays a
candidate. -/
theorem lone_candidate :
    let c : Config := ⟨ascii "a:1", [ascii "a:1"], 100, 400, 800⟩
    (startElection c.filtered (create c ⟨0, 0⟩) ⟨400, 0⟩ willing ⟨[], 400, willing⟩).role
        = .candidate
      ∧ (c.others.card + 1) / 2 + 1
        ≤ 1 + (c.others.filter fun p => (willing p).granted).card := by
  decide

end Elected

end RaftNode

end Redon
