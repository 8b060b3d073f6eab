import Redon.Cluster
import Redon.Lib.Quorum

/-!
# Election safety

The votes cast so far are a history that every step may extend. A node holds the vote it cast in
its current term, since within a term a vote once cast is never changed (`Keeps`), so no node votes
twice in a term. The votes a candidate has counted are backed by distinct voters that it will not
ask again, and a granted reply on a connection by the vote of the node at its end. A leader
therefore has a majority of votes of its term, and two majorities meet.
-/

namespace Redon

open Lib RaftNode

namespace RaftNode

variable {c : Config} {s s' : RaftNode} {term : ℤ} {id : Bytes} {t : Tick}

/-- The term does not fall, and within a term a vote is kept. -/
structure Keeps (s s' : RaftNode) : Prop where
  term : s.currentTerm ≤ s'.currentTerm
  vote : s'.currentTerm = s.currentTerm → s.votedFor ≠ [] → s'.votedFor = s.votedFor

/-- Moreover only a leader of that term is one. -/
structure Yields (s s' : RaftNode) : Prop extends Keeps s s' where
  role : s'.role = .leader → s.role = .leader ∧ s'.currentTerm = s.currentTerm

theorem Yields.refl (s : RaftNode) : Yields s s := ⟨⟨le_rfl, fun _ _ => rfl⟩, fun h => ⟨h, rfl⟩⟩

theorem becomeFollower_yields (h : s.currentTerm < term) :
    Yields s (becomeFollowerLocked c s term t) := by
  refine ⟨⟨h.le, fun he => ?_⟩, fun hr => by cases hr⟩
  change term = s.currentTerm at he
  omega

theorem handleRequestVote_yields : Yields s (handleRequestVote c s term id t).2 := by
  unfold handleRequestVote
  by_cases hlt : s.currentTerm < term
  · have hb := becomeFollower_yields (c := c) (t := t) hlt
    simp only [if_pos hlt]
    split_ifs
    · exact ⟨⟨hb.term, fun he hv => absurd he hlt.ne'⟩, fun hr => by cases hr⟩
    · exact hb
  · simp only [if_neg hlt]
    split_ifs with hg
    · refine ⟨⟨le_rfl, fun _ hv => ?_⟩, fun hr => ⟨hr, rfl⟩⟩
      exact (hg.2.resolve_left hv).symm
    · exact .refl s

theorem handleRequestVote_granted (h : (handleRequestVote c s term id t).1.2 = true) :
    (handleRequestVote c s term id t).2.currentTerm = term
      ∧ (handleRequestVote c s term id t).2.votedFor = id := by
  unfold handleRequestVote at h ⊢
  simp only [] at h ⊢
  split_ifs at h ⊢ with h1 h2 h3
  · exact ⟨rfl, rfl⟩
  · exact ⟨h3.1.symm, rfl⟩

theorem handleAppendEntries_yields : Yields s (handleAppendEntries c s term id t).2 := by
  unfold handleAppendEntries
  split_ifs with hle hlt
  · refine ⟨⟨hle, fun he => ?_⟩, fun hr => by cases hr⟩
    change term = s.currentTerm at he
    omega
  · exact ⟨⟨le_rfl, fun _ _ => rfl⟩, fun hr => by cases hr⟩
  · exact .refl s

theorem tick_yields (now : ℕ) : Yields s (RaftNode.tick c s now).2 := by
  unfold RaftNode.tick
  split_ifs <;> exact ⟨⟨le_rfl, fun _ _ => rfl⟩, fun h => ⟨h, rfl⟩⟩

theorem beginHeartbeats_yields (now : ℕ) : Yields s (beginHeartbeats s now).2 := by
  unfold beginHeartbeats
  split_ifs <;> exact ⟨⟨le_rfl, fun _ _ => rfl⟩, fun h => ⟨h, rfl⟩⟩

theorem heardHeartbeat_yields (c : Config) (s : RaftNode) (term replyTerm : ℤ) (t : Tick) :
    Yields s (heardHeartbeat c s term replyTerm t).2 := by
  unfold heardHeartbeat
  split_ifs with h1 h2
  · exact .refl s
  · exact becomeFollower_yields h2
  · exact .refl s

/-- After a reply an election is over, won, or goes on with the vote counted. -/
theorem countVote_cases (c : Config) (s : RaftNode) (term : ℤ) (votes : ℕ) (reply : ℤ × Bool)
    (t : Tick) :
    ((countVote c s term votes reply t).1 = .superseded
      ∧ Yields s (countVote c s term votes reply t).2) ∨
    (countVote c s term votes reply t = (.won, { s with
        role := .leader, leaderId := c.selfId, lastHeartbeatSent := 0 })
      ∧ s.currentTerm = term ∧ reply.2 = true ∧ c.majority ≤ votes + 1) ∨
    (countVote c s term votes reply t = (.votes (votes + 1), s) ∧ reply.2 = true) ∨
    countVote c s term votes reply t = (.votes votes, s) := by
  unfold countVote
  split_ifs with h1 h2 h3 h4
  · exact .inl ⟨rfl, .refl s⟩
  · exact .inl ⟨rfl, becomeFollower_yields h2⟩
  · exact .inr (.inl ⟨rfl, not_not.1 (not_or.1 h1).1, h3, h4⟩)
  · exact .inr (.inr (.inl ⟨rfl, h3⟩))
  · exact .inr (.inr (.inr rfl))

end RaftNode

namespace Cluster

variable {n : ℕ} (C : Cluster n)

section Peers

theorem selfId_ne_nil (i : Fin n) : C.selfId i ≠ [] := by
  simp [selfId, ascii]

theorem selfId_injective : Function.Injective C.selfId := C.distinct

theorem nodup_filterPeers (selfId : Bytes) : ∀ (peers kept : List Bytes), kept.Nodup →
    (peers.foldl (fun kept p => if p ≠ selfId ∧ p ∉ kept then kept ++ [p] else kept) kept).Nodup
  | [], _, h => h
  | p :: peers, kept, h => by
    refine nodup_filterPeers selfId peers _ ?_
    beta_reduce
    split_ifs with hp
    · exact List.Nodup.append h (List.nodup_singleton p) (by simpa using hp.2)
    · exact h

theorem nodup_peers (i : Fin n) : (C.config i).peers.Nodup :=
  nodup_filterPeers _ _ [] List.nodup_nil

theorem mem_peers (i : Fin n) (p : Bytes) :
    p ∈ (C.config i).peers ↔ ∃ j, j ≠ i ∧ C.selfId j = p := C.others i p

theorem length_peers (i : Fin n) : (C.config i).peers.length + 1 = n := by
  have himage : (C.config i).peers.toFinset = (Finset.univ.erase i).image C.selfId := by
    ext p
    simp [C.mem_peers i p]
  have hcard := congrArg Finset.card himage
  rw [List.toFinset_card_of_nodup (C.nodup_peers i),
    Finset.card_image_of_injective _ C.selfId_injective,
    Finset.card_erase_of_mem (Finset.mem_univ i),
    Finset.card_univ, Fintype.card_fin] at hcard
  have := i.pos
  omega

/-- A majority is more than half of the cluster. -/
theorem lt_two_mul_majority (i : Fin n) : n < 2 * (C.config i).majority := by
  have := C.length_peers i
  unfold Config.majority
  omega

end Peers

section Invariant

/-- The votes cast: who, in which term, for whom. -/
abbrev Votes (n : ℕ) := Set (Fin n × ℤ × Bytes)

variable {C} {G G' : Votes n} {s : State n} {i : Fin n}

/-- `votes` distinct nodes that are not in `rest` have voted for `i`. -/
def Backed (C : Cluster n) (G : Votes n) (i : Fin n) (term : ℤ) (votes : ℕ) (rest : List Bytes) :
    Prop :=
  rest.Nodup ∧ (∀ p ∈ rest, ∃ j, C.selfId j = p)
    ∧ ∃ V : Finset (Fin n), V.card = votes
      ∧ ∀ v ∈ V, (v, term, C.selfId i) ∈ G ∧ C.selfId v ∉ rest

def ThreadOk (C : Cluster n) (G : Votes n) (conns : List Conn) (i : Fin n) : Thread → Prop
  | .asking term votes rest => C.Backed G i term votes rest
  | .awaitVote c p term votes rest => C.Backed G i term votes (p :: rest)
      ∧ ∃ r, conns[c]? = some ⟨.vote, p, term, C.selfId i, r⟩
  | _ => True

/-- A granted reply is backed by the vote of the node that gave it. -/
def ConnOk (C : Cluster n) (G : Votes n) (k : Conn) : Prop :=
  k.kind = .vote → k.id ≠ [] → ∀ r, k.reply = some r → r.2 = true →
    ∀ j, C.selfId j = k.peer → (j, k.term, k.id) ∈ G

structure Inv (C : Cluster n) (G : Votes n) (s : State n) : Prop where
  once : VotesOnce G
  held : ∀ v t a, (v, t, a) ∈ G → a ≠ [] ∧ t ≤ (s.node v).currentTerm
    ∧ (t = (s.node v).currentTerm → (s.node v).votedFor = a)
  leads : ∀ i, (s.node i).role = .leader → Elected G (s.node i).currentTerm (C.selfId i)
  conns : ∀ k ∈ s.conns, C.ConnOk G k
  threads : ∀ i, C.ThreadOk G s.conns i (s.thread i)

theorem Backed.mono {term : ℤ} {votes : ℕ} {rest : List Bytes} (h : C.Backed G i term votes rest)
    (hG : G ⊆ G') : C.Backed G' i term votes rest := by
  obtain ⟨hnd, hp, V, hV, hv⟩ := h
  exact ⟨hnd, hp, V, hV, fun v hm => ⟨hG (hv v hm).1, (hv v hm).2⟩⟩

theorem Backed.tail {term : ℤ} {votes : ℕ} {p : Bytes} {rest : List Bytes}
    (h : C.Backed G i term votes (p :: rest)) : C.Backed G i term votes rest := by
  obtain ⟨hnd, hp, V, hV, hv⟩ := h
  exact ⟨(List.nodup_cons.1 hnd).2, fun q hq => hp q (List.mem_cons_of_mem p hq), V, hV,
    fun v hm => ⟨(hv v hm).1, fun hc => (hv v hm).2 (List.mem_cons_of_mem p hc)⟩⟩

theorem Backed.count {term : ℤ} {votes : ℕ} {p : Bytes} {rest : List Bytes}
    (h : C.Backed G i term votes (p :: rest)) {j : Fin n} (hj : C.selfId j = p)
    (hvote : (j, term, C.selfId i) ∈ G) : C.Backed G i term (votes + 1) rest := by
  have htail := h.tail
  obtain ⟨hnd, -, V, hV, hv⟩ := h
  have hjV : j ∉ V := fun hm => (hv j hm).2 (by rw [hj]; exact List.mem_cons_self)
  refine ⟨htail.1, htail.2.1, insert j V, by rw [Finset.card_insert_of_notMem hjV, hV], ?_⟩
  intro v hm
  rcases Finset.mem_insert.1 hm with rfl | hm
  · exact ⟨hvote, by rw [hj]; exact (List.nodup_cons.1 hnd).1⟩
  · exact ⟨(hv v hm).1, fun hc => (hv v hm).2 (List.mem_cons_of_mem p hc)⟩

theorem Backed.elected {term : ℤ} {votes : ℕ} {rest : List Bytes}
    (h : C.Backed G i term votes rest) (hm : (C.config i).majority ≤ votes) :
    Elected G term (C.selfId i) := by
  obtain ⟨-, -, V, hV, hv⟩ := h
  have := C.lt_two_mul_majority i
  exact ⟨V, by rw [Fintype.card_fin]; omega, fun v hm => (hv v hm).1⟩

theorem ThreadOk.mono {conns : List Conn} {th : Thread} (h : C.ThreadOk G conns i th)
    (hG : G ⊆ G') : C.ThreadOk G' conns i th := by
  cases th with
  | asking term votes rest => exact Backed.mono h hG
  | awaitVote c p term votes rest => exact ⟨h.1.mono hG, h.2⟩
  | _ => trivial

theorem Inv.setNode (h : C.Inv G s) (i : Fin n) (node : RaftNode) (hk : Keeps (s.node i) node)
    (hl : node.role = .leader → Elected G node.currentTerm (C.selfId i)) :
    C.Inv G { s with node := Function.update s.node i node } := by
  refine ⟨h.once, fun v t a hv => ?_, fun j hj => ?_, h.conns, h.threads⟩
  · obtain ⟨hne, hle, heq⟩ := h.held v t a hv
    by_cases hvi : v = i
    · subst hvi
      simp only [Function.update_self]
      refine ⟨hne, hle.trans hk.term, fun ht => ?_⟩
      have hsame : t = (s.node v).currentTerm := le_antisymm hle (ht ▸ hk.term)
      have hvf := heq hsame
      rw [hk.vote (ht.symm.trans hsame) (by rw [hvf]; exact hne), hvf]
    · simp only [Function.update_of_ne hvi]
      exact ⟨hne, hle, heq⟩
  · by_cases hji : j = i
    · subst hji
      simp only [Function.update_self] at hj ⊢
      exact hl hj
    · simp only [Function.update_of_ne hji] at hj ⊢
      exact h.leads j hj

theorem Inv.yield (h : C.Inv G s) {node : RaftNode} (hy : Yields (s.node i) node) :
    C.Inv G { s with node := Function.update s.node i node } := by
  refine h.setNode i node hy.toKeeps fun hl => ?_
  obtain ⟨hr, ht⟩ := hy.role hl
  rw [ht]
  exact h.leads i hr

theorem Inv.setThread (h : C.Inv G s) {t : Thread} (ht : C.ThreadOk G s.conns i t) :
    C.Inv G { s with thread := Function.update s.thread i t } := by
  refine ⟨h.once, h.held, h.leads, h.conns, fun j => ?_⟩
  by_cases hji : j = i
  · subst hji
    simp only [Function.update_self]
    exact ht
  · simp only [Function.update_of_ne hji]
    exact h.threads j

/-- A vote that a node now holds is added to the history. -/
theorem Inv.cast (h : C.Inv G s) {a : Bytes} (ha : a ≠ []) (hv : (s.node i).votedFor = a) :
    C.Inv (insert (i, (s.node i).currentTerm, a) G) s := by
  have hsub : G ⊆ insert (i, (s.node i).currentTerm, a) G := Set.subset_insert _ _
  refine ⟨h.once.insert fun b hb => ?_, fun v t b hb => ?_, fun j hj => (h.leads j hj).mono hsub,
    fun k hk h1 h2 r h3 h4 j h5 => hsub (h.conns k hk h1 h2 r h3 h4 j h5),
    fun j => (h.threads j).mono hsub⟩
  · rw [← (h.held _ _ _ hb).2.2 rfl, hv]
  · rcases hb with hb | hb
    · simp only [Prod.mk.injEq] at hb
      obtain ⟨rfl, rfl, rfl⟩ := hb
      exact ⟨ha, le_rfl, fun _ => hv⟩
    · exact h.held v t b hb

theorem Inv.open (h : C.Inv G s) {k : Conn} (hk : k.reply = none) :
    C.Inv G { s with conns := s.conns ++ [k] } := by
  refine ⟨h.once, h.held, h.leads, fun k' hk' => ?_, fun j => ?_⟩
  · rcases List.mem_append.1 hk' with hk' | hk'
    · exact h.conns k' hk'
    · rw [List.mem_singleton.1 hk']
      intro _ _ r hr
      rw [hk] at hr
      cases hr
  · have hj := h.threads j
    simp only []
    cases hth : s.thread j with
    | awaitVote c p term votes rest =>
      rw [hth] at hj
      obtain ⟨hb, r, hr⟩ := hj
      refine ⟨hb, r, ?_⟩
      rw [List.getElem?_append_left (List.getElem?_eq_some_iff.1 hr).1, hr]
    | asking term votes rest =>
      rw [hth] at hj
      exact hj
    | _ => trivial

theorem Inv.reply (h : C.Inv G s) {c : ℕ} {k : Conn} {r : ℤ × Bool} (hc : s.conns[c]? = some k)
    (hk : C.ConnOk G { k with reply := some r }) :
    C.Inv G { s with conns := s.conns.set c { k with reply := some r } } := by
  refine ⟨h.once, h.held, h.leads, fun k' hk' => ?_, fun j => ?_⟩
  · rcases List.mem_or_eq_of_mem_set hk' with hk' | rfl
    · exact h.conns k' hk'
    · exact hk
  · have hj := h.threads j
    simp only []
    cases hth : s.thread j with
    | awaitVote c' p term votes rest =>
      rw [hth] at hj
      obtain ⟨hb, r', hr'⟩ := hj
      refine ⟨hb, ?_⟩
      by_cases hcc : c = c'
      · subst hcc
        obtain rfl := Option.some.inj (hc.symm.trans hr')
        exact ⟨some r, by rw [List.getElem?_set_self (List.getElem?_eq_some_iff.1 hc).1]⟩
      · exact ⟨r', by rw [List.getElem?_set_ne hcc, hr']⟩
    | asking term votes rest =>
      rw [hth] at hj
      exact hj
    | _ => trivial

theorem Inv.move (h : C.Inv G s) {node : RaftNode} {th : Thread} (hy : Yields (s.node i) node)
    (ht : C.ThreadOk G s.conns i th) : C.Inv G (s.set i node th) :=
  (h.yield hy).setThread ht

/-- Serving a request casts a vote or none, and a granted one is cast. -/
theorem Inv.handled (h : C.Inv G s) (kind : Rpc) (j : Fin n) (term : ℤ) (id : Bytes) (t : Tick) :
    ∃ G', G ⊆ G' ∧ C.Inv G' (s.set j (C.handle kind j (s.node j) term id t).2 (s.thread j))
      ∧ (kind = .vote → id ≠ [] → (C.handle kind j (s.node j) term id t).1.2 = true →
        (j, term, id) ∈ G') := by
  have hth := h.threads j
  cases kind with
  | append => exact ⟨G, subset_rfl, h.move handleAppendEntries_yields hth, fun hk => by cases hk⟩
  | vote =>
    have hm : C.Inv G (s.set j (C.handle .vote j (s.node j) term id t).2 (s.thread j)) :=
      h.move handleRequestVote_yields hth
    by_cases hg : id ≠ [] ∧ (C.handle .vote j (s.node j) term id t).1.2 = true
    · obtain ⟨hterm, hvote⟩ := handleRequestVote_granted hg.2
      have hnode : (s.set j (C.handle .vote j (s.node j) term id t).2 (s.thread j)).node j
          = (C.handle .vote j (s.node j) term id t).2 := Function.update_self ..
      refine ⟨insert (j, term, id) G, Set.subset_insert _ _, ?_, fun _ _ _ => Set.mem_insert _ _⟩
      have hcast := hm.cast (i := j) hg.1 (by rw [hnode]; exact hvote)
      rwa [hnode, show (C.handle .vote j (s.node j) term id t).2.currentTerm = term from hterm]
        at hcast
    · exact ⟨G, subset_rfl, hm, fun _ h1 h2 => absurd ⟨h1, h2⟩ hg⟩

theorem Inv.startElection (h : C.Inv G s) (i : Fin n) (t : Tick) :
    ∃ G', G ⊆ G' ∧ C.Inv G' (s.set i (beginElection (C.config i) (s.node i) t)
      (.asking (beginElection (C.config i) (s.node i) t).currentTerm 1 (C.config i).peers)) := by
  set node := beginElection (C.config i) (s.node i) t
  have hterm : node.currentTerm = (s.node i).currentTerm + 1 := rfl
  have h₁ := h.setNode i node ⟨by omega, fun he => by omega⟩ fun hr => by cases hr
  have hnode : ({ s with node := Function.update s.node i node } : State n).node i = node :=
    Function.update_self ..
  have h₂ := h₁.cast (i := i) (C.selfId_ne_nil i) (by rw [hnode]; rfl)
  rw [hnode] at h₂
  refine ⟨_, Set.subset_insert _ _, h₂.setThread ⟨C.nodup_peers i, fun p hp => ?_, {i}, rfl, ?_⟩⟩
  · obtain ⟨j, -, hj⟩ := (C.mem_peers i p).1 hp
    exact ⟨j, hj⟩
  · intro v hv
    rw [Finset.mem_singleton.1 hv]
    refine ⟨Set.mem_insert _ _, fun hp => ?_⟩
    obtain ⟨j, hne, hj⟩ := (C.mem_peers i _).1 hp
    exact hne (C.selfId_injective hj)

theorem Inv.takeVote (h : C.Inv G s) {c : ℕ} {p : Bytes} {term : ℤ} {votes : ℕ} {rest : List Bytes}
    (hth : s.thread i = .awaitVote c p term votes rest) {reply : ℤ × Bool}
    (hr : (s.conns[c]?).bind Conn.reply = some reply) (t : Tick) :
    ∀ s', (match countVote (C.config i) (s.node i) term votes reply t with
        | (.superseded, node) => some (s.set i node .idle)
        | (.won, node) => some (s.set i node .heartbeatDue)
        | (.votes votes, node) => some (s.set i node (.asking term votes rest))) = some s' →
      C.Inv G s' := by
  have hthr := h.threads i
  rw [hth] at hthr
  obtain ⟨hb, r, hconn⟩ := hthr
  rw [hconn] at hr
  -- a granted reply is a vote of the one node the peer is
  have hgrant : reply.2 = true → C.Backed G i term (votes + 1) rest := by
    intro hg
    obtain ⟨j, hj⟩ := hb.2.1 p List.mem_cons_self
    exact hb.count hj (h.conns _ (List.mem_of_getElem? hconn) rfl (C.selfId_ne_nil i) reply hr hg
      j hj)
  intro s' hs'
  rcases countVote_cases (C.config i) (s.node i) term votes reply t with
    ⟨hc, hy⟩ | ⟨hc, hterm, hg, hmaj⟩ | ⟨hc, hg⟩ | hc
  · rcases hcv : countVote (C.config i) (s.node i) term votes reply t with ⟨o, node⟩
    rw [hcv] at hc hy hs'
    obtain rfl : o = .superseded := hc
    obtain rfl := Option.some.inj hs'
    exact h.move hy trivial
  · rw [hc] at hs'
    obtain rfl := Option.some.inj hs'
    have hl := h.setNode i { s.node i with
      role := .leader, leaderId := (C.config i).selfId, lastHeartbeatSent := 0 }
      ⟨le_rfl, fun _ _ => rfl⟩ fun _ => hterm ▸ (hgrant hg).elected hmaj
    exact hl.setThread (t := .heartbeatDue) trivial
  · rw [hc] at hs'
    obtain rfl := Option.some.inj hs'
    exact h.move (.refl _) (hgrant hg)
  · rw [hc] at hs'
    obtain rfl := Option.some.inj hs'
    exact h.move (.refl _) hb.tail

/-- Every step keeps the invariant, with the votes it casts. -/
theorem Inv.step (h : C.Inv G s) {a : Action n} {s' : State n} (hs : C.step s a = some s') :
    ∃ G', G ⊆ G' ∧ C.Inv G' s' := by
  cases a with
  | tick i now =>
    refine ⟨G, subset_rfl, ?_⟩
    have hy := tick_yields (c := C.config i) (s := s.node i) now
    simp only [Cluster.step] at hs
    split at hs
    all_goals first
      | (rename_i heq; rw [heq] at hy; obtain rfl := Option.some.inj hs; exact h.move hy trivial)
      | cases hs
  | startElection i t =>
    simp only [Cluster.step] at hs
    split at hs
    · obtain rfl := Option.some.inj hs
      exact h.startElection i t
    · cases hs
  | startHeartbeats i now =>
    refine ⟨G, subset_rfl, ?_⟩
    have hy := beginHeartbeats_yields (s := s.node i) now
    simp only [Cluster.step] at hs
    split at hs
    all_goals first
      | (rename_i heq; rw [heq] at hy; obtain rfl := Option.some.inj hs; exact h.move hy trivial)
      | cases hs
  | nextPeer i =>
    refine ⟨G, subset_rfl, ?_⟩
    have hthr := h.threads i
    simp only [Cluster.step] at hs
    split at hs
    · rename_i term votes p rest hth
      rw [hth] at hthr
      obtain rfl := Option.some.inj hs
      have ho := h.open (k := ⟨.vote, p, term, C.selfId i, none⟩) rfl
      exact ho.move (.refl _) ⟨hthr, none, by simp⟩
    · rename_i term p rest hth
      obtain rfl := Option.some.inj hs
      have ho := h.open (k := ⟨.append, p, term, C.selfId i, none⟩) rfl
      exact ho.move (.refl _) trivial
    · obtain rfl := Option.some.inj hs
      exact h.move (.refl _) trivial
    · obtain rfl := Option.some.inj hs
      exact h.move (.refl _) trivial
    · cases hs
  | giveUp i =>
    refine ⟨G, subset_rfl, ?_⟩
    have hthr := h.threads i
    simp only [Cluster.step] at hs
    split at hs
    · rename_i c p term votes rest hth
      rw [hth] at hthr
      obtain rfl := Option.some.inj hs
      exact h.move (.refl _) hthr.1.tail
    · obtain rfl := Option.some.inj hs
      exact h.move (.refl _) trivial
    · cases hs
  | takeReply i t =>
    refine ⟨G, subset_rfl, ?_⟩
    simp only [Cluster.step] at hs
    split at hs
    · rename_i c p term votes rest hth
      rcases hr : (s.conns[c]?).bind Conn.reply with _ | reply <;> rw [hr] at hs
      · cases hs
      · exact h.takeVote hth hr t s' hs
    · rename_i c term rest hth
      rcases hr : (s.conns[c]?).bind Conn.reply with _ | reply <;> rw [hr] at hs
      · cases hs
      · have hy := heardHeartbeat_yields (C.config i) (s.node i) term reply.1 t
        simp only [] at hs
        split at hs <;> rename_i heq <;> rw [heq] at hy <;> obtain rfl := Option.some.inj hs <;>
          exact h.move hy trivial
    · cases hs
  | serve c j t =>
    simp only [Cluster.step] at hs
    split at hs
    · cases hs
    · rename_i conn hc
      split_ifs at hs with hcond
      obtain ⟨G', hsub, hinv, hgrant⟩ := h.handled conn.kind j conn.term conn.id t
      obtain rfl := Option.some.inj hs
      refine ⟨G', hsub, hinv.reply hc fun hk hid r hr hg j' hj' => ?_⟩
      obtain rfl := Option.some.inj hr
      obtain rfl := C.selfId_injective (hj'.trans hcond.2)
      exact hgrant hk hid hg
  | inject j kind term id t =>
    obtain ⟨G', hsub, hinv, -⟩ := h.handled kind j term id t
    obtain rfl := Option.some.inj hs
    exact ⟨G', hsub, hinv⟩

theorem inv_init (C : Cluster n) (boot : Fin n → Tick) : C.Inv ∅ (C.init boot) := by
  refine ⟨fun v t a b hv => ?_, fun v t a hv => ?_, fun i hi => ?_, fun k hk => ?_,
    fun i => trivial⟩
  · cases hv
  · cases hv
  · cases hi
  · cases hk

end Invariant

/-- No two nodes lead in the same term, at any two moments of a run. -/
theorem election_safety {boot : Fin n → Tick} {s s' : State n} {i j : Fin n}
    (hs : Reaches C.step (C.init boot) s) (hs' : Reaches C.step s s') (hij : i ≠ j)
    (hi : (s.node i).role = .leader) (hj : (s'.node j).role = .leader) :
    (s.node i).currentTerm ≠ (s'.node j).currentTerm := by
  intro hterm
  obtain ⟨G, -, hG⟩ := hs.ghost C.Inv (fun _ _ _ _ h => h.step) (C.inv_init boot)
  obtain ⟨G', hsub, hG'⟩ := hs'.ghost C.Inv (fun _ _ _ _ h => h.step) hG
  have h₁ : Elected G' (s'.node j).currentTerm (C.selfId i) :=
    hterm ▸ (hG.leads i hi).mono hsub
  exact hij (C.selfId_injective (elected_unique hG'.once h₁ (hG'.leads j hj)))

/-- Three nodes on ports 1, 2 and 3 of one host, each given all three addresses. -/
def trio : Cluster 3 where
  host _ := ascii "n"
  port i := i + 1
  raftPeers _ := [ascii "n:1", ascii "n:2", ascii "n:3"]
  distinct := by decide
  others := by
    have h : ∀ i : Fin 3, filterPeers (ascii "n" ++ ascii ":" ++ decimal (i + 1))
        [ascii "n:1", ascii "n:2", ascii "n:3"]
        = ((List.finRange 3).filter (· ≠ i)).map
          fun j : Fin 3 => ascii "n" ++ ascii ":" ++ decimal (j + 1) := by decide
    intro i p
    rw [h i]
    simp

/-- The first node wins term 1 with the vote of the second, which then wins term 2 with the vote of
the first. -/
theorem election_safety_trio :
    ∃ s s' : State 3, Reaches trio.step (trio.init fun _ => ⟨0, 0⟩) s ∧ Reaches trio.step s s'
      ∧ (s.node 0).role = .leader ∧ (s'.node 1).role = .leader
      ∧ (s.node 0).currentTerm ≠ (s'.node 1).currentTerm := by
  have h₁ : (runActs trio.step (trio.init fun _ => ⟨0, 0⟩) [.tick 0 400, .startElection 0 ⟨400, 0⟩,
      .nextPeer 0, .serve 0 1 ⟨400, 0⟩, .takeReply 0 ⟨400, 0⟩]).isSome := by decide
  have h₂ : (runActs trio.step (Option.get _ h₁) [.tick 1 900, .startElection 1 ⟨900, 0⟩,
      .nextPeer 1, .serve 1 0 ⟨900, 0⟩, .takeReply 1 ⟨900, 0⟩]).isSome := by rfl
  have hs := reaches_of_runActs (Option.some_get h₁).symm
  have hs' := reaches_of_runActs (Option.some_get h₂).symm
  have hl : ((Option.get _ h₁).node 0).role = .leader := by rfl
  have hl' : ((Option.get _ h₂).node 1).role = .leader := by rfl
  exact ⟨_, _, hs, hs', hl, hl', election_safety trio hs hs' (by decide) hl hl'⟩

end Cluster

end Redon
