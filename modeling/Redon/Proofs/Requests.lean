import Redon.Proofs.Terms

/-!
# Votes granted and elections put off

A node's reply to a peer's request ends in its flag. What a node has granted a vote to in its
current term it still holds, unless the candidate had no name: the empty name is also what an unused
vote looks like. So in every term at most one named candidate gets the vote (`Ledger`), and another
one only beside a nameless one (`one_vote_iff`), which takes a request without a name
(`one_vote_per_term`).

An accepted request puts the election off, but the timer does not look at the deadline again between
its decision and the start of the election (`Watched.Due`), so the election starts before its
deadline exactly if a request accepted in between has put it off for longer (`election_due_iff`).
-/

namespace Redon

open Lib RaftNode

section Flag

variable {c : Config} {s : RaftNode} {term : ℤ} {id : Bytes} {t : Tick}

/-- The reply ends in a set flag. -/
def flagged (reply : Bytes) : Bool := reply.getLast? = some 49

theorem flagged_raftReply (word : Bytes) (reply : ℤ × Bool) :
    flagged (ExecState.raftReply word reply) = reply.2 := by
  obtain ⟨n, granted⟩ := reply
  have hne : (if granted then ascii "1" else ascii "0") ≠ [] := by cases granted <;> decide
  rw [flagged, ExecState.raftReply, List.getLast?_append_of_ne_nil _ hne]
  cases granted <;> rfl

/-- A request of a newer term is granted, so the deadline moves exactly if the flag is set. -/
theorem handleRequestVote_deadline : (handleRequestVote c s term id t).2.electionDeadline
    = if (handleRequestVote c s term id t).1.2 then t.now + c.electionTimeout t
      else s.electionDeadline := by
  unfold handleRequestVote
  by_cases hlt : s.currentTerm < term
  · simp only [if_pos hlt]
    rw [if_pos ⟨rfl, .inl rfl⟩]
    rfl
  · simp only [if_neg hlt]
    split_ifs <;> first | rfl | contradiction

theorem handleAppendEntries_deadline : (handleAppendEntries c s term id t).2.electionDeadline
    = if (handleAppendEntries c s term id t).1.2 then t.now + c.electionTimeout t
      else s.electionDeadline := by
  unfold handleAppendEntries
  split_ifs <;> first | rfl | contradiction

end Flag

namespace RaftNode

variable {c : Config} {s s' : RaftNode} {G : List (ℤ × Bytes)} {id : Bytes}

theorem Section.keeps (h : Section c s s') : Keeps s s' := by
  cases h with
  | same => exact (Yields.refl s).toKeeps
  | vote h id t => exact handleRequestVote_yields.toKeeps
  | append h id t => exact handleAppendEntries_yields.toKeeps
  | tick now => exact (tick_yields now).toKeeps
  | count term votes h granted t =>
    rcases countVote_cases c s term votes (_, granted) t with ⟨-, hy⟩ | ⟨he, -⟩ | ⟨he, -⟩ | he
    · exact hy.toKeeps
    · rw [he]
      exact ⟨le_rfl, fun _ _ => rfl⟩
    · rw [he]
      exact (Yields.refl s).toKeeps
    · rw [he]
      exact (Yields.refl s).toKeeps
  | beat now => exact (beginHeartbeats_yields now).toKeeps
  | heard term h t => exact (heardHeartbeat_yields c s term _ t).toKeeps

/-- Of the votes `G` cast so far, those of the current term for a named candidate are the one the
node holds, and no term has votes for two of them. -/
structure Ledger (G : List (ℤ × Bytes)) (s : RaftNode) : Prop where
  term : ∀ v ∈ G, v.1 ≤ s.currentTerm
  held : ∀ v ∈ G, v.1 = s.currentTerm → v.2 ≠ [] → s.votedFor = v.2
  once : ∀ v ∈ G, ∀ w ∈ G, v.1 = w.1 → v.2 ≠ [] → w.2 ≠ [] → v.2 = w.2

theorem Ledger.keep (h : Ledger G s) (hk : Keeps s s') : Ledger G s' := by
  refine ⟨fun v hv => (h.term v hv).trans hk.term, fun v hv ht hne => ?_, h.once⟩
  -- a vote of the term the node is in now was cast when it was in that term
  have hs : s'.currentTerm = s.currentTerm := by
    have h₁ := h.term v hv
    have h₂ := hk.term
    omega
  have hvote := h.held v hv (ht.trans hs) hne
  rw [hk.vote hs (hvote ▸ hne)]
  exact hvote

theorem Ledger.cast (h : Ledger G s) (hv : s.votedFor = id) :
    Ledger (G ++ [(s.currentTerm, id)]) s := by
  refine ⟨?_, ?_, ?_⟩
  · rw [List.forall_mem_append, List.forall_mem_singleton]
    exact ⟨h.term, le_rfl⟩
  · rw [List.forall_mem_append, List.forall_mem_singleton]
    exact ⟨h.held, fun _ _ => hv⟩
  · intro v hv' w hw hvw hne hne'
    rcases List.mem_append.1 hv' with hv' | hv' <;> rcases List.mem_append.1 hw with hw | hw
    · exact h.once v hv' w hw hvw hne hne'
    · rw [List.mem_singleton.1 hw] at hvw ⊢
      exact (h.held v hv' hvw hne).symm.trans hv
    · rw [List.mem_singleton.1 hv'] at hvw ⊢
      exact hv.symm.trans (h.held w hw hvw.symm hne')
    · rw [List.mem_singleton.1 hv', List.mem_singleton.1 hw]

end RaftNode

namespace RaftServer

variable (e : ExecEnv)

section Votes

/-- The reply to a line. -/
def replyTo (s : State) (isReplicaLink : Bool) (line : Bytes) (t : Tick) : Bytes :=
  (ExecState.executeLine { e with tick := t } ⟨s.store, isReplicaLink, some s.node⟩ line).reply

/-- The term and the candidate a step votes for: that of a granted request, or the node itself. -/
def granted (s : State) : Action → Option (ℤ × Bytes)
  | .line isReplicaLink line t =>
    if (lineTokens line).1 = ascii "__RAFT_VOTE__" ∧ flagged (replyTo e s isReplicaLink line t) then
      (stol (lineTokens line).2.1).map (·, (lineTokens line).2.2)
    else none
  | .startElection _ => some (toLong (s.node.currentTerm + 1), e.raftConfig.selfId)
  | _ => none

/-- The votes cast in a run, in order. -/
def cast : State → List Action → List (ℤ × Bytes)
  | _, [] => []
  | s, a :: as =>
    match step e s a with
    | none => []
    | some s' => (granted e s a).toList ++ cast s' as

variable {e} {s s' : State} {a : Action} {G : List (ℤ × Bytes)}

theorem Ledger.line (h : Ledger G s.node) {isReplicaLink : Bool} {line : Bytes} {t : Tick}
    (hs : step e s (.line isReplicaLink line t) = some s') :
    Ledger (G ++ (granted e s (.line isReplicaLink line t)).toList) s'.node := by
  have hkeep := h.keep (step_section (a := .line isReplicaLink line t) rfl hs).keeps
  have hserved := executeLine_served (e := { e with tick := t })
    (x := ⟨s.store, isReplicaLink, some s.node⟩) rfl line
  rw [granted]
  cases hserved with
  | none hr hreply =>
    rw [if_neg, Option.toList_none, List.append_nil]
    · exact hkeep
    · rintro ⟨hv, hflag⟩
      rw [replyTo, hreply (.inl hv)] at hflag
      revert hflag
      decide
  | vote hv ht hr hreply =>
    simp only [step, hr, Option.map_some, Option.some.injEq] at hs
    rw [replyTo, hreply, flagged_raftReply]
    split_ifs with hg
    · obtain ⟨hterm, hvote⟩ := handleRequestVote_granted hg.2
      rw [ht, Option.map_some, Option.toList_some, ← hterm]
      rw [← hs] at hkeep ⊢
      exact hkeep.cast hvote
    · rw [Option.toList_none, List.append_nil]
      exact hkeep
  | append hv ht hr hreply =>
    rw [if_neg, Option.toList_none, List.append_nil]
    · exact hkeep
    · rintro ⟨hv', -⟩
      rw [hv] at hv'
      exact absurd hv' (by decide)

theorem Ledger.step (h : Ledger G s.node) (hlong : InLong s.node.currentTerm)
    (hmax : a.isElection = true → s.node.currentTerm ≠ 2 ^ 63 - 1)
    (hs : RaftServer.step e s a = some s') :
    Ledger (G ++ (granted e s a).toList) s'.node ∧ InLong s'.node.currentTerm := by
  rcases ha : a.isElection with _ | _
  · refine ⟨?_, (step_rises ha hs).2 hlong⟩
    cases a with
    | line isReplicaLink line t => exact Ledger.line h hs
    | startElection t => cases ha
    | _ =>
      change Ledger (G ++ []) _
      rw [List.append_nil]
      exact h.keep (step_section ha hs).keeps
  · have hterm := step_election ha hs
    obtain ⟨hsucc, hiff⟩ := toLong_succ hlong
    obtain ⟨hle, hin⟩ := hiff.2 (hmax ha)
    refine ⟨?_, hterm ▸ hsucc⟩
    rw [toLong_eq hin] at hterm
    cases a with
    | startElection t =>
      simp only [RaftServer.step] at hs
      split at hs
      · have hkeep : Keeps s.node s'.node := ⟨by omega, fun he => by omega⟩
        obtain rfl := Option.some.inj hs
        exact (h.keep hkeep).cast rfl
      · cases hs
    | _ => cases ha

theorem Ledger.run : ∀ (as : List Action) {s : State} {G : List (ℤ × Bytes)}, Ledger G s.node →
    InLong s.node.currentTerm → AllSteps (RaftServer.step e)
      (fun s a _ => a.isElection = true → s.node.currentTerm ≠ 2 ^ 63 - 1) s as →
    ∃ node, Ledger (G ++ cast e s as) node
  | [], s, G, h, _, _ => ⟨s.node, by rwa [cast, List.append_nil]⟩
  | a :: as, s, G, h, hlong, hno => by
    rw [cast]
    rcases hs : RaftServer.step e s a with _ | s'
    · exact ⟨s.node, by rwa [List.append_nil]⟩
    · obtain ⟨hmax, hno⟩ := hno s' hs
      obtain ⟨h', hlong'⟩ := Ledger.step h hlong hmax hs
      obtain ⟨node, hnode⟩ := Ledger.run as h' hlong' hno
      rw [List.append_assoc] at hnode
      exact ⟨node, hnode⟩

/-- In a run of lines, elections and replies in which no election overflows the term, the votes of a
term are all for one candidate exactly if they are not for a named and for a nameless one. -/
theorem one_vote_iff (store : Storage) (boot : Tick) (as : List Action)
    (hno : AllSteps (RaftServer.step e)
      (fun s a _ => a.isElection = true → s.node.currentTerm ≠ 2 ^ 63 - 1)
      (init e.raftConfig store boot) as) (term : ℤ) :
    (∀ id id', (term, id) ∈ cast e (init e.raftConfig store boot) as →
      (term, id') ∈ cast e (init e.raftConfig store boot) as → id = id')
    ↔ ¬ ∃ id, id ≠ [] ∧ (term, id) ∈ cast e (init e.raftConfig store boot) as
      ∧ (term, []) ∈ cast e (init e.raftConfig store boot) as := by
  have hinit : Ledger [] (init e.raftConfig store boot).node := ⟨nofun, nofun, nofun⟩
  obtain ⟨node, hnode⟩ := Ledger.run as hinit (by decide : InLong 0) hno
  rw [List.nil_append] at hnode
  constructor
  · rintro h ⟨id, hne, hid, hnil⟩
    exact hne (h id [] hid hnil)
  · intro h id id' hid hid'
    by_cases hne : id = []
    · by_contra hne'
      rw [hne] at hid hne'
      exact h ⟨id', Ne.symm hne', hid', hid⟩
    · by_cases hne' : id' = []
      · rw [hne'] at hid'
        exact absurd ⟨id, hne, hid, hid'⟩ h
      · exact hnode.once _ hid _ hid' rfl hne hne'

/-- A request for a vote has a candidate's id. -/
def Action.Named : Action → Prop
  | .line _ l _ => (lineTokens l).1 = ascii "__RAFT_VOTE__" → (lineTokens l).2.2 ≠ []
  | _ => True

theorem granted_named (hself : e.raftConfig.selfId ≠ []) (ha : a.Named) {v : ℤ × Bytes}
    (hv : granted e s a = some v) : v.2 ≠ [] := by
  cases a with
  | line isReplicaLink line t =>
    simp only [granted] at hv
    split_ifs at hv with hg
    obtain ⟨term, -, rfl⟩ := Option.map_eq_some_iff.1 hv
    exact ha hg.1
  | startElection t =>
    obtain rfl := Option.some.inj hv
    exact hself
  | _ => cases hv

theorem cast_named (hself : e.raftConfig.selfId ≠ []) : ∀ (as : List Action) {s : State},
    (∀ a ∈ as, a.Named) → ∀ v ∈ cast e s as, v.2 ≠ []
  | [], s, _ => by simp [cast]
  | a :: as, s, hall => by
    obtain ⟨ha, hall⟩ := List.forall_mem_cons.1 hall
    rw [cast]
    rcases RaftServer.step e s a with _ | s'
    · simp
    · intro v hv
      rcases List.mem_append.1 hv with hv | hv
      · exact granted_named hself ha (Option.mem_toList.1 hv)
      · exact cast_named hself as hall v hv

/-- One vote per term: if the node has an id and every request for a vote carries one, the votes of
a term are all for one candidate, in a run in which no election overflows the term. -/
theorem one_vote_per_term (hself : e.raftConfig.selfId ≠ []) (store : Storage) (boot : Tick)
    {as : List Action} (hall : ∀ a ∈ as, a.Named)
    (hno : AllSteps (RaftServer.step e)
      (fun s a _ => a.isElection = true → s.node.currentTerm ≠ 2 ^ 63 - 1)
      (init e.raftConfig store boot) as) {term : ℤ} {id id' : Bytes}
    (hid : (term, id) ∈ cast e (init e.raftConfig store boot) as)
    (hid' : (term, id') ∈ cast e (init e.raftConfig store boot) as) : id = id' := by
  refine (one_vote_iff store boot as hno term).2 ?_ id id' hid hid'
  rintro ⟨-, -, -, hnil⟩
  exact cast_named hself as hall _ hnil rfl

/-- A request for `a`, a later one of the same term, and the first again. -/
def twoNamed : List Action :=
  [.line false (ascii "__RAFT_VOTE__ 5 a") ⟨0, 0⟩, .line false (ascii "__RAFT_VOTE__ 5 b") ⟨0, 0⟩,
    .line false (ascii "__RAFT_VOTE__ 5 a") ⟨0, 0⟩]

theorem one_vote_per_term_twice :
    (5, ascii "a") ∈ cast solo (init solo.raftConfig (.empty 0) ⟨0, 0⟩) twoNamed
    ∧ (5, ascii "b") ∉ cast solo (init solo.raftConfig (.empty 0) ⟨0, 0⟩) twoNamed := by
  have ha : (5, ascii "a") ∈ cast solo (init solo.raftConfig (.empty 0) ⟨0, 0⟩) twoNamed := by
    decide
  have hall : ∀ a ∈ twoNamed, a.Named := by
    simp only [twoNamed, List.forall_mem_cons]
    exact ⟨fun _ => by decide, fun _ => by decide, fun _ => by decide, by simp⟩
  refine ⟨ha, fun hb => absurd
    (one_vote_per_term (by decide) (.empty 0) ⟨0, 0⟩ hall (allSteps_of_forall ?_) ha hb)
    (by decide)⟩
  intro a ha s _ hel
  simp only [twoNamed, List.mem_cons, List.not_mem_nil, or_false] at ha
  rcases ha with rfl | rfl | rfl <;> cases hel

/-- A request without a candidate, and one of the same term with one: both are granted. -/
theorem nameless_vote : cast solo (init solo.raftConfig (.empty 0) ⟨0, 0⟩)
    [.line false (ascii "__RAFT_VOTE__ 5") ⟨0, 0⟩, .line false (ascii "__RAFT_VOTE__ 5 b") ⟨0, 0⟩]
      = [(5, []), (5, ascii "b")] := by
  decide

end Votes

section Due

/-- The clock reading a step depends on. -/
def Action.now : Action → Option ℕ
  | .line _ _ t => some t.now
  | .tick now => some now
  | .startElection t => some t.now
  | .takeVote _ _ t => some t.now
  | .startHeartbeats now => some now
  | .takeAppended _ t => some t.now
  | .lastPeer => none

/-- The clock and the random draw with which a request was accepted, if the step accepts one. -/
def accepted (s : State) : Action → Option Tick
  | .line isReplicaLink line t =>
    if ((lineTokens line).1 = ascii "__RAFT_VOTE__" ∨ (lineTokens line).1 = ascii "__RAFT_APPEND__")
        ∧ flagged (replyTo e s isReplicaLink line t) then some t
    else none
  | _ => none

/-- A node, the latest reading of its clock, and the last request it accepted since the timer
looked at the deadline. -/
structure Watched where
  state : State
  clock : ℕ
  putOff : Option Tick

def Watched.init (store : Storage) (boot : Tick) : Watched :=
  ⟨RaftServer.init e.raftConfig store boot, boot.now, none⟩

/-- A step with the clock running forward. -/
def watch (w : Watched) (a : Action) : Option Watched :=
  if ∀ now ∈ a.now, w.clock ≤ now then
    (step e w.state a).map fun s =>
      { state := s
        clock := a.now.getD w.clock
        putOff := match a with
          | .tick _ => none
          | a => (accepted e w.state a).or w.putOff }
  else none

/-- Once the timer has decided on an election, its deadline has passed or is the one set by the last
request accepted since. -/
def Watched.Due (w : Watched) : Prop :=
  w.state.timer = .electionDue →
    (w.putOff = none → w.state.node.electionDeadline ≤ w.clock)
    ∧ ∀ u ∈ w.putOff, w.state.node.electionDeadline = u.now + e.raftConfig.electionTimeout u

variable {e} {s s' : State} {w w' : Watched} {a : Action}

/-- A line leaves the timer alone, and the deadline too unless it is an accepted request. -/
theorem step_line {isReplicaLink : Bool} {line : Bytes} {t : Tick}
    (hs : step e s (.line isReplicaLink line t) = some s') : s'.timer = s.timer
      ∧ s'.node.electionDeadline = ((accepted e s (.line isReplicaLink line t)).map fun u =>
        u.now + e.raftConfig.electionTimeout u).getD s.node.electionDeadline := by
  have hserved := executeLine_served (e := { e with tick := t })
    (x := ⟨s.store, isReplicaLink, some s.node⟩) rfl line
  rw [accepted]
  cases hserved with
  | none hr hreply =>
    simp only [step, hr, Option.map_some, Option.some.injEq] at hs
    rw [if_neg, ← hs]
    · exact ⟨rfl, rfl⟩
    · rintro ⟨hv, hflag⟩
      rw [replyTo, hreply hv] at hflag
      exact absurd hflag (by decide)
  | vote hv ht hr hreply =>
    simp only [step, hr, Option.map_some, Option.some.injEq] at hs
    rw [replyTo, hreply, flagged_raftReply, ← hs]
    refine ⟨rfl, handleRequestVote_deadline.trans ?_⟩
    split_ifs <;> simp_all
  | append hv ht hr hreply =>
    simp only [step, hr, Option.map_some, Option.some.injEq] at hs
    rw [replyTo, hreply, flagged_raftReply, ← hs]
    refine ⟨rfl, handleAppendEntries_deadline.trans ?_⟩
    split_ifs <;> simp_all

/-- The timer decides on an election only when it finds the deadline passed. -/
theorem step_tick {now : ℕ} (hs : step e s (.tick now) = some s')
    (ht : s'.timer = .electionDue) : s'.node.electionDeadline ≤ now := by
  simp only [step] at hs
  split at hs
  · obtain rfl := Option.some.inj hs
    rename_i hidle _
    rw [hidle] at ht
    cases ht
  · obtain rfl := Option.some.inj hs
    cases ht
  · rename_i node hidle htick
    obtain rfl := Option.some.inj hs
    unfold RaftNode.tick at htick
    split_ifs at htick with hrole hbeat hdue
    · cases htick
    · cases htick
    · obtain ⟨-, rfl⟩ := Prod.mk.inj htick
      exact hdue
    · cases htick
  · cases hs

/-- The other steps are the timer's own, and leave it elsewhere. -/
theorem step_timer (hs : step e s a = some s') (ht : s'.timer = .electionDue) :
    (∃ isReplicaLink line t, a = .line isReplicaLink line t) ∨ ∃ now, a = .tick now := by
  cases a with
  | line isReplicaLink line t => exact .inl ⟨_, _, _, rfl⟩
  | tick now => exact .inr ⟨now, rfl⟩
  | startElection t =>
    simp only [step] at hs
    split at hs
    · obtain rfl := Option.some.inj hs
      cases ht
    · cases hs
  | takeVote term granted t =>
    simp only [step] at hs
    split at hs
    · split at hs <;> obtain rfl := Option.some.inj hs <;> cases ht
    · cases hs
  | startHeartbeats now =>
    simp only [step] at hs
    split at hs
    · obtain rfl := Option.some.inj hs
      cases ht
    · obtain rfl := Option.some.inj hs
      cases ht
    · cases hs
  | takeAppended term t =>
    simp only [step] at hs
    split at hs
    · rename_i hbeating _
      split at hs <;> obtain rfl := Option.some.inj hs
      · rw [hbeating] at ht
        cases ht
      · cases ht
    · cases hs
  | lastPeer =>
    simp only [step] at hs
    split at hs
    · obtain rfl := Option.some.inj hs
      cases ht
    · obtain rfl := Option.some.inj hs
      cases ht
    · cases hs

theorem Watched.Due.step (h : w.Due e) (hs : watch e w a = some w') : w'.Due e := by
  unfold watch at hs
  split_ifs at hs with hclock
  obtain ⟨s', hstep, rfl⟩ := Option.map_eq_some_iff.1 hs
  intro ht
  rcases step_timer hstep ht with ⟨isReplicaLink, line, t, rfl⟩ | ⟨now, rfl⟩
  · obtain ⟨htimer, hdead⟩ := step_line hstep
    obtain ⟨hnone, hsome⟩ := h (htimer ▸ ht)
    have hle : w.clock ≤ t.now := hclock _ rfl
    simp only [hdead]
    rcases accepted e w.state (.line isReplicaLink line t) with _ | u
    · exact ⟨fun hp => (hnone hp).trans hle, hsome⟩
    · refine ⟨nofun, fun u' hu => ?_⟩
      obtain rfl := Option.some.inj hu
      rfl
  · exact ⟨fun _ => step_tick hstep ht, fun u hu => by cases hu⟩

/-- For every run of lines, ticks, elections and replies, with the clock running forward: when an
election starts, its deadline is not in the future exactly if no request accepted since the timer's
decision has put it off beyond now. -/
theorem election_due_iff {store : Storage} {boot t : Tick}
    (hr : Reaches (watch e) (Watched.init e store boot) w)
    (hs : watch e w (.startElection t) = some w') :
    w.state.node.electionDeadline ≤ t.now
      ↔ ∀ u ∈ w.putOff, u.now + e.raftConfig.electionTimeout u ≤ t.now := by
  have hdue : w.Due e := hr.inv (Watched.Due e) (fun _ _ _ h hs => h.step hs) fun ht => by cases ht
  unfold watch at hs
  split_ifs at hs with hclock
  obtain ⟨s', hstep, -⟩ := Option.map_eq_some_iff.1 hs
  have ht : w.state.timer = .electionDue := by
    simp only [RaftServer.step] at hstep
    split at hstep
    · assumption
    · cases hstep
  obtain ⟨hnone, hsome⟩ := hdue ht
  rcases hp : w.putOff with _ | u
  · refine ⟨fun _ u hu => ?_, fun _ => (hnone hp).trans (hclock _ rfl)⟩
    cases hu
  · rw [hsome u hp]
    refine ⟨fun h u' hu => ?_, fun h => h u rfl⟩
    obtain rfl := Option.some.inj hu
    exact h

/-- An election that starts at its deadline. -/
theorem election_due_iff_alone : ∃ w w',
    Reaches (watch solo) (Watched.init solo (.empty 0) ⟨0, 0⟩) w
    ∧ watch solo w (.startElection ⟨400, 0⟩) = some w' ∧ w.state.node.electionDeadline ≤ 400 := by
  have h₁ : (runActs (watch solo) (Watched.init solo (.empty 0) ⟨0, 0⟩) [.tick 400]).isSome := by
    rfl
  have h₂ : (watch solo (Option.get _ h₁) (.startElection ⟨400, 0⟩)).isSome := by rfl
  have hr := reaches_of_runActs (Option.some_get h₁).symm
  exact ⟨_, _, hr, (Option.some_get h₂).symm,
    (election_due_iff hr (Option.some_get h₂).symm).2 fun _ hu => by cases hu⟩

/-- The timer finds the deadline passed, a heartbeat of a leader is accepted, and the election
starts all the same, with the deadline the heartbeat has set 399 ms ahead. -/
theorem election_against_leader : ∃ w w',
    Reaches (watch solo) (Watched.init solo (.empty 0) ⟨0, 0⟩) w
    ∧ w.state.node.leaderId = ascii "n:2" ∧ w.state.node.electionDeadline = 401 + 399
    ∧ watch solo w (.startElection ⟨401, 0⟩) = some w'
    ∧ w'.state.node.role = .candidate
    ∧ w'.state.node.currentTerm = w.state.node.currentTerm + 1 := by
  have h₁ : (runActs (watch solo) (Watched.init solo (.empty 0) ⟨0, 0⟩)
      [.tick 400, .line false (ascii "__RAFT_APPEND__ 1 n:2") ⟨400, 0⟩]).isSome := by rfl
  have h₂ : (watch solo (Option.get _ h₁) (.startElection ⟨401, 0⟩)).isSome := by rfl
  exact ⟨_, _, reaches_of_runActs (Option.some_get h₁).symm, by rfl, by rfl,
    (Option.some_get h₂).symm, by rfl, by rfl⟩

end Due

end RaftServer

end Redon
