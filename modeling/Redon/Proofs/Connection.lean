import Redon.Connection
import Redon.Proofs.Framing
import Redon.Proofs.Metrics

/-!
# Connections and packet boundaries

Whether a line closes its connection is read off the line (`respond_close`), so a connection
executes the lines of its stream up to the first that asks to close, in whatever chunks they arrive
and whatever the other threads do in between, and answers each of them once (`framing`). A reply is
one line unless it quotes a text that is not: a value that is read, the leader's name, the
statistics or the address of a shard (`newline_respond_iff`).
-/

namespace Redon

open Lib Lib.LineReader

/-- The line asks to close the connection. A router looks at the verb alone. -/
def closes (router : Bool) (line : Bytes) : Bool :=
  ((verbAndKey line).1 = ascii "QUIT" || (verbAndKey line).1 = ascii "EXIT")
    && (router || (verbAndKey line).2.isEmpty)

/-- A server's reply quotes a text with a newline: the value that is read, or the leader's name
where a node tells its role or refuses a write. -/
def ExecState.Breaks (e : ExecEnv) (x : ExecState) (verb key rest : Bytes) : Prop :=
  (verb = ascii "GET" ∧ key ≠ [] ∧ rest = [] ∧ ∃ v, (x.store.get key).1 = some v ∧ 10 ∈ v)
  ∨ ∃ node, x.raft = some node ∧ 10 ∈ node.leaderId ∧ (verb = ascii "ROLE"
    ∨ isWrite verb = true ∧ (e.nodeIsFollower = true → x.isReplicaLink = true)
      ∧ node.role ≠ .leader)

/-- So does a reply to a line, on a router if there are shards: the statistics, or the address of a
shard that does not answer. -/
def World.Breaks (shards : Option (List Bytes)) (w : World) (link : Bool) (line : Bytes) : Prop :=
  if (verbAndKey line).1 = ascii "INFO" then 10 ∈ w.info
  else
    match shards with
    | some shards => ∃ i addr, Router.routeLine shards.length line = .forward i
      ∧ shards[i]? = some addr ∧ 10 ∈ addr
      ∧ (Router.splitHostPort addr = none ∨ w.answered.bind Router.recvLine = none)
    | none => ExecState.Breaks w.env ⟨w.node.store, link, w.node.raft⟩ (lineTokens line).1
      (lineTokens line).2.1 (lineTokens line).2.2

section Respond

variable {e : ExecEnv} {x : ExecState} {verb key rest line : Bytes}

theorem respond_node (w : World) (link : Bool) (line : Bytes) : w.respond none link line
    = ⟨(w.node.answerLine w.env w.info link line).reply,
      (w.node.answerLine w.env w.info link line).shouldClose,
      (w.node.answerLine w.env w.info link line).isReplicaLink⟩ := by
  unfold World.respond Node.answerLine
  split_ifs <;> rfl

theorem closes_iff {router : Bool} : closes router line = true ↔
    ((lineTokens line).1 = ascii "QUIT" ∨ (lineTokens line).1 = ascii "EXIT")
      ∧ (router = true ∨ (lineTokens line).2.1 = []) := by
  rw [closes, verbAndKey_eq]
  simp only [Bool.and_eq_true, Bool.or_eq_true, decide_eq_true_eq, List.isEmpty_iff]

/-- A router answers a line itself, with one line, or forwards it. -/
theorem routeLine_cases (n : ℕ) (line : Bytes) :
    (∃ text, 10 ∉ text ∧ Router.routeLine n line = .reply text (closes true line))
    ∨ (closes true line = false ∧ ∃ i, Router.routeLine n line = .forward i) := by
  have hclose : closes true line = decide ((lineTokens line).1 = ascii "QUIT"
      ∨ (lineTokens line).1 = ascii "EXIT") := by
    rw [Bool.eq_iff_iff, closes_iff, decide_eq_true_eq]
    exact and_iff_left (.inl rfl)
  unfold Router.routeLine
  rw [verbAndKey_eq, hclose]
  dsimp only
  split_ifs with hnil hquit hping hkey
  · exact .inl ⟨[], List.not_mem_nil, by rw [hnil]; rfl⟩
  · exact .inl ⟨ascii "OK", by decide, by rw [decide_eq_true hquit]⟩
  · exact .inl ⟨ascii "PONG", by decide, by rw [decide_eq_false hquit]⟩
  · refine .inl ⟨_, ?_, by rw [decide_eq_false hquit]⟩
    exact newline_append (newline_append (by decide) (verb_spec line).1) (by decide)
  · exact .inr ⟨decide_eq_false hquit, _, rfl⟩

/-- Whether a line closes its connection does not depend on what it meets. -/
theorem respond_close (shards : Option (List Bytes)) (w : World) (link : Bool) (line : Bytes) :
    (w.respond shards link line).shouldClose = closes shards.isSome line := by
  have hinfo : (verbAndKey line).1 = ascii "INFO" → ∀ router, false = closes router line := by
    intro hv router
    rw [closes, hv]
    rfl
  cases shards with
  | some shards =>
    unfold World.respond
    split_ifs with hv
    · exact hinfo hv true
    · rcases routeLine_cases shards.length line with ⟨text, -, hr⟩ | ⟨hclose, i, hr⟩ <;>
        simp only [hr]
      · rfl
      · exact hclose.symm
  | none =>
    rw [respond_node, (answerLine_does w.node link line).close, Node.lineOp]
    split_ifs with hv
    · exact hinfo hv false
    · rw [Bool.eq_iff_iff, decide_eq_true_eq, lineOp_quit, Option.isSome_none, closes_iff,
        or_iff_right Bool.false_ne_true]

theorem newline_ite {p : Prop} [Decidable p] {text t : Bytes} (h : 10 ∉ text) (ht : 10 ∉ t) :
    10 ∉ (if p then text else t) := by
  split_ifs
  · exact h
  · exact ht

theorem newline_ite_isEmpty_iff {name t : Bytes} (ht : 10 ∉ t) :
    10 ∈ (if name.isEmpty then t else name) ↔ 10 ∈ name := by
  cases name with
  | nil => exact iff_of_false ht List.not_mem_nil
  | cons c name => exact Iff.rfl

theorem newline_append_iff {text t : Bytes} (h : 10 ∉ text) : 10 ∈ text ++ t ↔ 10 ∈ t := by
  rw [List.mem_append, or_iff_right h]

theorem newline_statusLine_iff {node : RaftNode} :
    10 ∈ ExecState.statusLine node ↔ 10 ∈ node.leaderId := by
  unfold ExecState.statusLine
  rw [newline_append_iff, newline_ite_isEmpty_iff (by decide)]
  refine newline_append (newline_append (newline_append ?_ (by decide)) (newline_decimalInt _))
    (by decide)
  cases node.role <;> decide

theorem newline_wrongArgs (h : 10 ∉ verb) : 10 ∉ wrongArgs verb :=
  newline_append (newline_append (by decide) h) (by decide)

theorem newline_count (n : ℕ) : 10 ∉ ascii "(integer) " ++ decimal n :=
  newline_append (by decide) (newline_decimal n)

/-- The verbs of clients but `GET` get replies of one line. -/
theorem newline_executeVerb (hv : 10 ∉ verb) (hget : verb ≠ ascii "GET") :
    10 ∉ (x.executeVerb verb key rest).reply := by
  unfold ExecState.executeVerb
  rw [if_neg hget]
  split_ifs
  · unfold ExecState.executeSet
    split
    · exact newline_wrongArgs (by decide)
    · exact newline_ite (by decide) (by decide)
  · unfold ExecState.executeDel
    split
    · exact newline_wrongArgs (by decide)
    · exact newline_ite (by decide) (newline_count _)
  · unfold ExecState.executeExists
    split
    · exact newline_wrongArgs (by decide)
    · exact newline_count _
  · unfold ExecState.executePing
    split
    · exact newline_wrongArgs (by decide)
    · exact (by decide : 10 ∉ ascii "PONG")
  · unfold ExecState.executeQuit
    split
    · exact newline_wrongArgs (by decide)
    · exact (by decide : 10 ∉ ascii "OK")
  · exact newline_append (newline_append (by decide) hv) (by decide)

theorem newline_executeGet_iff : 10 ∈ (x.executeGet key rest).reply
    ↔ key ≠ [] ∧ rest = [] ∧ ∃ v, (x.store.get key).1 = some v ∧ 10 ∈ v := by
  unfold ExecState.executeGet
  split_ifs with hargs
  · refine iff_of_false (newline_wrongArgs (by decide)) ?_
    rintro ⟨hkey, rfl, -⟩
    simp [hkey] at hargs
  · have hgood : key ≠ [] ∧ rest = [] := by simpa using hargs
    change 10 ∈ (x.store.get key).1.getD (ascii "(nil)") ↔ _
    rcases (x.store.get key).1 with _ | v
    · exact iff_of_false (by decide : 10 ∉ ascii "(nil)") (by simp)
    · simp [hgood]

/-- A write is refused with a newline in the reply if that is in the leader's name. -/
theorem newline_refusal_iff : (∃ reply, x.refusal e verb = some reply ∧ 10 ∈ reply)
    ↔ ∃ node, x.raft = some node ∧ 10 ∈ node.leaderId ∧ ExecState.isWrite verb = true
      ∧ (e.nodeIsFollower = true → x.isReplicaLink = true) ∧ node.role ≠ .leader := by
  unfold ExecState.refusal
  split_ifs with hro
  · refine iff_of_false ?_ ?_
    · rintro ⟨reply, he, hmem⟩
      rw [← Option.some.inj he] at hmem
      exact absurd hmem (by decide)
    · rintro ⟨node, -, -, -, hlink, -⟩
      simp only [Bool.and_eq_true, Bool.not_eq_true'] at hro
      exact absurd (hlink hro.1.1) (by rw [hro.1.2]; exact Bool.false_ne_true)
  · rcases hraft : x.raft with _ | node
    · simp
    · dsimp only
      split
      · rename_i hw
        have hlink : e.nodeIsFollower = true → x.isReplicaLink = true := by
          intro hf
          by_contra hno
          exact hro (by simp [hf, hno, hw.2])
        simp only [Option.some.injEq, exists_eq_left']
        rw [newline_append_iff (by decide), newline_ite_isEmpty_iff (by decide)]
        exact ⟨fun h => ⟨h, hw.2, hlink, hw.1⟩, And.left⟩
      · rename_i hw
        refine iff_of_false (by simp) ?_
        rintro ⟨node', he, -, hwrite, -, hrole⟩
        exact hw ⟨Option.some.inj he ▸ hrole, hwrite⟩

/-- Off reads, roles and writes a reply quotes nothing. -/
theorem not_breaks (hget : verb ≠ ascii "GET") (hrole : verb ≠ ascii "ROLE")
    (hwrite : ExecState.isWrite verb = false) : ¬ x.Breaks e verb key rest := by
  rintro (⟨hv, -⟩ | ⟨node, -, -, hv | ⟨hv, -⟩⟩)
  · exact hget hv
  · exact hrole hv
  · rw [hwrite] at hv
    cases hv

theorem newline_executeReplSync : 10 ∉ (x.executeReplSync e).reply := by
  unfold ExecState.executeReplSync
  split
  · exact (by decide : 10 ∉ ascii "ERR __REPLSYNC__ is only valid on a read-only replica")
  · split
    · exact (by decide : 10 ∉ ascii "ERR replication sync already in progress on this connection")
    · exact newline_ite (by decide) (by decide)

theorem newline_executeRaft : 10 ∉ (x.executeRaft e verb key rest).reply := by
  unfold ExecState.executeRaft
  rcases x.raft with _ | node
  · exact (by decide : 10 ∉ ascii "ERR this node is not part of a Raft cluster")
  · rcases stol key with _ | term
    · exact (by decide : 10 ∉ ascii "ERR malformed Raft RPC")
    · dsimp only
      split <;> exact newline_raftReply (by decide) _

theorem newline_executeRole_iff :
    10 ∈ x.executeRole.reply ↔ ∃ node, x.raft = some node ∧ 10 ∈ node.leaderId := by
  unfold ExecState.executeRole
  rcases x.raft with _ | node
  · exact iff_of_false (by decide : 10 ∉ ascii "standalone (not a Raft cluster)") (by simp)
  · simp only [Option.some.injEq, exists_eq_left']
    exact newline_statusLine_iff

theorem newline_executeTokens_iff (hv : 10 ∉ verb) :
    10 ∈ (x.executeTokens e verb key rest).reply ↔ x.Breaks e verb key rest := by
  unfold ExecState.executeTokens
  split_ifs with hsync hraft hrole
  · refine iff_of_false newline_executeReplSync ?_
    rw [hsync]
    exact not_breaks (by decide) (by decide) (by decide)
  · refine iff_of_false newline_executeRaft ?_
    rcases hraft with rfl | rfl <;> exact not_breaks (by decide) (by decide) (by decide)
  · subst hrole
    have hget : ascii "ROLE" ≠ ascii "GET" := by decide
    simp only [newline_executeRole_iff, ExecState.Breaks, hget, false_and, false_or, true_or,
      and_true]
  · have hbreaks : x.Breaks e verb key rest ↔ (verb = ascii "GET" ∧ key ≠ [] ∧ rest = []
        ∧ ∃ v, (x.store.get key).1 = some v ∧ 10 ∈ v)
        ∨ ∃ reply, x.refusal e verb = some reply ∧ 10 ∈ reply := by
      simp only [newline_refusal_iff, ExecState.Breaks, hrole, false_or]
    rw [hbreaks]
    rcases href : x.refusal e verb with _ | reply
    · simp only [reduceCtorEq, false_and, exists_false, or_false]
      by_cases hget : verb = ascii "GET"
      · subst hget
        rw [and_iff_right rfl]
        exact newline_executeGet_iff
      · exact iff_of_false (newline_executeVerb hv hget) fun h => hget h.1
    · have hget : verb ≠ ascii "GET" := by
        rintro rfl
        rw [refusal_of_read (by decide)] at href
        cases href
      simp only [hget, false_and, false_or, Option.some.injEq, exists_eq_left']
      rfl

theorem newline_recvLine {sent reply : Bytes} (h : Router.recvLine sent = some reply) :
    10 ∉ reply := by
  obtain ⟨t, m, -, ht, -, rfl⟩ := readLine_eq_some.1 h
  exact fun hmem => ht ((dropCr_front t).subset hmem)

/-- A forwarded line is answered with an error of the router, or with what was read from the
shard. -/
theorem forward_cases (shards : List Bytes) (i : ℕ) (answered : Option Bytes) :
    (∃ text, Router.forward shards i answered = ascii "ERR ROUTER: " ++ text
      ∧ (10 ∈ text ↔ ∃ addr, shards[i]? = some addr ∧ 10 ∈ addr)
      ∧ ∀ addr, shards[i]? = some addr →
        Router.splitHostPort addr = none ∨ answered.bind Router.recvLine = none)
    ∨ ∃ addr sent, shards[i]? = some addr ∧ Router.splitHostPort addr ≠ none
      ∧ answered = some sent
      ∧ Router.recvLine sent = some (Router.forward shards i answered) := by
  rcases haddr : shards[i]? with _ | addr
  · refine .inl ⟨ascii "no such shard", ?_, iff_of_false (by decide) (by simp), nofun⟩
    simp only [Router.forward, haddr]
    rfl
  have hquote : ∀ {pre post : Bytes}, 10 ∉ pre → 10 ∉ post →
      (10 ∈ pre ++ addr ++ post ↔ ∃ addr', some addr = some addr' ∧ 10 ∈ addr') := by
    intro pre post hpre hpost
    rw [List.mem_append, or_iff_left hpost, newline_append_iff hpre]
    simp
  rcases hhost : Router.splitHostPort addr with _ | host
  · refine .inl ⟨ascii "invalid shard address '" ++ addr ++ ascii "'", ?_,
      hquote (by decide) (by decide), fun addr' he => .inl (Option.some.inj he ▸ hhost)⟩
    simp only [Router.forward, haddr, hhost]
    rfl
  rcases answered with _ | sent
  · refine .inl ⟨ascii "shard " ++ addr ++ ascii " is unreachable", ?_,
      hquote (by decide) (by decide), fun _ _ => .inr rfl⟩
    simp only [Router.forward, haddr, hhost]
    rfl
  rcases hread : Router.recvLine sent with _ | reply
  · refine .inl ⟨ascii "shard " ++ addr ++ ascii " request failed", ?_,
      hquote (by decide) (by decide), fun _ _ => .inr hread⟩
    simp only [Router.forward, haddr, hhost, hread]
    rfl
  · refine .inr ⟨addr, sent, rfl, by rw [hhost]; exact Option.some_ne_none host, rfl, ?_⟩
    simp only [Router.forward, haddr, hhost, hread]

/-- A forwarded line is answered with a newline if that is in the address of a shard that cannot be
asked. -/
theorem newline_forward_iff {shards : List Bytes} {i : ℕ} {answered : Option Bytes} :
    10 ∈ Router.forward shards i answered ↔ ∃ addr, shards[i]? = some addr ∧ 10 ∈ addr
      ∧ (Router.splitHostPort addr = none ∨ answered.bind Router.recvLine = none) := by
  rcases forward_cases shards i answered with ⟨text, he, htext, hfail⟩
    | ⟨addr, sent, haddr, hhost, hsent, hread⟩
  · rw [he, newline_append_iff (by decide), htext]
    exact exists_congr fun addr => and_congr_right fun h => (and_iff_left (hfail addr h)).symm
  · refine iff_of_false (newline_recvLine hread) ?_
    rintro ⟨addr', haddr', -, hnone | hnone⟩
    · rw [haddr, Option.some.injEq] at haddr'
      exact hhost (haddr' ▸ hnone)
    · rw [hsent, Option.bind_some, hread] at hnone
      cases hnone

/-- A reply has a newline exactly if it quotes a text that has. -/
theorem newline_respond_iff (shards : Option (List Bytes)) (w : World) (link : Bool)
    (line : Bytes) : 10 ∈ (w.respond shards link line).reply ↔ w.Breaks shards link line := by
  unfold World.respond World.Breaks
  split_ifs
  · exact Iff.rfl
  cases shards with
  | some shards =>
    dsimp only
    rcases routeLine_cases shards.length line with ⟨text, htext, hr⟩ | ⟨-, i, hr⟩ <;>
      simp only [hr]
    · exact iff_of_false htext (by simp)
    · rw [newline_forward_iff]
      simp
  | none =>
    dsimp only
    unfold ExecState.executeLine
    dsimp only
    split_ifs with hblank
    · have hverb : (lineTokens line).1 = [] := by
        by_contra hne
        rw [trim_of_verb hne] at hblank
        cases hblank
      refine iff_of_false List.not_mem_nil ?_
      rw [hverb]
      exact not_breaks (by decide) (by decide) (by decide)
    · exact newline_executeTokens_iff (verb_spec line).1

end Respond

section Framing

variable (shards : Option (List Bytes)) (world : ℕ → World)

/-- The lines executed one after another, from the `n`th of a connection on. -/
def outcomes : ℕ → Bool → List Bytes → List Handled
  | _, _, [] => []
  | n, link, line :: lines =>
    let r := (world n).respond shards link line
    ⟨line, link, r.reply⟩ :: outcomes (n + 1) r.isReplicaLink lines

/-- What was answered. -/
def replies (handled : List Handled) : List Bytes :=
  (handled.filter fun x => !x.wasReplicaLink).map Handled.reply

variable {shards world}

theorem forall_mem_replies {handled : List Handled} : (∀ reply ∈ replies handled, 10 ∉ reply)
    ↔ ∀ x ∈ handled, x.wasReplicaLink = false → 10 ∉ x.reply := by
  simp only [replies, List.forall_mem_map, List.mem_filter, Bool.not_eq_true', and_imp]

theorem map_outcomes : ∀ (lines : List Bytes) (n : ℕ) (link : Bool),
    (outcomes shards world n link lines).map Handled.line = lines
  | [], _, _ => rfl
  | line :: lines, n, link => by
    rw [outcomes, List.map_cons, map_outcomes lines]

/-- The `i`th line meets the world of its turn. -/
theorem getElem_outcomes : ∀ (lines : List Bytes) (n : ℕ) (link : Bool) {i : ℕ} {x : Handled},
    (outcomes shards world n link lines)[i]? = some x →
    x.reply = ((world (n + i)).respond shards x.wasReplicaLink x.line).reply
  | [], _, _, _, _, h => by cases h
  | line :: lines, n, link, 0, x, h => by
    obtain rfl := Option.some.inj h
    rfl
  | line :: lines, n, link, i + 1, x, h => by
    have ih := getElem_outcomes lines (n + 1) _ (i := i) h
    rwa [Nat.add_right_comm] at ih

theorem foldl_handleLine : ∀ (lines : List Bytes) (c : Handler),
    (lines.foldl (Handler.handleLine shards world) c).handled
        = c.handled ++ outcomes shards world c.handled.length c.isReplicaLink lines
      ∧ (lines.foldl (Handler.handleLine shards world) c).sent
        = c.sent ++ join 10 (replies (outcomes shards world c.handled.length c.isReplicaLink lines))
  | [], c => ⟨(List.append_nil _).symm, (List.append_nil _).symm⟩
  | line :: lines, c => by
    obtain ⟨hhandled, hsent⟩ := foldl_handleLine lines (c.handleLine shards world line)
    have hlen : (c.handleLine shards world line).handled.length = c.handled.length + 1 := by
      simp [Handler.handleLine]
    rw [hlen] at hhandled hsent
    rw [List.foldl_cons, hhandled, hsent, outcomes]
    refine ⟨by simp [Handler.handleLine], ?_⟩
    rcases hlink : c.isReplicaLink with _ | _
    · simp [Handler.handleLine, hlink, replies, join_cons]
    · simp [Handler.handleLine, hlink, replies]

end Framing

section Node

variable {e : ExecEnv} {info : Bytes} {world : ℕ → World}

/-- A client of a server that has no other threads, and a connection's thread. -/
structure Agree (c : Client) (h : Handler) : Prop where
  link : h.isReplicaLink = c.isReplicaLink
  sent : h.sent = c.sent
  closed : h.closed = c.closed

theorem Agree.handleLine {nd : Node} {c : Client} {h : Handler} (ha : Agree c h)
    (hw : world h.handled.length = ⟨nd, e, info, none⟩) (line : Bytes) :
    Agree (nd.handleLine e info c line).2 (h.handleLine none world line) := by
  unfold Node.handleLine Handler.handleLine
  rw [hw, respond_node, ha.link, ha.sent]
  exact ⟨rfl, rfl, rfl⟩

/-- Each line meets the node that the lines before it have left. -/
theorem Agree.handleAll : ∀ (lines : List Bytes) {nd : Node} {c : Client} {h : Handler}, Agree c h →
    (∀ i, world (h.handled.length + i)
      = ⟨(nd.handleAll e info c (lines.take i)).1, e, info, none⟩) →
    Agree (nd.handleAll e info c lines).2 ((Handler.service none world).handleAll h lines)
  | [], _, _, _, ha, _ => ha
  | line :: lines, nd, c, h, ha, hw => by
    rcases hc : c.closed with _ | _
    · have hopen : (Handler.service none world).closed h = false := ha.closed.trans hc
      have hlen : ((Handler.service none world).handle h line).handled.length
          = h.handled.length + 1 := by
        simp [Handler.service, Handler.handleLine]
      rw [handleAll_cons hc, LineService.handleAll_cons hopen]
      refine Agree.handleAll lines (ha.handleLine (hw 0) line) fun i => ?_
      rw [hlen, Nat.add_assoc, Nat.add_comm 1, hw (i + 1), List.take_succ_cons, handleAll_cons hc]
    · have hclosed : (Handler.service none world).closed h = true := ha.closed.trans hc
      rw [handleAll_closed hc, LineService.handleAll_closed hclosed]
      exact ha

theorem Agree.check {c : Client} {h : Handler} (ha : Agree c h) (tooLong : Bool) (b : Bytes) :
    Agree ((c.refuse tooLong).put b) ((Handler.service none world).check h tooLong) := by
  unfold Client.refuse LineService.check
  rw [show (Handler.service none world).closed h = c.closed from ha.closed]
  split_ifs
  · exact ⟨ha.link, congrArg (· ++ ascii "ERR line too long" ++ [10]) ha.sent, rfl⟩
  · exact ⟨ha.link, ha.sent, ha.closed⟩

/-- A server without other threads does what a connection's thread does. -/
theorem handleClient_node (e : ExecEnv) (info : Bytes) (nd : Node) (chunks : List Bytes) :
    ∃ world, Agree (nd.receiveAll e info .fresh chunks).2
      (Handler.handleClient none world chunks) := by
  obtain ⟨b, he, -⟩ := receiveAll_feed e info chunks nd .fresh []
  set lines := (feed 10 kMaxLineLength [] chunks).1
  refine ⟨fun i => ⟨(nd.handleAll e info .fresh (lines.take i)).1, e, info, none⟩, ?_⟩
  rw [show nd.receiveAll e info .fresh chunks = _ from he, Handler.handleClient,
    (LineService.receiveAll_feed _ 10 kMaxLineLength chunks Handler.accepted []).1]
  refine Agree.check (Agree.handleAll lines ⟨rfl, rfl, rfl⟩ fun i => ?_) _ b
  change World.mk (nd.handleAll e info .fresh (lines.take (0 + i))).1 e info none = _
  rw [Nat.zero_add]

end Node

/-- Lines and a rest within the limit: in whatever chunks they arrive, and whatever the other
threads do in between, the lines executed are those of the stream up to the first that asks to
close, each once and in order; each is answered by one reply and a newline off a replica link, and
by nothing on one. The peer finds these replies as its lines exactly if none of them has a newline,
and one has exactly if it quotes a text that has: a value that is read, the leader's name, the
statistics or the address of a shard that does not answer. -/
theorem framing (shards : Option (List Bytes)) (world : ℕ → World) {chunks : List Bytes}
    (hl : ∀ line ∈ (cut 10 chunks.flatten).1, line.length ≤ kMaxLineLength)
    (hr : (cut 10 chunks.flatten).2.length ≤ kMaxLineLength) :
    let lines := (cut 10 chunks.flatten).1
    let c := Handler.handleClient shards world chunks
    c.handled = outcomes shards world 0 false (upTo (closes shards.isSome) lines)
    ∧ c.handled.map Handled.line = upTo (closes shards.isSome) lines
    ∧ c.closed = lines.any (closes shards.isSome)
    ∧ c.sent = join 10 (replies c.handled)
    ∧ (cut 10 c.sent = (replies c.handled, [])
      ↔ ∀ x ∈ c.handled, x.wasReplicaLink = false → 10 ∉ x.reply)
    ∧ ∀ i x, c.handled[i]? = some x →
      (10 ∈ x.reply ↔ (world i).Breaks shards x.wasReplicaLink x.line) := by
  intro lines c
  have hc : c = (Handler.service shards world).handleAll .accepted lines :=
    LineService.receiveAll_within _ 10 kMaxLineLength hl hr _
  obtain ⟨hall, hclosed⟩ := LineService.handleAll_upTo (v := Handler.service shards world)
    (fun c line => respond_close shards (world c.handled.length) c.isReplicaLink line) lines
    (s := Handler.accepted) rfl
  rw [← hc] at hall hclosed
  obtain ⟨hhandled, hsent⟩ : c.handled = _ ∧ c.sent = _ := by
    rw [hall]
    exact foldl_handleLine (upTo (closes shards.isSome) lines) Handler.accepted
  change c.handled = outcomes shards world 0 false (upTo (closes shards.isSome) lines) at hhandled
  change c.sent = join 10 (replies (outcomes shards world 0 false _)) at hsent
  rw [← hhandled] at hsent
  refine ⟨hhandled, ?_, hclosed, hsent, ?_, fun i x hx => ?_⟩
  · rw [hhandled, map_outcomes]
  · rw [hsent, cut_join_iff, forall_mem_replies]
  · rw [hhandled] at hx
    have hreply := getElem_outcomes _ _ _ hx
    rw [Nat.zero_add] at hreply
    rw [hreply, newline_respond_iff]

/-- Lines split across chunks, and one behind the line that closes the connection. -/
theorem framing_split :
    let chunks := [ascii "PI", ascii "NG\nEXI", ascii "T\nPING\nGE"]
    let c := Handler.handleClient none (fun _ => ⟨⟨.empty 0, none⟩, standaloneEnv, [], none⟩) chunks
    c.handled.map Handled.line = [ascii "PING", ascii "EXIT"] ∧ c.sent = ascii "PONG\nOK\n" := by
  intro chunks c
  obtain ⟨hhandled, hlines, -, hsent, -⟩ := @framing none
    (fun _ => ⟨⟨.empty 0, none⟩, standaloneEnv, [], none⟩) chunks (by decide) (by decide)
  refine ⟨hlines.trans (by decide), hsent.trans ?_⟩
  rw [hhandled]
  decide

end Redon
