import Redon.Proofs.Lines
import Redon.Session

/-!
# What a line does

A line asks for one operation, given what the node and the connection are (`lineOp`), and executing
it does that operation and nothing else (`answerLine_does`). So whether a line reaches the store,
and with which call, is read off its tokens.

A router answers `PING`, `QUIT` and `EXIT` itself, whatever follows them, while the command layer
takes them without arguments only (`keyless_agree_iff`).
-/

namespace Redon

open Lib

/-- What a line asks for. -/
inductive Op where
  | blank
  | info
  | refuse
  | sync
  | raft
  | role
  | call (c : Call)
  | ping
  | quit
  deriving DecidableEq, Repr

/-- What the verbs of clients ask for, once a write is not refused. -/
def verbOp (verb key rest : Bytes) : Op :=
  if verb = ascii "SET" then
    if key.isEmpty || rest.isEmpty then .refuse else .call (.set key rest)
  else if verb = ascii "GET" then
    if key.isEmpty || !rest.isEmpty then .refuse else .call (.get key)
  else if verb = ascii "DEL" ∨ verb = ascii "DELETE" then
    if key.isEmpty || !rest.isEmpty then .refuse else .call (.del key)
  else if verb = ascii "EXISTS" then
    if key.isEmpty || !rest.isEmpty then .refuse else .call (.exists key)
  else if verb = ascii "PING" then
    if !key.isEmpty || !rest.isEmpty then .refuse else .ping
  else if verb = ascii "QUIT" ∨ verb = ascii "EXIT" then
    if !key.isEmpty || !rest.isEmpty then .refuse else .quit
  else .refuse

namespace ExecState

variable (e : ExecEnv) (x : ExecState)

def tokensOp (verb key rest : Bytes) : Op :=
  if verb = ascii "__REPLSYNC__" then
    if e.nodeIsFollower && !x.isReplicaLink then .sync else .refuse
  else if verb = ascii "__RAFT_VOTE__" ∨ verb = ascii "__RAFT_APPEND__" then
    if x.raft.isSome && (stol key).isSome then .raft else .refuse
  else if verb = ascii "ROLE" then .role
  else if (x.refusal e verb).isSome then .refuse
  else verbOp verb key rest

/-- What a line asks the command layer for. -/
def lineOp (line : Bytes) : Op :=
  if (trim line).isEmpty then .blank
  else x.tokensOp e (lineTokens line).1 (lineTokens line).2.1 (lineTokens line).2.2

/-- The reply to a call. -/
def callReply : Answer → Bytes
  | .stored done => if done then ascii "OK" else ascii "ERR write failed: data not persisted"
  | .value found => found.getD (ascii "(nil)")
  | .deleted d =>
    if !d.durable then ascii "ERR write failed: data not persisted"
    else ascii "(integer) " ++ decimal d.removed
  | .present found => ascii "(integer) " ++ decimal (if found then 1 else 0)

end ExecState

/-- The changes a call hands to the replicator. -/
def Storage.handed (s : Storage) : Call → List Storage.Replicated
  | .set key value => (s.set key value).2.2
  | .del key => (s.del key).2.2
  | _ => []

def Answer.isHit : Answer → Bool
  | .value found => found.isSome
  | _ => false

/-- A line that makes one call on the store. -/
def ExecState.called (x : ExecState) (c : Call) : Executed :=
  { { x with store := (x.store.call c).2 }.answer (callReply (x.store.call c).1) with
    wasGetHit := (x.store.call c).1.isHit
    replicated := x.store.handed c }

/-- What an operation does: the state after it and what it answers. -/
inductive Does (e : ExecEnv) (x : ExecState) (info : Bytes) : Op → Executed → Prop
  | blank : Does e x info .blank (x.answer [])
  | info : Does e x info .info (x.answer info)
  | refuse {reply : Bytes} : ascii "ERR" <+: reply → Does e x info .refuse (x.answer reply)
  | sync : Does e x info .sync
      ({ x with store := (x.store.clear e.truncated e.reopened).2, isReplicaLink := true }.answer
        (if (x.store.clear e.truncated e.reopened).1 then ascii "OK"
          else ascii "ERR replica storage failed to reset for sync"))
  | raft (node : RaftNode) (text : Bytes) : x.raft.isSome = true →
      Does e x info .raft ({ x with raft := some node }.answer (ascii "__" ++ text))
  | role : Does e x info .role x.executeRole
  | call (c : Call) : Does e x info (.call c) (x.called c)
  | ping : Does e x info .ping (x.answer (ascii "PONG"))
  | quit : Does e x info .quit { x.answer (ascii "OK") with shouldClose := true }

section Does

variable {e : ExecEnv} {x : ExecState} {info : Bytes}

theorem Does.ite {p : Prop} [Decidable p] {o o' : Op} {r r' : Executed}
    (h : p → Does e x info o r) (h' : ¬p → Does e x info o' r') :
    Does e x info (if p then o else o') (if p then r else r') := by
  split_ifs with hp
  · exact h hp
  · exact h' hp

theorem err_append {text : Bytes} (h : ascii "ERR" <+: text) (t : Bytes) :
    ascii "ERR" <+: text ++ t := h.trans (List.prefix_append _ _)

theorem newline_append {text t : Bytes} (h : 10 ∉ text) (ht : 10 ∉ t) : 10 ∉ text ++ t :=
  List.not_mem_append h ht

theorem newline_decimal (n : ℕ) : 10 ∉ decimal n := fun h => by
  cases isDigit_of_mem_decimal h

theorem newline_decimalInt (n : ℤ) : 10 ∉ decimalInt n := by
  cases n with
  | ofNat n => exact newline_decimal n
  | negSucc n => exact newline_append (by decide : 10 ∉ ascii "-") (newline_decimal _)

theorem newline_raftReply {word : Bytes} (h : 10 ∉ word) (reply : ℤ × Bool) :
    10 ∉ ExecState.raftReply word reply := by
  unfold ExecState.raftReply
  refine newline_append (newline_append (newline_append h (newline_decimalInt _)) (by decide)) ?_
  split_ifs <;> decide

theorem executeVerb_does (verb key rest : Bytes) :
    Does e x info (verbOp verb key rest) (x.executeVerb verb key rest) := by
  have hwrong : ∀ w, Does e x info .refuse (x.answer (wrongArgs w)) := fun w =>
    .refuse (err_append (err_append (by decide) _) _)
  refine .ite (fun _ => .ite (fun _ => hwrong _) fun _ => .call (.set key rest)) fun _ => ?_
  refine .ite (fun _ => .ite (fun _ => hwrong _) fun _ => .call (.get key)) fun _ => ?_
  refine .ite (fun _ => .ite (fun _ => hwrong _) fun _ => .call (.del key)) fun _ => ?_
  refine .ite (fun _ => .ite (fun _ => hwrong _) fun _ => .call (.exists key)) fun _ => ?_
  refine .ite (fun _ => .ite (fun _ => hwrong _) fun _ => .ping) fun _ => ?_
  refine .ite (fun _ => .ite (fun _ => hwrong _) fun _ => .quit) fun _ => ?_
  exact .refuse (err_append (err_append (by decide) _) _)

theorem executeReplSync_does : Does e x info
    (if e.nodeIsFollower && !x.isReplicaLink then .sync else .refuse) (x.executeReplSync e) := by
  unfold ExecState.executeReplSync
  cases e.nodeIsFollower with
  | false => exact .refuse (by decide)
  | true =>
    cases x.isReplicaLink with
    | true => exact .refuse (by decide)
    | false => exact .sync

theorem executeRaft_does (verb key rest : Bytes) : Does e x info
    (if x.raft.isSome && (stol key).isSome then .raft else .refuse)
    (x.executeRaft e verb key rest) := by
  unfold ExecState.executeRaft
  rcases hraft : x.raft with _ | node
  · exact .refuse (by decide)
  rcases hterm : stol key with _ | term
  · exact .refuse (by decide)
  change Does e x info .raft (if verb = ascii "__RAFT_VOTE__" then _ else _)
  have hsome : x.raft.isSome = true := by
    rw [hraft]
    rfl
  split_ifs
  · exact .raft _ (ExecState.raftReply (ascii "VOTE__ ") _) hsome
  · exact .raft _ (ExecState.raftReply (ascii "APPENDED__ ") _) hsome

theorem refusal_err {verb reply : Bytes} (h : x.refusal e verb = some reply) :
    ascii "ERR" <+: reply := by
  unfold ExecState.refusal at h
  split at h
  · rw [← Option.some.inj h]
    decide
  · split at h
    · split at h
      · rw [← Option.some.inj h]
        exact err_append (by decide) _
      · cases h
    · cases h

theorem executeTokens_does (verb key rest : Bytes) :
    Does e x info (x.tokensOp e verb key rest) (x.executeTokens e verb key rest) := by
  refine .ite (fun _ => executeReplSync_does) fun _ => ?_
  refine .ite (fun _ => executeRaft_does _ _ _) fun _ => ?_
  refine .ite (fun _ => .role) fun _ => ?_
  rcases hrefusal : x.refusal e verb with _ | reply
  · rw [Option.isSome_none, if_neg Bool.false_ne_true]
    exact executeVerb_does _ _ _
  · rw [Option.isSome_some, if_pos rfl]
    exact .refuse (refusal_err hrefusal)

/-- Executing a line does what it asks for. -/
theorem executeLine_does (line : Bytes) :
    Does e x info (x.lineOp e line) (x.executeLine e line) :=
  .ite (fun _ => .blank) fun _ => executeTokens_does _ _ _

/-- What a line asks a node for on a connection. -/
def Node.lineOp (e : ExecEnv) (nd : Node) (link : Bool) (line : Bytes) : Op :=
  if (verbAndKey line).1 = ascii "INFO" then .info
  else ExecState.lineOp e ⟨nd.store, link, nd.raft⟩ line

theorem answerLine_does (nd : Node) (link : Bool) (line : Bytes) :
    Does e ⟨nd.store, link, nd.raft⟩ info (nd.lineOp e link line)
      (nd.answerLine e info link line) :=
  .ite (fun _ => .info) fun _ => executeLine_does line

end Does

section Calls

variable {e : ExecEnv} {x : ExecState} {verb key rest : Bytes} {c : Call}

theorem refusal_of_read (h : ExecState.isWrite verb = false) :
    x.refusal e verb = none := by
  unfold ExecState.refusal
  rw [h, Bool.and_false, if_neg Bool.false_ne_true]
  rcases x.raft with _ | node
  · rfl
  · exact if_neg fun hw => Bool.false_ne_true hw.2

/-- The tokens of a line that makes a call on the store. -/
inductive Asks (verb key rest : Bytes) : Call → Prop
  | set : verb = ascii "SET" → key ≠ [] → rest ≠ [] → Asks verb key rest (.set key rest)
  | get : verb = ascii "GET" → key ≠ [] → rest = [] → Asks verb key rest (.get key)
  | del : verb = ascii "DEL" ∨ verb = ascii "DELETE" → key ≠ [] → rest = [] →
      Asks verb key rest (.del key)
  | exists : verb = ascii "EXISTS" → key ≠ [] → rest = [] → Asks verb key rest (.exists key)

theorem Asks.isWrite (h : Asks verb key rest c) (hw : c.write.isSome) :
    ExecState.isWrite verb = true := by
  cases h with
  | set hv => rw [hv]; decide
  | get => cases hw
  | del hv => rcases hv with rfl | rfl <;> decide
  | «exists» => cases hw

/-- A write is made by the replica link of a follower or off a follower, and in a cluster by the
leader. -/
theorem refusal_of_write (hw : ExecState.isWrite verb = true) : x.refusal e verb = none ↔
    (e.nodeIsFollower = true → x.isReplicaLink = true)
      ∧ ∀ node, x.raft = some node → node.role = .leader := by
  unfold ExecState.refusal
  rw [hw]
  rcases hraft : x.raft with _ | node
  · cases e.nodeIsFollower <;> cases x.isReplicaLink <;> simp
  · by_cases hrole : node.role = .leader
    · cases e.nodeIsFollower <;> cases x.isReplicaLink <;> simp [hrole]
    · cases e.nodeIsFollower <;> cases x.isReplicaLink <;> simp [hrole]

/-- What the verbs of clients can ask for. -/
theorem verbOp_cases {o : Op} (h : verbOp verb key rest = o) : o = .refuse
    ∨ (∃ c, o = .call c ∧ Asks verb key rest c) ∨ (o = .ping ∧ verb = ascii "PING")
    ∨ (o = .quit ∧ (verb = ascii "QUIT" ∨ verb = ascii "EXIT")) := by
  have hone : ∀ {c : Call}, (if key.isEmpty || !rest.isEmpty then Op.refuse else .call c) = o →
      (key ≠ [] → rest = [] → Asks verb key rest c) →
      o = .refuse ∨ ∃ c, o = .call c ∧ Asks verb key rest c := by
    intro c ho hask
    rcases ite_eq_iff.1 ho with ⟨-, ho⟩ | ⟨hargs, ho⟩
    · exact .inl ho.symm
    · simp only [Bool.or_eq_true, List.isEmpty_iff, not_or, Bool.not_eq_true', Bool.not_eq_false]
        at hargs
      exact .inr ⟨c, ho.symm, hask hargs.1 (by simpa using hargs.2)⟩
  rcases ite_eq_iff.1 h with ⟨hset, h⟩ | ⟨-, h⟩
  · rcases ite_eq_iff.1 h with ⟨-, h⟩ | ⟨hargs, h⟩
    · exact .inl h.symm
    · simp only [Bool.or_eq_true, List.isEmpty_iff, not_or] at hargs
      exact .inr (.inl ⟨_, h.symm, .set hset hargs.1 hargs.2⟩)
  rcases ite_eq_iff.1 h with ⟨hget, h⟩ | ⟨-, h⟩
  · exact (hone h (.get hget)).imp_right .inl
  rcases ite_eq_iff.1 h with ⟨hdel, h⟩ | ⟨-, h⟩
  · exact (hone h (.del hdel)).imp_right .inl
  rcases ite_eq_iff.1 h with ⟨hex, h⟩ | ⟨-, h⟩
  · exact (hone h (.exists hex)).imp_right .inl
  rcases ite_eq_iff.1 h with ⟨hping, h⟩ | ⟨-, h⟩
  · rcases ite_eq_iff.1 h with ⟨-, h⟩ | ⟨-, h⟩
    · exact .inl h.symm
    · exact .inr (.inr (.inl ⟨h.symm, hping⟩))
  rcases ite_eq_iff.1 h with ⟨hquit, h⟩ | ⟨-, h⟩
  · rcases ite_eq_iff.1 h with ⟨-, h⟩ | ⟨-, h⟩
    · exact .inl h.symm
    · exact .inr (.inr (.inr ⟨h.symm, hquit⟩))
  · exact .inl h.symm

/-- What tokens can ask for: the handshake, something that leaves the store alone, or, if its write
is not refused, what the verb asks for. -/
theorem tokensOp_cases (e : ExecEnv) (x : ExecState) (verb key rest : Bytes) :
    (x.tokensOp e verb key rest = .sync ∧ verb = ascii "__REPLSYNC__" ∧ e.nodeIsFollower = true
      ∧ x.isReplicaLink = false)
    ∨ x.tokensOp e verb key rest ∈ [Op.refuse, .raft, .role]
    ∨ (x.tokensOp e verb key rest = verbOp verb key rest ∧ x.refusal e verb = none) := by
  unfold ExecState.tokensOp
  split_ifs with hsync hfresh hraft hok hrole hrefused
  · exact .inl ⟨rfl, hsync, by simpa using hfresh⟩
  · exact .inr (.inl (by decide))
  · exact .inr (.inl (by decide))
  · exact .inr (.inl (by decide))
  · exact .inr (.inl (by decide))
  · exact .inr (.inl (by decide))
  · exact .inr (.inr ⟨rfl, Option.not_isSome_iff_eq_none.1 hrefused⟩)

/-- What a line can ask a node for. -/
theorem lineOp_cases (e : ExecEnv) (nd : Node) (link : Bool) (line : Bytes) :
    nd.lineOp e link line ∈ [Op.info, .blank, .refuse, .raft, .role]
    ∨ (nd.lineOp e link line = .sync ∧ (lineTokens line).1 = ascii "__REPLSYNC__"
      ∧ e.nodeIsFollower = true ∧ link = false)
    ∨ (nd.lineOp e link line
        = verbOp (lineTokens line).1 (lineTokens line).2.1 (lineTokens line).2.2
      ∧ ExecState.refusal e ⟨nd.store, link, nd.raft⟩ (lineTokens line).1 = none) := by
  unfold Node.lineOp ExecState.lineOp
  split_ifs
  · exact .inl (by decide)
  · exact .inl (by decide)
  · rcases tokensOp_cases e ⟨nd.store, link, nd.raft⟩ (lineTokens line).1 (lineTokens line).2.1
      (lineTokens line).2.2 with hsync | hother | hverb
    · exact .inr (.inl hsync)
    · exact .inl (List.mem_cons_of_mem _ (List.mem_cons_of_mem _ hother))
    · exact .inr (.inr hverb)

/-- A line makes a call only if its write is not refused and its tokens ask for the call. -/
theorem asks_of_lineOp {nd : Node} {link : Bool} {line : Bytes}
    (h : nd.lineOp e link line = .call c) :
    ExecState.refusal e ⟨nd.store, link, nd.raft⟩ (lineTokens line).1 = none
      ∧ Asks (lineTokens line).1 (lineTokens line).2.1 (lineTokens line).2.2 c := by
  rcases lineOp_cases e nd link line with hother | ⟨hsync, -⟩ | ⟨hverb, href⟩
  · rw [h] at hother
    simp at hother
  · rw [h] at hsync
    cases hsync
  · rcases verbOp_cases (hverb.symm.trans h) with ho | ⟨c', ho, hask⟩ | ⟨ho, -⟩ | ⟨ho, -⟩
    · cases ho
    · obtain rfl := Op.call.inj ho
      exact ⟨href, hask⟩
    · cases ho
    · cases ho

theorem executeTokens_read (h : verb = ascii "GET" ∨ verb = ascii "EXISTS") (e : ExecEnv)
    (x : ExecState) (key rest : Bytes) : x.executeTokens e verb key rest
      = if verb = ascii "GET" then x.executeGet key rest else x.executeExists key rest := by
  unfold ExecState.executeTokens
  rw [refusal_of_read (by rcases h with rfl | rfl <;> decide)]
  rcases h with rfl | rfl <;> rfl

/-- A `GET` makes its call or is refused. -/
theorem lineOp_get {nd : Node} {link : Bool} {line : Bytes}
    (h : (verbAndKey line).1 = ascii "GET") :
    nd.lineOp e link line = .refuse
      ∨ nd.lineOp e link line = .call (.get (verbAndKey line).2) := by
  have hinfo : (verbAndKey line).1 ≠ ascii "INFO" := by
    rw [h]
    decide
  rw [verbAndKey_eq] at h
  have htrim : (trim line).isEmpty = false := trim_of_verb (by rw [h]; decide)
  rw [Node.lineOp, if_neg hinfo, ExecState.lineOp, htrim, if_neg Bool.false_ne_true, h,
    ExecState.tokensOp, if_neg (by decide), if_neg (by decide), if_neg (by decide),
    refusal_of_read (by decide), verbAndKey_eq, if_neg (by decide), verbOp,
    if_neg (by decide), if_pos rfl]
  split_ifs
  · exact .inl rfl
  · exact .inr rfl

/-- A connection's line is the handshake exactly if a follower gets it before it is a link. -/
theorem lineOp_sync {nd : Node} {link : Bool} {line : Bytes} :
    nd.lineOp e link line = .sync ↔ (verbAndKey line).1 = ascii "__REPLSYNC__"
      ∧ e.nodeIsFollower = true ∧ link = false := by
  rw [verbAndKey_eq]
  constructor
  · intro h
    rcases lineOp_cases e nd link line with hother | ⟨-, hsync⟩ | ⟨hverb, -⟩
    · rw [h] at hother
      simp at hother
    · exact hsync
    · rcases verbOp_cases (hverb.symm.trans h) with ho | ⟨c, ho, -⟩ | ⟨ho, -⟩ | ⟨ho, -⟩ <;>
        cases ho
  · rintro ⟨hv, he, rfl⟩
    dsimp only at hv
    rw [Node.lineOp, verbAndKey_eq, hv, if_neg (by decide), ExecState.lineOp,
      trim_of_verb (by rw [hv]; decide), if_neg Bool.false_ne_true, ExecState.tokensOp, if_pos hv,
      he]
    rfl

end Calls

section Keyless

theorem rest_eq_nil {line : Bytes} (h : (lineTokens line).2.1 = []) :
    (lineTokens line).2.2 = [] := by
  have hhead := head_skipSpaces ((trim line).dropWhile fun c => !isSpace c)
  change (nextToken (nextToken (trim line)).2).2 = []
  change ((nextToken (trim line)).2.takeWhile fun c => !isSpace c) = [] at h
  rcases hs : (nextToken (trim line)).2 with _ | ⟨c, s⟩
  · rfl
  · have hc : isSpace c = false := hhead c (by rw [show skipSpaces _ = c :: s from hs]; rfl)
    rw [hs, List.takeWhile_cons, hc] at h
    cases h

variable {e : ExecEnv} {x : ExecState} {line key rest : Bytes}

theorem tokensOp_ping : x.tokensOp e (ascii "PING") key rest
    = if !key.isEmpty || !rest.isEmpty then .refuse else .ping := by
  rw [ExecState.tokensOp, if_neg (by decide), if_neg (by decide), if_neg (by decide),
    refusal_of_read (by decide)]
  rfl

theorem tokensOp_quit {verb : Bytes} (h : verb = ascii "QUIT" ∨ verb = ascii "EXIT") :
    x.tokensOp e verb key rest = if !key.isEmpty || !rest.isEmpty then .refuse else .quit := by
  rcases h with rfl | rfl
  all_goals
    rw [ExecState.tokensOp, if_neg (by decide), if_neg (by decide), if_neg (by decide),
      refusal_of_read (by decide)]
    rfl

theorem Does.close {info : Bytes} {o : Op} {r : Executed} (h : Does e x info o r) :
    r.shouldClose = decide (o = .quit) := by
  cases h <;> rfl

theorem verb_of_quit {verb : Bytes} (h : x.tokensOp e verb key rest = .quit) :
    verb = ascii "QUIT" ∨ verb = ascii "EXIT" := by
  rcases tokensOp_cases e x verb key rest with ⟨hsync, -⟩ | hother | ⟨hverb, -⟩
  · rw [h] at hsync
    cases hsync
  · rw [h] at hother
    simp at hother
  · rcases verbOp_cases (hverb.symm.trans h) with ho | ⟨c, ho, -⟩ | ⟨ho, -⟩ | ⟨-, hv⟩
    · cases ho
    · cases ho
    · cases ho
    · exact hv

/-- A line closes the connection exactly if it is `QUIT` or `EXIT` with nothing behind it. -/
theorem lineOp_quit : x.lineOp e line = .quit ↔
    ((lineTokens line).1 = ascii "QUIT" ∨ (lineTokens line).1 = ascii "EXIT")
      ∧ (lineTokens line).2.1 = [] := by
  constructor
  · intro h
    rcases ite_eq_iff.1 h with ⟨-, h⟩ | ⟨-, h⟩
    · cases h
    have hv := verb_of_quit h
    rw [tokensOp_quit hv] at h
    rcases ite_eq_iff.1 h with ⟨-, h⟩ | ⟨hargs, -⟩
    · cases h
    · simp only [Bool.or_eq_true, Bool.not_eq_true', List.isEmpty_eq_false_iff, not_or,
        not_not] at hargs
      exact ⟨hv, hargs.1⟩
  · rintro ⟨hv, hkey⟩
    have hne : (lineTokens line).1 ≠ [] := by rcases hv with h | h <;> rw [h] <;> decide
    rw [ExecState.lineOp, trim_of_verb hne, if_neg Bool.false_ne_true, tokensOp_quit hv, hkey,
      rest_eq_nil hkey]
    rfl

/-- A verb that takes no argument, answered by the router with `text`. -/
theorem keyless_agree {o : Op} {r : Executed} {text : Bytes} {close : Bool}
    (hrest : key = [] → rest = [])
    (h : Does e x [] (if !key.isEmpty || !rest.isEmpty then .refuse else o) r)
    (ho : ∀ r, Does e x [] o r → r.reply = text ∧ r.shouldClose = close)
    (htext : ¬ascii "ERR" <+: text) :
    Router.Route.reply text close = .reply r.reply r.shouldClose ↔ key = [] := by
  constructor
  · intro heq
    by_contra hkey
    rw [if_pos (by simp [hkey])] at h
    cases h with
    | refuse herr =>
      obtain ⟨htext', -⟩ := Router.Route.reply.inj heq
      exact htext (htext' ▸ herr)
  · intro hkey
    rw [hkey, hrest hkey] at h
    obtain ⟨hreply, hclose⟩ := ho r h
    rw [hreply, hclose]

/-- A router and a server answer a line whose verb takes no argument alike, and close the
connection alike, exactly if nothing follows the verb. -/
theorem keyless_agree_iff (e : ExecEnv) (x : ExecState) (n : ℕ) (line : Bytes)
    (h : (verbAndKey line).1 ∈ [ascii "PING", ascii "QUIT", ascii "EXIT"]) :
    Router.routeLine n line
        = .reply (x.executeLine e line).reply (x.executeLine e line).shouldClose
      ↔ (verbAndKey line).2 = [] := by
  have hne : (lineTokens line).1 ≠ [] := by
    intro hnil
    rw [verbAndKey_eq, hnil] at h
    exact absurd h (by decide)
  have hdoes : Does e x [] (x.lineOp e line) (x.executeLine e line) := executeLine_does line
  rw [ExecState.lineOp, if_neg (by rw [trim_of_verb hne]; decide)] at hdoes
  unfold Router.routeLine
  rw [verbAndKey_eq] at h ⊢
  dsimp only at h ⊢
  rw [if_neg hne]
  by_cases hquit : (lineTokens line).1 = ascii "QUIT" ∨ (lineTokens line).1 = ascii "EXIT"
  · rw [tokensOp_quit hquit] at hdoes
    rw [if_pos hquit]
    exact keyless_agree rest_eq_nil hdoes (fun r h => by cases h; exact ⟨rfl, rfl⟩) (by decide)
  · have hping : (lineTokens line).1 = ascii "PING" := by
      rcases List.mem_cons.1 h with hping | hother
      · exact hping
      · exact absurd (by simpa using hother) hquit
    rw [hping, tokensOp_ping] at hdoes
    rw [if_neg hquit, if_pos hping]
    exact keyless_agree rest_eq_nil hdoes (fun r h => by cases h; exact ⟨rfl, rfl⟩) (by decide)

theorem keyless_agree_iff_quit :
    let r := ExecState.executeLine standaloneEnv ⟨.empty 0, false, none⟩ (ascii " quit\r")
    Router.routeLine 2 (ascii " quit\r") = .reply r.reply r.shouldClose
      ↔ (verbAndKey (ascii " quit\r")).2 = [] :=
  keyless_agree_iff _ _ _ _ (by decide)

/-- A router takes `QUIT now` for a `QUIT`; a server refuses it and keeps the connection. -/
theorem quit_disagrees :
    let r := ExecState.executeLine standaloneEnv ⟨.empty 0, false, none⟩ (ascii "QUIT now")
    (verbAndKey (ascii "QUIT now")).1 = ascii "QUIT"
      ∧ Router.routeLine 2 (ascii "QUIT now") = .reply (ascii "OK") true
      ∧ r.reply = ascii "ERR wrong number of arguments for 'quit' command"
      ∧ r.shouldClose = false := by
  decide

end Keyless

end Redon
