import Redon.Proofs.Connection
import Redon.Proofs.Terms
import Redon.RaftRpc

/-!
# Raft requests over the line protocol

A request is one line, and a Raft node that executes it calls the handler with the term and the
identifier it was made of (`executeLine_request`). The sender reads the reply back as the handler's
term and decision (`send_handled`). What a server outside a Raft cluster sends, or a router in front
of such servers, is an error whose first byte is enough for the sender to give up (`send_error`).
-/

namespace Redon

open Lib RaftNode

namespace Rpc

def verb : Rpc → Bytes
  | .vote => ascii "__RAFT_VOTE__"
  | .append => ascii "__RAFT_APPEND__"

def replyWord : Rpc → Bytes
  | .vote => ascii "__VOTE__"
  | .append => ascii "__APPENDED__"

/-- A request without its newline. -/
def line (kind : Rpc) (c : Config) (term : ℤ) : Bytes :=
  kind.verb ++ 32 :: (decimalInt term ++ 32 :: c.selfId)

/-- The text of a handler's reply. -/
def reply (kind : Rpc) (r : ℤ × Bool) : Bytes := ExecState.raftReply (kind.replyWord ++ [32]) r

end Rpc

section Request

variable {kind : Rpc} {c : Config} {term : ℤ} {e : ExecEnv} {x : ExecState} {node : RaftNode}

theorem isSpace_eq_isBlank (c : UInt8) : isSpace c = isBlank c := by
  rw [Bool.eq_iff_iff]
  simp only [isSpace, isBlank, Bool.or_eq_true, beq_iff_eq]
  tauto

theorem request_eq (kind : Rpc) (c : Config) (term : ℤ) :
    kind.request c term = kind.line c term ++ [10] := by
  cases kind <;> simp [Rpc.request, RaftNode.request, Rpc.line, Rpc.verb, ascii]

theorem solid_decimalInt (n : ℤ) : Solid (decimalInt n) := by
  intro b hb
  rw [isSpace_eq_isBlank]
  exact not_isBlank_decimalInt b hb

theorem verb_cons (kind : Rpc) : ∃ w, kind.verb = 95 :: w ∧ toUpper (95 :: w) = 95 :: w := by
  cases kind <;> exact ⟨_, rfl, by decide⟩

theorem newline_line (hid : Solid c.selfId) : 10 ∉ kind.line c term := by
  have hverb : 10 ∉ kind.verb := by cases kind <;> decide
  have hterm := newline_solid (solid_decimalInt term)
  have hself := newline_solid hid
  simp [Rpc.line, hverb, hterm, hself]

theorem lineTokens_line (kind : Rpc) (term : ℤ) (hne : c.selfId ≠ []) (hid : Solid c.selfId) :
    lineTokens (kind.line c term) = (kind.verb, decimalInt term, c.selfId) := by
  have hterm := solid_decimalInt term
  have hargs : decimalInt term ++ 32 :: c.selfId ≠ [] :=
    List.append_ne_nil_of_left_ne_nil (decimalInt_ne_nil term) _
  have hhead : ∀ b ∈ (decimalInt term ++ 32 :: c.selfId).head?, isSpace b = false := by
    rw [List.head?_append_of_ne_nil _ (decimalInt_ne_nil term)]
    exact head_of_solid hterm
  have hlast : ∀ b ∈ (decimalInt term ++ 32 :: c.selfId).getLast?, isSpace b = false := by
    rw [List.append_cons, List.getLast?_append_of_ne_nil _ hne]
    exact fun b hb => hid b (List.mem_of_getLast? hb)
  have hsplit := nextToken_solid_append hterm (head_of_solid hid)
  have hverb : Solid kind.verb := by cases kind <;> simp [Solid, Rpc.verb, ascii, isSpace]
  obtain ⟨w, hw, hupper⟩ := verb_cons kind
  rw [hw] at hverb
  rw [Rpc.line, hw, lineTokens_verb hverb (by decide) hargs hhead hlast, hsplit, hupper]

/-- A node that executes a request. -/
theorem executeLine_request (hne : c.selfId ≠ []) (hid : Solid c.selfId) :
    x.executeLine e (kind.line c term)
      = x.executeRaft e kind.verb (decimalInt term) c.selfId := by
  have htok := lineTokens_line kind term hne hid
  have hverb : (lineTokens (kind.line c term)).1 ≠ [] := by
    obtain ⟨w, hw, -⟩ := verb_cons kind
    rw [htok, hw]
    exact List.cons_ne_nil _ _
  rw [executeLine_eq, trim_of_verb hverb, if_neg Bool.false_ne_true, htok]
  cases kind <;> rfl

theorem verbAndKey_line (hne : c.selfId ≠ []) (hid : Solid c.selfId) :
    verbAndKey (kind.line c term) = (kind.verb, decimalInt term) := by
  rw [verbAndKey_eq, lineTokens_line kind term hne hid]

theorem verb_ne_info (kind : Rpc) : kind.verb ≠ ascii "INFO" := by
  cases kind <;> decide

/-- A connection's thread executes the request, as no node answers it by itself. -/
theorem answerLine_request (nd : Node) (info : Bytes) (link : Bool) (hne : c.selfId ≠ [])
    (hid : Solid c.selfId) : nd.answerLine e info link (kind.line c term)
      = ExecState.executeRaft e ⟨nd.store, link, nd.raft⟩ kind.verb (decimalInt term) c.selfId := by
  rw [Node.answerLine, verbAndKey_line hne hid, if_neg (verb_ne_info kind),
    executeLine_request hne hid]

/-- A Raft node answers for the handler, with the term and the identifier of the sender. -/
theorem executeRaft_eq (hterm : InLong term) (hx : x.raft = some node) :
    x.executeRaft e kind.verb (decimalInt term) c.selfId
      = { x with raft := some (kind.handle e.raftConfig node term c.selfId e.tick).2 }.answer
        (kind.reply (kind.handle e.raftConfig node term c.selfId e.tick).1) := by
  simp only [ExecState.executeRaft, hx, stol_decimalInt hterm]
  cases kind <;> rfl

theorem executeRaft_outside (hx : x.raft = none) (verb key rest : Bytes) :
    x.executeRaft e verb key rest
      = x.answer (ascii "ERR this node is not part of a Raft cluster") := by
  simp only [ExecState.executeRaft, hx]

end Request

section Reply

variable {kind : Rpc} {c : Config} {term : ℤ} {net : Net} {peer host sent : Bytes} {port : ℕ}

theorem sendRpc_eq {word replyWord : Bytes} (hpeer : splitHostPort peer = some (host, port))
    (hnet : net host port (request word c term) = some sent) :
    sendRpc net c peer term word replyWord
      = ((recvLine [] sent).map fun reply => (IStream.ofBytes reply).tokens).bind
        (decode replyWord) := by
  simp only [sendRpc, hpeer, rpc, hnet]

theorem send_eq (hpeer : splitHostPort peer = some (host, port))
    (hnet : net host port (kind.request c term) = some sent) : kind.send net c peer term
      = ((recvLine [] sent).map fun reply => (IStream.ofBytes reply).tokens).bind
        (decode kind.replyWord) := by
  cases kind <;> exact sendRpc_eq hpeer hnet

theorem recvLine_text : ∀ {t line : Bytes}, 10 ∉ t → line.length + t.length ≤ kMaxLine →
    ∀ q, RaftNode.recvLine line (t ++ 10 :: q) = some (line ++ t)
  | [], line, _, _, q => by simp [RaftNode.recvLine]
  | b :: t, line, ht, hlen, q => by
    simp only [List.mem_cons, not_or] at ht
    simp only [List.length_cons] at hlen
    have hlt : ¬ kMaxLine ≤ line.length := by omega
    have hlen' : (line ++ [b]).length + t.length ≤ kMaxLine := by
      simp only [List.length_append, List.length_singleton]
      omega
    have hrec := recvLine_text ht.2 hlen' q
    simp only [List.cons_append, RaftNode.recvLine, if_neg (Ne.symm ht.1), if_neg hlt, hrec,
      List.append_assoc, List.nil_append]

/-- What was read already begins the line. -/
theorem recvLine_front : ∀ {sent line reply : Bytes}, RaftNode.recvLine line sent = some reply →
    line <+: reply
  | [], _, _, h => by simp [RaftNode.recvLine] at h
  | b :: sent, line, reply, h => by
    rw [RaftNode.recvLine] at h
    split_ifs at h
    · rw [Option.some.inj h]
    · exact (List.prefix_append line [b]).trans (recvLine_front h)

theorem reply_eq (kind : Rpc) (r : ℤ × Bool) : kind.reply r
    = kind.replyWord ++ 32 :: (decimalInt r.1 ++ 32 :: if r.2 then [49] else [48]) := by
  cases hr : r.2 <;> simp [Rpc.reply, ExecState.raftReply, hr, ascii]

/-- The sender reads the term and the flag back. -/
theorem decode_reply {r : ℤ × Bool} (hr : InLong r.1) :
    decode kind.replyWord (IStream.ofBytes (kind.reply r)).tokens = some r := by
  have hword : kind.replyWord ≠ [] ∧ ∀ b ∈ kind.replyWord, isBlank b = false := by
    cases kind <;> simp [Rpc.replyWord, ascii, isBlank]
  have hflag : (if r.2 then [49] else [48] : Bytes) ≠ []
      ∧ ∀ b ∈ (if r.2 then [49] else [48] : Bytes), isBlank b = false := by
    cases r.2 <;> simp [isBlank]
  rw [reply_eq, IStream.ofBytes, IStream.tokens_append hword.1 hword.2 rfl,
    IStream.tokens_append (decimalInt_ne_nil _) not_isBlank_decimalInt rfl,
    IStream.tokens_last hflag.1 hflag.2]
  simp only [decode, ne_eq, not_true_eq_false, if_false, stol_decimalInt hr, Option.map_some]
  obtain ⟨n, b⟩ := r
  cases b <;> rfl

theorem newline_reply (kind : Rpc) (r : ℤ × Bool) : 10 ∉ kind.reply r := by
  refine newline_raftReply ?_ r
  cases kind <;> decide

theorem length_reply {r : ℤ × Bool} (hr : InLong r.1) : (kind.reply r).length ≤ kMaxLine := by
  have hterm := length_decimalInt hr
  have hword : kind.replyWord.length ≤ 12 := by cases kind <;> decide
  have hflag : (if r.2 then [49] else [48] : Bytes).length = 1 := by cases r.2 <;> rfl
  simp only [reply_eq, List.length_append, List.length_cons, hflag, kMaxLine]
  omega

theorem send_reply {r : ℤ × Bool} (hr : InLong r.1) (hpeer : splitHostPort peer = some (host, port))
    (hnet : net host port (kind.request c term) = some (kind.reply r ++ [10])) :
    kind.send net c peer term = some r := by
  have hread : RaftNode.recvLine [] (kind.reply r ++ [10]) = some (kind.reply r) :=
    recvLine_text (newline_reply kind r) (by simpa using length_reply hr) []
  rw [send_eq hpeer hnet, hread]
  exact decode_reply hr

/-- What is sent is empty or begins as an error does. -/
def Erroneous (sent : Bytes) : Prop := ∀ b ∈ sent.head?, b = 69

theorem send_error (hsent : Erroneous sent) (hpeer : splitHostPort peer = some (host, port))
    (hnet : net host port (kind.request c term) = some sent) :
    kind.send net c peer term = none := by
  rw [send_eq hpeer hnet]
  rcases sent with _ | ⟨b, sent⟩
  · rfl
  obtain rfl : b = 69 := hsent b rfl
  rcases hread : RaftNode.recvLine [] (69 :: sent) with _ | reply
  · rfl
  have hrest : RaftNode.recvLine [69] sent = some reply := by
    simpa [RaftNode.recvLine, kMaxLine] using hread
  obtain ⟨rest, rfl⟩ := recvLine_front hrest
  obtain ⟨t, ts, htok⟩ := IStream.tokens_head (c := 69) rfl rest 0
  have hword : 69 :: t ≠ kind.replyWord := by
    cases kind <;> simp [Rpc.replyWord, ascii]
  change decode kind.replyWord (IStream.tokens ⟨69 :: rest, 0, false, false⟩) = none
  rw [htok]
  rcases ts with _ | ⟨_, _ | ⟨_, _⟩⟩
  · rfl
  · rfl
  · simp only [decode, ne_eq, hword, not_false_eq_true, if_true]

end Reply

section Outside

/-- What comes back for a request from outside any Raft cluster: from a server, in whatever chunks
the request arrives, or from a router, which relays what its shards send. Of all that, what has
arrived may be less. -/
inductive Outside (request : Bytes) : Bytes → Prop
  | server {nd : Node} (hraft : nd.raft = none) (e : ExecEnv) (info : Bytes) {chunks : List Bytes}
    (hc : chunks.flatten = request) :
    Outside request (nd.receiveAll e info .fresh chunks).2.sent
  | router (shards : List Bytes) {world : ℕ → World}
    (hshard : ∀ n sent, (world n).answered = some sent → Outside request sent)
    {chunks : List Bytes} (hc : chunks.flatten = request) :
    Outside request (Handler.handleClient (some shards) world chunks).sent
  | cut {sent rest : Bytes} (h : Outside request (sent ++ rest)) : Outside request sent

variable {kind : Rpc} {c : Config} {term : ℤ} {sent rest reply : Bytes}

theorem Erroneous.left (h : Erroneous (sent ++ rest)) : Erroneous sent := by
  intro b hb
  refine h b ?_
  rw [List.head?_append, Option.mem_def.1 hb]
  rfl

theorem erroneous_append (h : sent.head? = some 69) (rest : Bytes) : Erroneous (sent ++ rest) := by
  intro b hb
  rw [List.head?_append, h] at hb
  exact (Option.some.inj hb).symm

theorem erroneous_tooLong : Erroneous (ascii "ERR line too long" ++ [10]) :=
  erroneous_append rfl [10]

theorem server_erroneous {nd : Node} {e : ExecEnv} {info : Bytes} {chunks : List Bytes}
    (hne : c.selfId ≠ []) (hid : Solid c.selfId) (hraft : nd.raft = none)
    (hc : chunks.flatten = kind.request c term) :
    Erroneous (nd.receiveAll e info .fresh chunks).2.sent := by
  rw [request_eq] at hc
  rcases receiveAll_one e info (newline_line hid) hc nd with ⟨b, h⟩ | ⟨-, b, h⟩ <;> rw [h]
  · have hsent : ((nd.handleLine e info .fresh (kind.line c term)).2.put b).sent
        = (nd.answerLine e info false (kind.line c term)).reply ++ [10] := rfl
    rw [hsent, answerLine_request nd info false hne hid, executeRaft_outside hraft]
    exact erroneous_append rfl [10]
  · exact erroneous_tooLong

theorem head_recvLine {sent reply : Bytes} (hsent : sent.head? = some 69)
    (h : Router.recvLine sent = some reply) : reply.head? = some 69 := by
  obtain ⟨t, m, rfl, -, -, rfl⟩ := readLine_eq_some.1 h
  obtain ⟨rest, ht⟩ := List.head?_eq_some_iff.1 hsent
  -- the line is not empty, as the stream does not begin with its newline
  cases t with
  | nil => cases (List.cons.inj ht).1
  | cons b t =>
    obtain rfl := (List.cons.inj ht).1
    have hfirst : [69] <+: 69 :: t := ⟨t, rfl⟩
    obtain ⟨t', ht'⟩ := prefix_dropCr hfirst (by decide)
    rw [← ht']
    rfl

theorem head_forward {shards : List Bytes} {answered : Option Bytes}
    (h : ∀ sent, answered = some sent → Erroneous sent) (i : ℕ) :
    (Router.forward shards i answered).head? = some 69 := by
  rcases forward_cases shards i answered with ⟨text, he, -⟩ | ⟨-, sent, -, -, hsent, hread⟩
  · rw [he]
    rfl
  · rcases sent with _ | ⟨b, sent⟩
    · cases hread
    · obtain rfl : b = 69 := h _ hsent b rfl
      exact head_recvLine rfl hread

/-- A router forwards a request, as its key is the term. -/
theorem respond_request (kind : Rpc) (term : ℤ) (shards : List Bytes) (w : World) (link : Bool)
    (hne : c.selfId ≠ []) (hid : Solid c.selfId) : ∃ i,
      (w.respond (some shards) link (kind.line c term)).reply
        = Router.forward shards i w.answered := by
  have hroute : ∃ i, Router.routeLine shards.length (kind.line c term) = .forward i := by
    have hverb : kind.verb ≠ [] ∧ ¬ (kind.verb = ascii "QUIT" ∨ kind.verb = ascii "EXIT")
        ∧ kind.verb ≠ ascii "PING" := by
      cases kind <;> decide
    rw [Router.routeLine, verbAndKey_line hne hid]
    simp only [if_neg hverb.1, if_neg hverb.2.1, if_neg hverb.2.2, if_neg (decimalInt_ne_nil term)]
    exact ⟨_, rfl⟩
  obtain ⟨i, hi⟩ := hroute
  refine ⟨i, ?_⟩
  rw [World.respond, verbAndKey_line hne hid, if_neg (verb_ne_info kind)]
  simp only [hi]

theorem router_erroneous {shards : List Bytes} {world : ℕ → World} {chunks : List Bytes}
    (hne : c.selfId ≠ []) (hid : Solid c.selfId)
    (hshard : ∀ n sent, (world n).answered = some sent → Erroneous sent)
    (hc : chunks.flatten = kind.request c term) :
    Erroneous (Handler.handleClient (some shards) world chunks).sent := by
  rw [request_eq] at hc
  rw [Handler.handleClient]
  rcases (Handler.service (some shards) world).receiveAll_line 10 kMaxLineLength
    (s := Handler.accepted) (newline_line hid) hc rfl with h | ⟨-, h⟩ <;> rw [h]
  · obtain ⟨i, hi⟩ := respond_request kind term shards (world 0) false hne hid
    have hsent : ((Handler.service (some shards) world).handle .accepted (kind.line c term)).sent
        = ((world 0).respond (some shards) false (kind.line c term)).reply ++ [10] := rfl
    rw [hsent, hi]
    exact erroneous_append (head_forward (hshard 0) i) [10]
  · exact erroneous_tooLong

theorem Outside.erroneous (hne : c.selfId ≠ []) (hid : Solid c.selfId)
    (h : Outside (kind.request c term) sent) : Erroneous sent := by
  induction h with
  | server hraft e info hc => exact server_erroneous hne hid hraft hc
  | router shards _ hc ih => exact router_erroneous hne hid ih hc
  | cut _ ih => exact ih.left

end Outside

section Survive

variable {kind : Rpc} {c rc : Config} {term : ℤ} {node : RaftNode} {net : Net} {peer host : Bytes}
  {port : ℕ}

/-- The reply carries the term the handler leaves. -/
theorem handle_reply (kind : Rpc) (rc : Config) (node : RaftNode) (term : ℤ) (id : Bytes)
    (t : Tick) :
    (kind.handle rc node term id t).1.1 = (kind.handle rc node term id t).2.currentTerm := by
  cases kind with
  | vote =>
    simp only [Rpc.handle, handleRequestVote]
    split_ifs <;> rfl
  | append =>
    simp only [Rpc.handle, handleAppendEntries]
    split_ifs <;> rfl

theorem handle_rises (hterm : InLong term) (id : Bytes) (t : Tick) :
    Rises node (kind.handle rc node term id t).2 := by
  cases kind with
  | vote => exact rises_of_max hterm (handleRequestVote_term id)
  | append => exact rises_of_max hterm (handleAppendEntries_term id)

theorem send_handled {id : Bytes} {t : Tick} (hterm : InLong term)
    (hnode : InLong node.currentTerm) (hpeer : splitHostPort peer = some (host, port))
    (hnet : net host port (kind.request c term)
      = some (kind.reply (kind.handle rc node term id t).1 ++ [10])) :
    kind.send net c peer term = some ((kind.handle rc node term id t).2.currentTerm,
      (kind.handle rc node term id t).1.2) := by
  have hreply := handle_reply kind rc node term id t
  rw [← hreply]
  refine send_reply ?_ hpeer hnet
  rw [hreply]
  exact (handle_rises hterm id t).2 hnode

/-- Through a whole connection of a Raft node, in any chunks: the request is served and its reply
comes back, or it is refused for its length and the sender gets nothing. -/
theorem send_served {nd : Node} {e : ExecEnv} {info : Bytes} {chunks : List Bytes}
    (hterm : InLong term) (hne : c.selfId ≠ []) (hid : Solid c.selfId)
    (hraft : nd.raft = some node) (hnode : InLong node.currentTerm)
    (hc : chunks.flatten = kind.request c term) (hpeer : splitHostPort peer = some (host, port))
    (hnet : net host port (kind.request c term)
      = some (nd.receiveAll e info .fresh chunks).2.sent) :
    ((nd.receiveAll e info .fresh chunks).1
        = ⟨nd.store, some (kind.handle e.raftConfig node term c.selfId e.tick).2⟩
      ∧ kind.send net c peer term
        = some ((kind.handle e.raftConfig node term c.selfId e.tick).2.currentTerm,
          (kind.handle e.raftConfig node term c.selfId e.tick).1.2))
    ∨ (kMaxLineLength + 1 < (kind.request c term).length
      ∧ (nd.receiveAll e info .fresh chunks).1 = nd ∧ kind.send net c peer term = none) := by
  rw [request_eq] at hc
  rcases receiveAll_one e info (newline_line hid) hc nd with ⟨b, h⟩ | ⟨hlen, b, h⟩ <;>
    rw [h] at hnet ⊢
  · have hanswer : nd.answerLine e info false (kind.line c term) = _ :=
      (answerLine_request nd info false hne hid).trans (executeRaft_eq hterm hraft)
    refine .inl ⟨?_, ?_⟩
    · change Node.mk (nd.answerLine e info false _).store (nd.answerLine e info false _).raft = _
      rw [hanswer]
      rfl
    · have hsent : ((nd.handleLine e info .fresh (kind.line c term)).2.put b).sent
          = (nd.answerLine e info false (kind.line c term)).reply ++ [10] := rfl
      rw [hsent, hanswer] at hnet
      exact send_handled hterm hnode hpeer hnet
  · refine .inr ⟨?_, rfl, ?_⟩
    · rw [request_eq, List.length_append, List.length_singleton]
      omega
    · exact send_error erroneous_tooLong hpeer hnet

/-- A request made of any term and any identifier without white space is one line, which a Raft node
executes as the handler's call with just these. From the reply the sender has the term the handler
leaves and its decision, also when the request goes through a connection of the node in any chunks,
unless the connection refuses a line over its limit. A reply from outside a Raft cluster gives the
sender nothing. -/
theorem requests_survive (kind : Rpc) (c : Config) (term : ℤ) (hterm : InLong term)
    (hne : c.selfId ≠ []) (hid : Solid c.selfId) :
    (∃ line, splitLine (kind.request c term) = some (line, [])
      ∧ ∀ (e : ExecEnv) (x : ExecState) (node : RaftNode), x.raft = some node →
        x.executeLine e line
          = { x with raft := some (kind.handle e.raftConfig node term c.selfId e.tick).2 }.answer
            (kind.reply (kind.handle e.raftConfig node term c.selfId e.tick).1))
    ∧ ∀ (net : Net) (peer host : Bytes) (port : ℕ), splitHostPort peer = some (host, port) →
      (∀ (rc : Config) (node : RaftNode) (t : Tick), InLong node.currentTerm →
        net host port (kind.request c term)
          = some (kind.reply (kind.handle rc node term c.selfId t).1 ++ [10]) →
        kind.send net c peer term = some ((kind.handle rc node term c.selfId t).2.currentTerm,
          (kind.handle rc node term c.selfId t).1.2))
      ∧ (∀ (nd : Node) (node : RaftNode) (e : ExecEnv) (info : Bytes) (chunks : List Bytes),
        nd.raft = some node → InLong node.currentTerm →
        chunks.flatten = kind.request c term →
        net host port (kind.request c term)
          = some (nd.receiveAll e info .fresh chunks).2.sent →
        ((nd.receiveAll e info .fresh chunks).1
            = ⟨nd.store, some (kind.handle e.raftConfig node term c.selfId e.tick).2⟩
          ∧ kind.send net c peer term
            = some ((kind.handle e.raftConfig node term c.selfId e.tick).2.currentTerm,
              (kind.handle e.raftConfig node term c.selfId e.tick).1.2))
        ∨ (kMaxLineLength + 1 < (kind.request c term).length
          ∧ (nd.receiveAll e info .fresh chunks).1 = nd ∧ kind.send net c peer term = none))
      ∧ ∀ sent, Outside (kind.request c term) sent →
        net host port (kind.request c term) = some sent → kind.send net c peer term = none := by
  refine ⟨⟨kind.line c term, ?_, fun e x node hx => ?_⟩,
    fun net peer host port hpeer => ⟨?_, ?_, ?_⟩⟩
  · rw [request_eq]
    exact splitLine_line (newline_line hid) []
  · rw [executeLine_request hne hid]
    exact executeRaft_eq hterm hx
  · exact fun rc node t hnode hnet => send_handled hterm hnode hpeer hnet
  · exact fun nd node e info chunks hraft hnode hc hnet =>
      send_served hterm hne hid hraft hnode hc hpeer hnet
  · exact fun sent hout hnet => send_error (hout.erroneous hne hid) hpeer hnet

/-- The least term of all, refused by a node in term five. -/
theorem requests_survive_least :
    Rpc.vote.send (fun _ _ _ => some (ascii "__VOTE__ 5 0\n")) ⟨ascii "a:1", [], 100, 400, 800⟩
      (ascii "b:2") (-9223372036854775808) = some (5, false) :=
  ((requests_survive .vote ⟨ascii "a:1", [], 100, 400, 800⟩ (-9223372036854775808) (by decide)
    (by decide) (by simp [Solid, ascii, isSpace])).2 (fun _ _ _ => some (ascii "__VOTE__ 5 0\n"))
    (ascii "b:2") (ascii "b") 2 (by decide)).1 ⟨ascii "b:2", [], 100, 400, 800⟩
    ⟨.follower, 5, [], [], 0, 0⟩ ⟨0, 0⟩ (by decide) (by decide)

end Survive

end Redon
