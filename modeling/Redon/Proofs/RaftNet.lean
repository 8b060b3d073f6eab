import Redon.Proofs.Leadership
import Redon.Proofs.RaftRpc
import Redon.Proofs.Server
import Redon.RaftNet
import Redon.Proofs.Socket

/-!
# The wire-level cluster is the cluster

Every step on the wire is some steps of the cluster, with one of its connections for each call
(`Sim.step`). What a connection on the wire carries is a part of the request, the handler's reply
to it, or an error that the caller takes for no reply (`Carries`), so a caller reads a term and a
flag only if they are the handler's (`Carries.read`). What holds of every run of the cluster
therefore holds of the bytes.
-/

namespace Redon

open Lib RaftNode

theorem splitHostPort_address {host : Bytes} {port : ℕ} (hhost : host ≠ []) (hlo : 1 ≤ port)
    (hhi : port ≤ 65535) :
    splitHostPort (host ++ ascii ":" ++ decimal port) = some (host, port) := by
  have hcolon : (58 : UInt8) ∉ (decimal port).reverse := by
    rw [List.mem_reverse]
    intro h
    cases isDigit_of_mem_decimal h
  have hrev : (host ++ ascii ":" ++ decimal port).reverse
      = (decimal port).reverse ++ 58 :: host.reverse := by
    simp [ascii]
  obtain ⟨htake, hdrop⟩ := LineService.takeWhile_line hcolon host.reverse
  have hport : stoi (decimal port) = some (port : ℤ) := by
    have h := parseInt_digits (-2 ^ 31) (2 ^ 31 - 1) (decimal_ne_nil port)
      (fun c hc => isDigit_of_mem_decimal hc)
    rw [decimalValue_decimal] at h
    exact h (by omega) (by omega)
  have hmem : (58 : UInt8) ∈ host ++ ascii ":" ++ decimal port := by simp [ascii]
  have hrange : ¬ ((port : ℤ) < 1 ∨ 65535 < (port : ℤ)) := by omega
  simp only [splitHostPort, Router.splitHostPort, hrev, htake, hdrop, List.reverse_reverse, hport,
    hmem, hhost, decimal_ne_nil, not_true_eq_false, false_or, if_false, if_neg hrange,
    Int.toNat_natCast]

section Read

variable {kind kind' : Rpc} {sent : Bytes} {r : ℤ × Bool}

theorem read_eq (kind : Rpc) (reply : Bytes) :
    kind.read reply = decode kind.replyWord (IStream.ofBytes reply).tokens := by
  cases kind <;> rfl

/-- What a caller reads is what `send` comes to. -/
theorem bind_read (kind : Rpc) (sent : Bytes) : (recvLine [] sent).bind kind.read
    = kind.send (fun _ _ _ => some sent) ⟨[], [], 0, 0, 0⟩ (ascii "n:1") 0 := by
  rw [send_eq (show splitHostPort (ascii "n:1") = some (ascii "n", 1) by decide) rfl,
    Option.bind_map]
  congr 1
  funext reply
  exact read_eq kind reply

theorem read_erroneous (h : Erroneous sent) : (recvLine [] sent).bind kind.read = none := by
  rw [bind_read]
  exact send_error h (show splitHostPort (ascii "n:1") = some (ascii "n", 1) by decide) rfl

theorem tokens_reply (kind : Rpc) (r : ℤ × Bool) : ∃ flag,
    (IStream.ofBytes (kind.reply r)).tokens = [kind.replyWord, decimalInt r.1, flag] := by
  have hword : kind.replyWord ≠ [] ∧ ∀ b ∈ kind.replyWord, isBlank b = false := by
    cases kind <;> simp [Rpc.replyWord, ascii, isBlank]
  have hflag : (if r.2 then [49] else [48] : Bytes) ≠ []
      ∧ ∀ b ∈ (if r.2 then [49] else [48] : Bytes), isBlank b = false := by
    cases r.2 <;> simp [isBlank]
  rw [reply_eq, IStream.ofBytes, IStream.tokens_append hword.1 hword.2 rfl,
    IStream.tokens_append (decimalInt_ne_nil _) not_isBlank_decimalInt rfl,
    IStream.tokens_last hflag.1 hflag.2]
  exact ⟨_, rfl⟩

/-- A caller reads a handler's reply as what it is, and only if it asked for it. -/
theorem read_reply {x : ℤ × Bool} (hr : InLong r.1)
    (h : (recvLine [] (kind'.reply r ++ [10])).bind kind.read = some x) : x = r := by
  have hline : recvLine [] (kind'.reply r ++ [10]) = some (kind'.reply r) :=
    recvLine_text (newline_reply kind' r) (by simpa using length_reply hr) []
  rw [hline, Option.bind_some, read_eq] at h
  by_cases hk : kind = kind'
  · rw [hk, decode_reply hr] at h
    exact (Option.some.inj h).symm
  · have hword : kind'.replyWord ≠ kind.replyWord := by
      cases kind <;> cases kind' <;> first | exact absurd rfl hk | decide
    obtain ⟨flag, htok⟩ := tokens_reply kind' r
    rw [htok, decode, if_pos hword] at h
    cases h

end Read

/-- The term of the loop a thread is in. -/
def Thread.term? : Thread → Option ℤ
  | .asking term _ _ => some term
  | .awaitVote _ _ term _ _ => some term
  | .beating term _ => some term
  | .awaitAppend _ term _ => some term
  | _ => none

/-- The peers that a thread has yet to call. -/
def Thread.rest : Thread → List Bytes
  | .asking _ _ rest => rest
  | .awaitVote _ _ _ _ rest => rest
  | .beating _ rest => rest
  | .awaitAppend _ _ rest => rest
  | _ => []

namespace Cluster

variable {n : ℕ} {C : Cluster n}

/-- The nodes listen at addresses that can be dialled. -/
structure Addressed (C : Cluster n) : Prop where
  host : ∀ i, C.host i ≠ []
  solid : ∀ i, Solid (C.host i)
  port : ∀ i, 1 ≤ C.port i ∧ C.port i ≤ 65535

theorem Addressed.splitHostPort (hC : C.Addressed) (i : Fin n) :
    RaftNode.splitHostPort (C.selfId i) = some (C.host i, C.port i) :=
  splitHostPort_address (hC.host i) (hC.port i).1 (hC.port i).2

theorem Addressed.selfId (hC : C.Addressed) (i : Fin n) : Solid (C.selfId i) := by
  intro b hb
  simp only [Cluster.selfId, List.mem_append] at hb
  rcases hb with (hb | hb) | hb
  · exact hC.solid i b hb
  · have hcolon : ∀ b ∈ ascii ":", isSpace b = false := by simp [ascii, isSpace]
    exact hcolon b hb
  · rw [isSpace_eq_isBlank]
    exact not_isBlank_of_isDigit (isDigit_of_mem_decimal hb)

/-- What a call's connection on the wire is, for a connection of the cluster. -/
inductive Carries (C : Cluster n) : Conn → Option (Dialled n) → Prop
  | unmade {k : Conn} : k.reply = none → Carries C k none
  | waiting {i j : Fin n} {kind : Rpc} {term : ℤ} {x : Dialled n} : InLong term →
      x.acceptor = j → x.Asks [] (kind.line (C.config i) term) →
      Carries C ⟨kind, C.selfId j, term, C.selfId i, none⟩ (some x)
  | refused {k : Conn} {x : Dialled n} : k.reply = none → Erroneous x.client.sent →
      x.client.closed = true → Carries C k (some x)
  | served {k : Conn} {x : Dialled n} {r : ℤ × Bool} : k.reply = some r → InLong r.1 →
      x.Drained → x.client.sent = k.kind.reply r ++ [10] → Carries C k (some x)

theorem Carries.read {k : Conn} {x : Option (Dialled n)} (h : C.Carries k x) {kind : Rpc}
    {r : ℤ × Bool}
    (hr : (x.bind fun x => (recvLine [] x.client.sent).bind kind.read) = some r) :
    k.reply = some r ∧ InLong r.1 := by
  cases h with
  | unmade => cases hr
  | waiting _ _ hasks =>
    rw [Option.bind_some, hasks.sent, read_erroneous (by simp [Erroneous])] at hr
    cases hr
  | refused _ he _ =>
    rw [Option.bind_some, read_erroneous he] at hr
    cases hr
  | served hk hlong _ hs =>
    rw [Option.bind_some, hs] at hr
    obtain rfl := read_reply hlong hr
    exact ⟨hk, hlong⟩

/-- The state of the cluster that a state on the wire stands for, given its connections. -/
def abs (s : RaftNet n) (conns : List Conn) : State n := ⟨s.node, s.thread, conns⟩

/-- A thread is in a loop of a term that is a `long`, over nodes of the cluster. -/
def Loops (C : Cluster n) (th : Thread) : Prop :=
  (∀ term ∈ th.term?, InLong term) ∧ ∀ p ∈ th.rest, ∃ j, C.selfId j = p

structure Sim (C : Cluster n) (s : RaftNet n) (conns : List Conn) : Prop where
  length : s.calls.length = conns.length
  calls : ∀ (c : ℕ) k x, conns[c]? = some k → s.calls[c]? = some x → C.Carries k x
  long : ∀ i, InLong (s.node i).currentTerm
  loops : ∀ i, C.Loops (s.thread i)

section Step

variable {s s' : RaftNet n} {conns : List Conn} {i : Fin n} {node : RaftNode} {th : Thread} {c : ℕ}
  {k : Conn} {x : Dialled n}

/-- A thread that goes through no peers. -/
theorem loops_of_none (hterm : th.term? = none) (hrest : th.rest = []) : C.Loops th := by
  simp [Loops, hterm, hrest]

theorem loops_idle : C.Loops .idle := loops_of_none rfl rfl

theorem Sim.move (h : C.Sim s conns) (hnode : InLong node.currentTerm) (hth : C.Loops th) :
    C.Sim (s.set i node th) conns := by
  refine ⟨h.length, h.calls, fun j => ?_, fun j => ?_⟩ <;> by_cases hj : j = i
  · subst hj
    simpa only [RaftNet.set, Function.update_self] using hnode
  · simpa only [RaftNet.set, Function.update_of_ne hj] using h.long j
  · subst hj
    simpa only [RaftNet.set, Function.update_self] using hth
  · simpa only [RaftNet.set, Function.update_of_ne hj] using h.loops j

/-- A section of node `i` keeps its term a `long`. -/
theorem Sim.section (h : C.Sim s conns) (hsec : Section (C.config i) (s.node i) node)
    (hth : C.Loops th) : C.Sim (s.set i node th) conns :=
  h.move (hsec.rises.2 (h.long i)) hth

theorem Sim.call (h : C.Sim s conns) {x : Option (Dialled n)} (hk : C.Carries k x) :
    C.Sim { s with calls := s.calls ++ [x] } (conns ++ [k]) := by
  refine ⟨by simp [h.length], fun c k' x' hk' hx' => ?_, h.long, h.loops⟩
  simp only at hx'
  rcases lt_or_ge c conns.length with hc | hc
  · rw [List.getElem?_append_left hc] at hk'
    rw [List.getElem?_append_left (h.length ▸ hc)] at hx'
    exact h.calls c k' x' hk' hx'
  · rw [List.getElem?_append_right hc] at hk'
    rw [List.getElem?_append_right (h.length ▸ hc)] at hx'
    obtain rfl := List.mem_singleton.1 (List.mem_of_getElem? hk')
    obtain rfl := List.mem_singleton.1 (List.mem_of_getElem? hx')
    exact hk

/-- The connection of the cluster that a call's connection stands for. -/
theorem Sim.carried (h : C.Sim s conns) (hx : s.socket c = some x) :
    ∃ k, conns[c]? = some k ∧ C.Carries k (some x) := by
  have hcall : s.calls[c]? = some (some x) := Option.join_eq_some_iff.1 hx
  obtain ⟨hlt, -⟩ := List.getElem?_eq_some_iff.1 hcall
  obtain ⟨k, hk⟩ : ∃ k, conns[c]? = some k :=
    ⟨_, List.getElem?_eq_getElem (h.length ▸ hlt)⟩
  exact ⟨k, hk, h.calls c k _ hk hcall⟩

theorem Sim.setSocket (h : C.Sim s conns) (hk : C.Carries k (some x)) :
    C.Sim (s.setSocket c x) (conns.set c k) := by
  refine ⟨by simp [RaftNet.setSocket, h.length], fun c' k' x' hk' hx' => ?_, h.long, h.loops⟩
  simp only [RaftNet.setSocket] at hx'
  rw [List.getElem?_set] at hk' hx'
  split_ifs at hk' hx' with hc hlt
  · obtain rfl := Option.some.inj hk'
    obtain rfl := Option.some.inj hx'
    exact hk
  · exact h.calls c' k' x' hk' hx'

/-- A change of a connection that the cluster does not see. -/
theorem Sim.keep (h : C.Sim s conns) (hc : conns[c]? = some k) (hk : C.Carries k (some x)) :
    C.Sim (s.setSocket c x) conns := by
  have hset := h.setSocket (c := c) hk
  obtain ⟨hlt, rfl⟩ := List.getElem?_eq_some_iff.1 hc
  rwa [List.set_getElem_self] at hset

theorem Sim.receive (h : C.Sim s conns) (hx : s.socket c = some x) {m : ℕ} {y : Socket}
    (hy : x.receive m = some y) : C.Sim (s.setSocket c { x with toSocket := y }) conns := by
  obtain ⟨k, hc, hk⟩ := h.carried hx
  refine h.keep hc ?_
  cases hk with
  | waiting hterm hj hasks =>
    rcases hasks.receive hy with ⟨hasks, -⟩ | ⟨hsent, hclosed, -⟩
    · exact .waiting hterm hj hasks
    · refine .refused rfl ?_ hclosed
      change Erroneous y.client.sent
      rw [hsent]
      exact erroneous_tooLong
  | refused _ _ hclosed =>
    simp [Socket.receive, hclosed] at hy
  | served _ _ hdrained _ =>
    rw [hdrained.receive] at hy
    cases hy

theorem Sim.hangup (h : C.Sim s conns) (hx : s.socket c = some x) :
    C.Sim (s.setSocket c { x with toSocket := x.hangup }) conns := by
  obtain ⟨k, hc, hk⟩ := h.carried hx
  refine h.keep hc ?_
  cases hk with
  | waiting hterm hj hasks => exact .waiting hterm hj hasks.hangup
  | refused hk he _ => exact .refused hk he rfl
  | served hk hr hdrained hsent => exact .served hk hr hdrained.hangup hsent

theorem handle_eq (kind : Rpc) (j : Fin n) (node : RaftNode) (term : ℤ) (id : Bytes) (t : Tick) :
    C.handle kind j node term id t = kind.handle (C.config j) node term id t := by
  cases kind <;> rfl

theorem Sim.handled (h : C.Sim s conns) (kind : Rpc) (j : Fin n) {term : ℤ} (hterm : InLong term)
    (id : Bytes) (t : Tick) :
    C.Sim (s.set j (C.handle kind j (s.node j) term id t).2 (s.thread j)) conns := by
  refine h.move ?_ (h.loops j)
  rw [handle_eq]
  exact (handle_rises hterm id t).2 (h.long j)

/-- The thread of a connection that has a whole request. -/
theorem handleLine_request {kind : Rpc} {term : ℤ} (hC : C.Addressed) (i j : Fin n)
    (hterm : InLong term) (store : Storage) (node : RaftNode) (io : LineIo) :
    Node.handleLine (C.env j io) (Metrics.infoText io.stats) ⟨store, some node⟩
        ⟨[], false, [], false⟩ (kind.line (C.config i) term)
      = (⟨store, some (C.handle kind j node term (C.selfId i) io.tick).2⟩,
        ⟨[], false,
          kind.reply (C.handle kind j node term (C.selfId i) io.tick).1 ++ [10], false⟩) := by
  have hanswer : Node.answerLine (C.env j io) (Metrics.infoText io.stats) ⟨store, some node⟩ false
      (kind.line (C.config i) term) = _ :=
    (answerLine_request _ _ _ (C.selfId_ne_nil i) (hC.selfId i)).trans (executeRaft_eq hterm rfl)
  simp only [Node.handleLine, hanswer, handle_eq]
  rfl

theorem step_serve {kind : Rpc} {j : Fin n} {term : ℤ} {id : Bytes}
    (hc : conns[c]? = some ⟨kind, C.selfId j, term, id, none⟩) (t : Tick) :
    C.step (abs s conns) (.serve c j t)
      = some ⟨Function.update s.node j (C.handle kind j (s.node j) term id t).2, s.thread,
        conns.set c
          ⟨kind, C.selfId j, term, id, some (C.handle kind j (s.node j) term id t).1⟩⟩ := by
  simp only [Cluster.step, abs, hc, and_self, if_true, State.set, Function.update_eq_self]

/-- The thread of a call's connection executes a line only if it is the whole request. -/
theorem Sim.executed (hC : C.Addressed) (h : C.Sim s conns) {io : LineIo}
    (hs : C.execute s c io = some s') :
    ∃ i j kind term, InLong term ∧ conns[c]? = some ⟨kind, C.selfId j, term, C.selfId i, none⟩
      ∧ s' = { s.setSocket c ⟨⟨[], ⟨[], false, kind.reply
          (C.handle kind j (s.node j) term (C.selfId i) io.tick).1 ++ [10], false⟩⟩, j⟩ with
        node := Function.update s.node j
          (C.handle kind j (s.node j) term (C.selfId i) io.tick).2 } := by
  obtain ⟨x, hx, hs⟩ := Option.bind_eq_some_iff.1 hs
  obtain ⟨⟨line, client⟩, hline, rfl⟩ := Option.map_eq_some_iff.1 hs
  obtain ⟨k, hc, hk⟩ := h.carried hx
  cases hk with
  | refused _ _ hclosed => simp [Socket.nextLine, hclosed] at hline
  | served _ _ hdrained _ =>
    rw [hdrained.nextLine] at hline
    cases hline
  | @waiting i j kind term _ hterm hj hasks =>
    obtain ⟨rfl, hwire, rfl⟩ := hasks.nextLine (newline_line (c := C.config i) (hC.selfId i)) hline
    refine ⟨i, j, kind, term, hterm, hc, ?_⟩
    simp only [hj, hwire, handleLine_request hC i j hterm (s.store j) (s.node j) io,
      Function.update_eq_self, Option.getD_some]
    rfl

/-- The cluster then serves the request. -/
theorem Sim.execute (hC : C.Addressed) (h : C.Sim s conns) {io : LineIo}
    (hs : C.execute s c io = some s') :
    ∃ conns', Reaches C.step (abs s conns) (abs s' conns') ∧ C.Sim s' conns' := by
  obtain ⟨i, j, kind, term, hterm, hc, rfl⟩ := h.executed hC hs
  have hhandled := h.handled kind j hterm (C.selfId i) io.tick
  have hserved := h.setSocket (c := c)
    (k := ⟨kind, C.selfId j, term, C.selfId i,
      some (C.handle kind j (s.node j) term (C.selfId i) io.tick).1⟩)
    (x := ⟨⟨[], ⟨[], false, _, false⟩⟩, j⟩) (.served rfl ?_ ⟨rfl, rfl⟩ rfl)
  · exact ⟨_, reaches_step (step_serve hc io.tick), hserved.length, hserved.calls, hhandled.long,
      h.loops⟩
  · rw [handle_eq, handle_reply]
    exact (handle_rises hterm _ _).2 (h.long j)

/-- A client's line leaves the Raft node alone or is a request that the node handles. -/
theorem apply_node {q : ℕ} {io : LineIo} (hs : C.apply s q io = some s') :
    s'.thread = s.thread ∧ s'.calls = s.calls
      ∧ (s'.node = s.node ∨ ∃ j kind term id, InLong term
        ∧ s'.node = Function.update s.node j (C.handle kind j (s.node j) term id io.tick).2) := by
  unfold Cluster.apply at hs
  split at hs
  · cases hs
  rename_i q' hq
  obtain rfl := Option.some.inj hs
  refine ⟨rfl, rfl, ?_⟩
  simp only []
  split_ifs with hrpc
  · have hinfo : (verbAndKey q'.line).1 ≠ ascii "INFO" := by
      rintro he
      rw [he] at hrpc
      exact absurd hrpc (by decide)
    rw [Node.answerLine, if_neg hinfo]
    have hserved := executeLine_served (e := C.env q'.node io)
      (x := ⟨s.store q'.node, q'.isReplicaLink, some (s.node q'.node)⟩) rfl q'.line
    cases hserved with
    | none hr _ => exact .inl (by rw [hr, Option.getD_some, Function.update_eq_self])
    | vote _ ht hr _ =>
      exact .inr ⟨q'.node, .vote, _, _, inLong_of_stol ht, by rw [hr, Option.getD_some]; rfl⟩
    | append _ ht hr _ =>
      exact .inr ⟨q'.node, .append, _, _, inLong_of_stol ht, by rw [hr, Option.getD_some]; rfl⟩
  · exact .inl rfl

theorem Sim.apply (h : C.Sim s conns) {q : ℕ} {io : LineIo} (hs : C.apply s q io = some s') :
    Reaches C.step (abs s conns) (abs s' conns) ∧ C.Sim s' conns := by
  obtain ⟨hth, hcalls, hnode⟩ := apply_node hs
  have habs : abs s' conns = ⟨s'.node, s.thread, conns⟩ := by rw [abs, hth]
  rw [habs]
  rcases hnode with hnode | ⟨j, kind, term, id, hterm, hnode⟩
  · rw [hnode]
    refine ⟨.refl, ?_⟩
    exact ⟨hcalls ▸ h.length, hcalls ▸ h.calls, hnode ▸ h.long, hth ▸ h.loops⟩
  · have hj := h.handled kind j hterm id io.tick
    have hstep : C.step (abs s conns) (.inject j kind term id io.tick)
        = some ⟨s'.node, s.thread, conns⟩ := by
      simp only [Cluster.step, abs, State.set, Function.update_eq_self, hnode]
    refine ⟨reaches_step hstep, hcalls ▸ h.length, hcalls ▸ h.calls, ?_, hth ▸ h.loops⟩
    rw [hnode]
    exact hj.long

theorem dial_cases {peer request : Bytes} {dialled : Option (Fin n × ℕ)} {sent : Bool}
    {x : Option (Dialled n)} (h : C.dial peer request dialled = some (x, sent)) :
    (x = none ∧ sent = false) ∨ ∃ j m, RaftNode.splitHostPort peer = some (C.host j, C.port j)
      ∧ x = some ⟨.dialled request m, j⟩ ∧ sent = decide (request.length ≤ m) := by
  unfold dial at h
  split at h
  · rename_i host port j m hpeer
    split_ifs at h with hj
    obtain ⟨rfl, rfl⟩ := hj
    rw [Option.some.injEq, Prod.mk.injEq] at h
    exact .inr ⟨j, m, hpeer, h.1.symm, h.2.symm⟩
  · rw [Option.some.injEq, Prod.mk.injEq] at h
    exact .inl ⟨h.1.symm, h.2.symm⟩

theorem Sim.reply (h : C.Sim s conns) {kind : Rpc} {r : ℤ × Bool} (hr : s.reply kind c = some r) :
    (conns[c]?).bind Conn.reply = some r ∧ InLong r.1 := by
  obtain ⟨x, hx, hread⟩ := Option.bind_eq_some_iff.1 hr
  obtain ⟨k, hc, hk⟩ := h.carried hx
  rw [hc]
  exact hk.read hread

/-- A thread calls its next peer. The cluster opens a connection for the call, and gives it up at
once if the call fails. -/
theorem Sim.callPeer (hC : C.Addressed) (h : C.Sim s conns) {kind : Rpc} {peer : Bytes} {term : ℤ}
    {rest : List Bytes} {dialled : Option (Fin n × ℕ)} {await next : Thread}
    (hterm : (s.thread i).term? = some term) (hrest : (s.thread i).rest = peer :: rest)
    (hawait : await.term? = some term ∧ await.rest = rest)
    (hnext : next.term? = some term ∧ next.rest = rest)
    (hopen : C.step (abs s conns) (.nextPeer i) = some (abs (s.set i (s.node i) await)
      (conns ++ [⟨kind, peer, term, C.selfId i, none⟩])))
    (hgive : ∀ t : State n, t.thread i = await →
      C.step t (.giveUp i) = some (t.set i (t.node i) next))
    (hs : C.callPeer s i kind peer term dialled await next = some s') :
    ∃ conns', Reaches C.step (abs s conns) (abs s' conns') ∧ C.Sim s' conns' := by
  obtain ⟨hlong, hpeers⟩ := h.loops i
  rw [hterm] at hlong
  rw [hrest] at hpeers
  have hloops : ∀ th : Thread, th.term? = some term ∧ th.rest = rest → C.Loops th := by
    intro th hth
    rw [Loops, hth.1, hth.2]
    exact ⟨hlong, fun q hq => hpeers q (List.mem_cons_of_mem peer hq)⟩
  unfold Cluster.callPeer at hs
  obtain ⟨⟨x, sent⟩, hdial, rfl⟩ := Option.map_eq_some_iff.1 hs
  have hcarry : C.Carries ⟨kind, peer, term, C.selfId i, none⟩ x := by
    rcases dial_cases hdial with ⟨rfl, -⟩ | ⟨j, m, hsplit, rfl, -⟩
    · exact .unmade rfl
    · -- the node that listens at the peer's address is the peer
      obtain ⟨j', rfl⟩ := hpeers peer List.mem_cons_self
      rw [hC.splitHostPort j', Option.some.injEq, Prod.mk.injEq] at hsplit
      have hj : C.selfId j' = C.selfId j := by rw [Cluster.selfId, hsplit.1, hsplit.2]; rfl
      rw [hj, request_eq]
      exact .waiting (hlong term rfl) rfl (Socket.asks_dialled _ m)
  refine ⟨_, ?_, (h.move (i := i) (h.long i) ?_).call hcarry⟩
  · cases sent with
    | true => exact reaches_step hopen
    | false =>
      refine (reaches_step hopen).trans (reaches_step (a := .giveUp i) ?_)
      rw [hgive _ (Function.update_self ..)]
      simp [abs, RaftNet.set, State.set]
  · split_ifs
    · exact hloops await hawait
    · exact hloops next hnext

theorem Sim.nextPeer (hC : C.Addressed) (h : C.Sim s conns) {dialled : Option (Fin n × ℕ)}
    (hs : C.netStep s (.call i dialled) = some s') :
    ∃ conns', Reaches C.step (abs s conns) (abs s' conns') ∧ C.Sim s' conns' := by
  simp only [netStep] at hs
  split at hs
  · rename_i p rest hth
    have hrest : (s.thread i).rest = p :: rest := by rw [hth]; rfl
    refine h.callPeer hC (by rw [hth]; rfl) hrest ⟨rfl, rfl⟩ ⟨rfl, rfl⟩ ?_ (fun t ht => ?_) hs
    · simp only [Cluster.step, abs, hth, h.length]
      rfl
    · simp only [Cluster.step, ht]
  · rename_i p rest hth
    have hrest : (s.thread i).rest = p :: rest := by rw [hth]; rfl
    refine h.callPeer hC (by rw [hth]; rfl) hrest ⟨rfl, rfl⟩ ⟨rfl, rfl⟩ ?_ (fun t ht => ?_) hs
    · simp only [Cluster.step, abs, hth, h.length]
      rfl
    · simp only [Cluster.step, ht]
  · rename_i hth
    obtain rfl := Option.some.inj hs
    refine ⟨conns, reaches_step (a := .nextPeer i) ?_, h.move (h.long i) loops_idle⟩
    simp only [Cluster.step, abs, hth]
    rfl
  · rename_i hth
    obtain rfl := Option.some.inj hs
    refine ⟨conns, reaches_step (a := .nextPeer i) ?_, h.move (h.long i) loops_idle⟩
    simp only [Cluster.step, abs, hth]
    rfl
  · cases hs

theorem loops_peers {term : ℤ} (hterm : InLong term) (i : Fin n) :
    (∀ t ∈ some term, InLong t) ∧ ∀ p ∈ (C.config i).peers, ∃ j, C.selfId j = p := by
  refine ⟨fun t ht => Option.some.inj ht ▸ hterm, fun p hp => ?_⟩
  obtain ⟨j, -, hj⟩ := (C.mem_peers i p).1 hp
  exact ⟨j, hj⟩

theorem Sim.takeReply (h : C.Sim s conns) {t : Tick}
    (hs : C.netStep s (.takeReply i t) = some s') :
    C.step (abs s conns) (.takeReply i t) = some (abs s' conns) ∧ C.Sim s' conns := by
  have hloops := h.loops i
  simp only [netStep] at hs
  split at hs
  · rename_i c p term votes rest hth
    rw [hth] at hloops
    split at hs
    · cases hs
    rename_i reply hreply
    obtain ⟨hconn, hlong⟩ := h.reply hreply
    have hsec := Section.count (c := C.config i) (s := s.node i) term votes hlong reply.2 t
    split at hs <;> rename_i heq <;> rw [heq] at hsec <;> obtain rfl := Option.some.inj hs <;>
      simp only [Cluster.step, abs, hth, hconn, heq]
    · exact ⟨rfl, h.section hsec loops_idle⟩
    · exact ⟨rfl, h.section hsec (loops_of_none rfl rfl)⟩
    · exact ⟨rfl, h.section hsec hloops⟩
  · rename_i c term rest hth
    rw [hth] at hloops
    split at hs
    · cases hs
    rename_i reply hreply
    obtain ⟨hconn, hlong⟩ := h.reply hreply
    have hsec := Section.heard (c := C.config i) (s := s.node i) term hlong t
    split at hs <;> rename_i heq <;> rw [heq] at hsec <;> obtain rfl := Option.some.inj hs <;>
      simp only [Cluster.step, abs, hth, hconn, heq]
    · exact ⟨rfl, h.section hsec hloops⟩
    · exact ⟨rfl, h.section hsec loops_idle⟩
  · cases hs

theorem Sim.tick (h : C.Sim s conns) {now : ℕ} (hs : C.netStep s (.tick i now) = some s') :
    C.step (abs s conns) (.tick i now) = some (abs s' conns) ∧ C.Sim s' conns := by
  have hsec := Section.tick (c := C.config i) (s := s.node i) now
  simp only [netStep] at hs
  split at hs
  · rename_i hth heq
    rw [heq] at hsec
    obtain rfl := Option.some.inj hs
    simp only [Cluster.step, abs, hth, heq]
    exact ⟨rfl, h.section hsec loops_idle⟩
  · rename_i hth heq
    rw [heq] at hsec
    obtain rfl := Option.some.inj hs
    simp only [Cluster.step, abs, hth, heq]
    exact ⟨rfl, h.section hsec (loops_of_none rfl rfl)⟩
  · rename_i hth heq
    rw [heq] at hsec
    obtain rfl := Option.some.inj hs
    simp only [Cluster.step, abs, hth, heq]
    exact ⟨rfl, h.section hsec (loops_of_none rfl rfl)⟩
  · cases hs

theorem Sim.startElection (h : C.Sim s conns) {t : Tick}
    (hrange : inRange s (.startElection i t) = true)
    (hs : C.netStep s (.startElection i t) = some s') :
    C.step (abs s conns) (.startElection i t) = some (abs s' conns) ∧ C.Sim s' conns := by
  have hlong : InLong ((s.node i).currentTerm + 1) := by
    have hlt : (s.node i).currentTerm < 2 ^ 63 - 1 := of_decide_eq_true hrange
    obtain ⟨hlo, -⟩ := h.long i
    constructor <;> omega
  have hbegin : beginElectionLong (C.config i) (s.node i) t
      = beginElection (C.config i) (s.node i) t := by
    rw [beginElectionLong, toLong_eq hlong]
    rfl
  simp only [netStep, hbegin] at hs
  split at hs
  · rename_i hth
    obtain rfl := Option.some.inj hs
    simp only [Cluster.step, abs, hth]
    exact ⟨rfl, h.move hlong (loops_peers hlong i)⟩
  · cases hs

theorem Sim.startHeartbeats (h : C.Sim s conns) {now : ℕ}
    (hs : C.netStep s (.startHeartbeats i now) = some s') :
    C.step (abs s conns) (.startHeartbeats i now) = some (abs s' conns) ∧ C.Sim s' conns := by
  have hsec := Section.beat (c := C.config i) (s := s.node i) now
  simp only [netStep] at hs
  split at hs
  · rename_i hth heq
    rw [heq] at hsec
    obtain rfl := Option.some.inj hs
    simp only [Cluster.step, abs, hth, heq]
    exact ⟨rfl, h.section hsec loops_idle⟩
  · rename_i term node hth heq
    rw [heq] at hsec
    have hterm := (beginHeartbeats_leads heq).2
    obtain rfl := Option.some.inj hs
    simp only [Cluster.step, abs, hth, heq]
    exact ⟨rfl, h.section hsec (loops_peers (hterm ▸ h.long i) i)⟩
  · cases hs

theorem Sim.giveUp (h : C.Sim s conns) (hs : C.netStep s (.giveUp i) = some s') :
    C.step (abs s conns) (.giveUp i) = some (abs s' conns) ∧ C.Sim s' conns := by
  have hloops := h.loops i
  simp only [netStep] at hs
  split at hs
  · rename_i hth
    rw [hth] at hloops
    obtain rfl := Option.some.inj hs
    simp only [Cluster.step, abs, hth]
    exact ⟨rfl, h.move (h.long i) hloops⟩
  · rename_i hth
    rw [hth] at hloops
    obtain rfl := Option.some.inj hs
    simp only [Cluster.step, abs, hth]
    exact ⟨rfl, h.move (h.long i) hloops⟩
  · cases hs

/-- Every step on the wire is some steps of the cluster. -/
theorem Sim.step (hC : C.Addressed) (h : C.Sim s conns) {a : RaftNet.Action n}
    (hs : guarded inRange C.netStep s a = some s') :
    ∃ conns', Reaches C.step (abs s conns) (abs s' conns') ∧ C.Sim s' conns' := by
  obtain ⟨hrange, hs⟩ := guarded_eq_some.1 hs
  cases a with
  | tick i now => exact ⟨conns, (h.tick hs).imp_left reaches_step⟩
  | startElection i t => exact ⟨conns, (h.startElection hrange hs).imp_left reaches_step⟩
  | startHeartbeats i now => exact ⟨conns, (h.startHeartbeats hs).imp_left reaches_step⟩
  | call i dialled => exact h.nextPeer hC hs
  | giveUp i => exact ⟨conns, (h.giveUp hs).imp_left reaches_step⟩
  | takeReply i t => exact ⟨conns, (h.takeReply hs).imp_left reaches_step⟩
  | receive c k =>
    obtain ⟨x, hx, hs⟩ := Option.bind_eq_some_iff.1 hs
    obtain ⟨y, hy, rfl⟩ := Option.map_eq_some_iff.1 hs
    exact ⟨conns, .refl, h.receive hx hy⟩
  | execute c io => exact h.execute hC hs
  | hangup c =>
    obtain ⟨x, hx, rfl⟩ := Option.map_eq_some_iff.1 hs
    exact ⟨conns, .refl, h.hangup hx⟩
  | check j isReplicaLink line =>
    obtain rfl := Option.some.inj hs
    exact ⟨conns, .refl, h.length, h.calls, h.long, h.loops⟩
  | apply k io => exact ⟨conns, h.apply hs⟩

end Step

theorem sim_init (C : Cluster n) (store : Fin n → Storage) (boot : Fin n → Tick) :
    C.Sim (C.netInit store boot) [] :=
  ⟨rfl, nofun, fun _ => by simp [netInit, create, resetElectionDeadlineLocked, InLong],
    fun _ => loops_idle⟩

/-- Every run on the wire is a run of the cluster: its nodes and their threads come to the same
state, and what a caller can read on a connection is the reply of the handler that served it. -/
theorem wire_refines (hC : C.Addressed) {store : Fin n → Storage} {boot : Fin n → Tick}
    {s : RaftNet n} (hs : Reaches (guarded inRange C.netStep) (C.netInit store boot) s) :
    ∃ t, Reaches C.step (C.init boot) t ∧ t.node = s.node ∧ t.thread = s.thread
      ∧ ∀ kind c r, s.reply kind c = some r → (t.conns[c]?).bind Conn.reply = some r := by
  have hsim : ∃ t, Reaches C.step (C.init boot) t ∧ ∃ conns, t = abs s conns ∧ C.Sim s conns :=
    hs.sim (fun s t => ∃ conns, t = abs s conns ∧ C.Sim s conns)
      (fun s _ a s' => by
        rintro ⟨conns, rfl, hsim⟩ hstep
        obtain ⟨conns', hr, hsim'⟩ := hsim.step hC hstep
        exact ⟨_, hr, conns', rfl, hsim'⟩) ⟨[], rfl, C.sim_init store boot⟩
  obtain ⟨_, hr, conns, rfl, hsim⟩ := hsim
  exact ⟨_, hr, rfl, rfl, fun kind c r hread => (hsim.reply hread).1⟩

theorem trio_addressed : trio.Addressed :=
  ⟨fun _ => by simp [trio, ascii], fun _ => by simp [trio, Solid, ascii, isSpace],
    fun i => ⟨Nat.le_add_left 1 i, by simp [trio]; omega⟩⟩

/-- The first node of the three is elected on the wire, with the vote of the second. -/
theorem wire_refines_trio :
    ∃ (s : RaftNet 3) (t : State 3), Reaches (guarded inRange trio.netStep)
        (trio.netInit (fun _ => .empty 0) fun _ => ⟨0, 0⟩) s
      ∧ Reaches trio.step (trio.init fun _ => ⟨0, 0⟩) t ∧ (s.node 0).role = .leader
      ∧ (t.node 0).role = .leader := by
  obtain ⟨s, hs, hlead⟩ := exists_reaches (guarded inRange trio.netStep)
    (trio.netInit (fun _ => .empty 0) fun _ => ⟨0, 0⟩)
    [.tick 0 400, .startElection 0 ⟨400, 0⟩, .call 0 (some (1, 100)), .receive 0 7, .receive 0 13,
      .execute 0 ⟨⟨400, 0⟩, true, true, []⟩, .takeReply 0 ⟨400, 0⟩]
    (fun s => (s.node 0).role = .leader) (by decide +kernel)
  obtain ⟨t, ht, hnode, -, -⟩ := wire_refines trio_addressed hs
  exact ⟨s, t, hs, ht, hlead, by rw [hnode]; exact hlead⟩

end Cluster

end Redon
