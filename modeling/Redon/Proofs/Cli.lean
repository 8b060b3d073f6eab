import Redon.Cli
import Redon.Proofs.Connection
import Redon.Proofs.Socket

/-!
# The client and the server in step

The server has executed the lines that were sent, the last one perhaps not yet (`Inv.server`), and
the bytes of its replies that the client has not turned into output are at most one reply
(`Inv.replies`). Both sides see from a line and its reply whether the connection ends
(`leaves_iff`), so the client prompts as long as the server listens.
-/

namespace Redon

open Lib

namespace Cli

section Line

variable {line reply : Bytes} {shards : Option (List Bytes)}

theorem firstWordUpper_eq (h : skipBom (skipSpaces line) = skipSpaces line) :
    firstWordUpper line = (verbAndKey line).1 := by
  rw [verbAndKey, h]
  rfl

/-- The client leaves by itself. -/
def Leaves (line reply : Bytes) : Prop :=
  (firstWordUpper line = ascii "QUIT" ∨ firstWordUpper line = ascii "EXIT")
    ∧ ¬ascii "ERR" <+: dropCr reply

/-- A line that asks a server to quit is accepted if nothing is behind the verb. -/
theorem respond_quit (shards : Option (List Bytes)) (w : World) (link : Bool)
    (hv : (verbAndKey line).1 = ascii "QUIT" ∨ (verbAndKey line).1 = ascii "EXIT") :
    if closes shards.isSome line then (w.respond shards link line).reply = ascii "OK"
    else ascii "ERR" <+: (w.respond shards link line).reply := by
  have hinfo : (verbAndKey line).1 ≠ ascii "INFO" := by
    rcases hv with h | h <;> rw [h] <;> decide
  have hne : (verbAndKey line).1 ≠ [] := by
    rcases hv with h | h <;> rw [h] <;> decide
  cases shards with
  | some shards =>
    have hclose : closes true line = true := by
      rw [closes_iff, ← (Prod.ext_iff.1 (verbAndKey_eq line)).1]
      exact ⟨hv, .inl rfl⟩
    rw [Option.isSome_some, if_pos hclose, World.respond, if_neg hinfo]
    simp only [Router.routeLine, if_neg hne, if_pos hv]
  | none =>
    have hdoes : Does w.env ⟨w.node.store, link, w.node.raft⟩ w.info (w.node.lineOp w.env link line)
        (w.node.answerLine w.env w.info link line) := answerLine_does w.node link line
    rw [respond_node]
    generalize w.node.answerLine w.env w.info link line = r at hdoes
    rw [Node.lineOp, if_neg hinfo] at hdoes
    rw [verbAndKey_eq] at hv hne
    split_ifs with hclose
    · rw [lineOp_quit.2 ⟨hv, (closes_iff.1 hclose).2.resolve_left Bool.false_ne_true⟩] at hdoes
      cases hdoes
      rfl
    · have hkey : (lineTokens line).2.1 ≠ [] := fun hk => hclose (closes_iff.2 ⟨hv, .inr hk⟩)
      rw [ExecState.lineOp, trim_of_verb hne, if_neg Bool.false_ne_true, tokensOp_quit hv,
        if_pos (by simp [hkey])] at hdoes
      cases hdoes with
      | refuse herr => exact herr

/-- The client goes by the first word and the reply, the server by the line. -/
theorem leaves_iff (h : skipBom (skipSpaces line) = skipSpaces line) (w : World) (link : Bool) :
    Leaves line (w.respond shards link line).reply ↔ closes shards.isSome line = true := by
  rw [Leaves, firstWordUpper_eq h]
  by_cases hv : (verbAndKey line).1 = ascii "QUIT" ∨ (verbAndKey line).1 = ascii "EXIT"
  · have hquit := respond_quit shards w link hv
    split_ifs at hquit with hclose
    · rw [hquit]
      exact iff_of_true ⟨hv, by decide⟩ hclose
    · exact iff_of_false (fun h => h.2 (prefix_dropCr hquit (by decide))) hclose
  · refine iff_of_false (fun h => hv h.1) fun hclose => hv ?_
    rw [verbAndKey_eq]
    exact (closes_iff.1 hclose).1

theorem respond_link (hv : (verbAndKey line).1 ≠ ascii "__REPLSYNC__") (w : World) (link : Bool) :
    (w.respond shards link line).isReplicaLink = link := by
  cases shards with
  | some shards =>
    unfold World.respond
    split_ifs
    · rfl
    · simp only []
      split <;> rfl
  | none =>
    rw [respond_node]
    exact (answerLine_does w.node link line).link fun h => hv (lineOp_sync.1 h).1

end Line

/-- The bytes of some replies. -/
def stream (replies : List Bytes) : Bytes := (replies.map (· ++ [10])).flatten

theorem stream_append (rs : List Bytes) (r : Bytes) :
    stream (rs ++ [r]) = stream rs ++ r ++ [10] := by
  simp [stream]

namespace Session

variable {shards : Option (List Bytes)} {s s' : Session} {line : Bytes}

/-- What is known of a line and its reply. -/
structure Answers (router : Bool) (line reply : Bytes) : Prop where
  newline : 10 ∉ reply
  length : reply.length < kMaxLineLength
  leaves : Leaves line reply ↔ closes router line = true

/-- Where the client is: `rest` are the replies that it has not printed yet. -/
def At (router : Bool) (s : Session) (rest : List Bytes) : Phase → Prop
  | .prompt => s.executed = s.sent ∧ rest = [] ∧ ∀ l ∈ s.sent, closes router l = false
  | .reading line => ∃ before, s.sent = before ++ [line]
      ∧ s.executed.length = before.length + rest.length ∧ ∀ l ∈ before, closes router l = false
  | .ended => s.executed = s.sent ∧ rest = []
  | .quit => s.executed = s.sent ∧ rest = [] ∧ s.socket.client.closed = true
  | .lost => s.broken = true

/-- The server has executed what was sent, but perhaps for the last line. -/
def Serves (s : Session) : Prop :=
  (s.executed = s.sent ∧ s.socket.Drained ∧ s.socket.client.isReplicaLink = false)
  ∨ ∃ line, s.sent = s.executed ++ [line] ∧ Tame line ∧ 10 ∉ line
    ∧ s.socket.Asks s.socket.client.sent line

structure Inv (shards : Option (List Bytes)) (s : Session) : Prop where
  serves : s.Serves
  sent : s.socket.client.sent = stream s.replies
  taken : s.taken ≤ s.socket.client.sent.length
  answers : List.Forall₂ (Answers shards.isSome) s.executed s.replies
  closed : s.socket.client.closed = true → s.broken = true
    ∨ ∃ l ∈ s.executed.getLast?, closes shards.isSome l = true
  closing : ∀ l ∈ s.executed.getLast?, closes shards.isSome l = true →
    s.socket.client.closed = true
  reads : ∃ rs rest, s.replies = rs ++ rest ∧ s.printed = rs.map dropCr
    ∧ s.inbuf ++ s.socket.client.sent.drop s.taken = stream rest
    ∧ s.At shards.isSome rest s.phase

theorem Serves.begins (h : s.Serves) : s.executed <+: s.sent := by
  rcases h with ⟨he, -⟩ | ⟨line, he, -⟩
  · rw [he]
  · rw [he]
    exact List.prefix_append _ _

/-- A client that is not reading has nothing ahead at the server. -/
theorem Serves.drained (h : s.Serves) (he : s.executed = s.sent) :
    s.socket.Drained ∧ s.socket.client.isReplicaLink = false := by
  rcases h with ⟨-, h⟩ | ⟨line, hs, -⟩
  · exact h
  · rw [he] at hs
    exact absurd hs (by simp)

theorem Inv.type (h : Inv shards s) (hphase : s.phase = .prompt) {failed : Option ℕ}
    (hn : 10 ∉ line) (htame : Tame (dropCr line)) (hs : s.type line failed = some s') :
    Inv shards s' := by
  obtain ⟨rs, rest, hreplies, hprinted, hinbuf, hat⟩ := h.reads
  rw [hphase] at hat
  obtain ⟨he, rfl, hopen⟩ := hat
  obtain ⟨hdrained, hlink⟩ := h.serves.drained he
  have hcr : 10 ∉ dropCr line := fun hm => hn ((dropCr_front line).subset hm)
  have hasks : ∀ out, out <+: dropCr line ++ [10] →
      Socket.Asks { s.socket with wire := s.socket.wire ++ out } s.socket.client.sent
        (dropCr line) := by
    intro out hout
    refine ⟨?_, rfl, hlink⟩
    simpa [hdrained.inbuf, hdrained.wire] using hout
  have hserves : ∀ s'' : Session, s''.sent = s.sent ++ [dropCr line] → s''.executed = s.executed →
      s''.socket.Asks s''.socket.client.sent (dropCr line) → s''.Serves :=
    fun s'' hsent hex hasks => .inr ⟨dropCr line, by rw [hsent, hex, he], htame, hcr, hasks⟩
  unfold Session.type at hs
  simp only [] at hs
  split_ifs at hs with hblank
  · obtain rfl := Option.some.inj hs
    exact h
  · cases failed with
    | none =>
      obtain rfl := Option.some.inj hs
      refine ⟨hserves _ rfl rfl (hasks _ List.prefix_rfl), h.sent, h.taken, h.answers, h.closed,
        h.closing, rs, [], hreplies, hprinted, hinbuf, s.sent, rfl, ?_, hopen⟩
      simp [he]
    | some k =>
      simp only [] at hs
      split_ifs at hs
      obtain rfl := Option.some.inj hs
      exact ⟨hserves _ rfl rfl (hasks _ (List.take_prefix k _)), h.sent, h.taken, h.answers,
        fun _ => .inl rfl, h.closing, rs, [], hreplies, hprinted, hinbuf, rfl⟩

theorem Inv.receive (h : Inv shards s) {k : ℕ} {x : Socket} (hx : s.socket.receive k = some x) :
    Inv shards { s with socket := x } := by
  rcases h.serves with ⟨-, hdrained, -⟩ | ⟨line, hsent, htame, hn, hasks⟩
  · rw [hdrained.receive] at hx
    cases hx
  · rcases hasks.receive hx with ⟨hasks', hclosed⟩ | ⟨-, -, hlong⟩
    · have hs := hasks'.sent
      refine ⟨.inr ⟨line, hsent, htame, hn, ?_⟩, ?_, ?_, h.answers, ?_, ?_, ?_⟩
      · rwa [hs]
      · rw [← h.sent, hs]
      · exact hs ▸ h.taken
      · exact hclosed ▸ h.closed
      · exact hclosed ▸ h.closing
      · obtain ⟨rs, rest, hreplies, hprinted, hinbuf, hat⟩ := h.reads
        refine ⟨rs, rest, hreplies, hprinted, hs ▸ hinbuf, ?_⟩
        cases hphase : s.phase <;> rw [hphase] at hat
        case quit => exact ⟨hat.1, hat.2.1, hclosed.trans hat.2.2⟩
        all_goals exact hat
    · exact absurd htame.1 (not_le.2 hlong)

theorem Inv.break (h : Inv shards s) :
    Inv shards { s with socket := s.socket.hangup, broken := true } := by
  refine ⟨?_, h.sent, h.taken, h.answers, fun _ => .inl rfl, fun _ _ _ => rfl, ?_⟩
  · rcases h.serves with ⟨he, hdrained, hlink⟩ | ⟨line, hsent, htame, hn, hasks⟩
    · exact .inl ⟨he, hdrained.hangup, hlink⟩
    · exact .inr ⟨line, hsent, htame, hn, hasks.hangup⟩
  · obtain ⟨rs, rest, hreplies, hprinted, hinbuf, hat⟩ := h.reads
    refine ⟨rs, rest, hreplies, hprinted, hinbuf, ?_⟩
    cases hphase : s.phase <;> rw [hphase] at hat
    case quit => exact ⟨hat.1, hat.2.1, rfl⟩
    case lost => rfl
    all_goals exact hat

theorem Inv.execute (h : Inv shards s) {w : World} (htame : tame shards s (.execute w) = true)
    (hs : s.execute shards w = some s') : Inv shards s' := by
  obtain ⟨⟨l, client⟩, hline, rfl⟩ := Option.map_eq_some_iff.1 hs
  rcases h.serves with ⟨-, hdrained, -⟩ | ⟨line, hsent, hok, hn, hasks⟩
  · rw [hdrained.nextLine] at hline
    cases hline
  obtain ⟨rfl, hwire, rfl⟩ := hasks.nextLine hn hline
  have hreply : 10 ∉ (w.respond shards false l).reply
      ∧ (w.respond shards false l).reply.length < kMaxLineLength := by
    simpa [tame, hline] using htame
  have hlast : (s.executed ++ [l]).getLast? = some l := List.getLast?_concat
  have hclose := respond_close shards w false l
  simp only [Bool.false_eq_true, if_false]
  refine ⟨.inl ⟨hsent.symm, ⟨rfl, hwire⟩, respond_link hok.2.2 w false⟩, ?_, ?_, ?_, ?_, ?_, ?_⟩
  · rw [stream_append, h.sent]
  · have hle := h.taken
    simp only [List.length_append]
    omega
  · exact List.rel_append h.answers
      (.cons ⟨hreply.1, hreply.2, leaves_iff hok.2.1 w false⟩ .nil)
  · exact fun hcl => .inr ⟨l, hlast, hclose ▸ hcl⟩
  · intro l' hl' hcl
    obtain rfl := Option.some.inj (hlast.symm.trans hl')
    exact hclose.trans hcl
  · obtain ⟨rs, rest, hreplies, hprinted, hinbuf, hat⟩ := h.reads
    refine ⟨rs, rest ++ [(w.respond shards false l).reply], ?_, hprinted, ?_, ?_⟩
    · simp only [hreplies, List.append_assoc]
    · rw [List.append_assoc, List.drop_append_of_le_length h.taken, ← List.append_assoc, hinbuf,
        stream_append, List.append_assoc]
    · have hne : s.executed ≠ s.sent := by
        rw [hsent]
        simp
      cases hphase : s.phase <;> rw [hphase] at hat
      case prompt => exact absurd hat.1 hne
      case ended => exact absurd hat.1 hne
      case quit => exact absurd hat.1 hne
      case lost => exact hat
      case reading line =>
        obtain ⟨before, hs', hlen, hopen⟩ := hat
        refine ⟨before, hs', ?_, hopen⟩
        simp only [List.length_append, List.length_singleton]
        omega

theorem forall₂_concat {α β : Type*} {R : α → β → Prop} {as : List α} {bs : List β} {a : α} {b : β}
    (h : List.Forall₂ R (as ++ [a]) (bs ++ [b])) : R a b := by
  have hrev := List.forall₂_reverse_iff.2 h
  rw [List.reverse_append, List.reverse_append] at hrev
  exact (List.forall₂_cons.1 hrev).1

/-- Of the replies at most one is not printed, the one to the last line. -/
theorem Inv.coming (h : Inv shards s) {before rs rest : List Bytes}
    (hsent : s.sent = before ++ [line]) (hreplies : s.replies = rs ++ rest)
    (hlen : s.executed.length = before.length + rest.length) :
    (rest = [] ∧ s.executed = before)
    ∨ ∃ r, rest = [r] ∧ s.executed = s.sent ∧ Answers shards.isSome line r := by
  have hpre := h.serves.begins
  have hle := hpre.length_le
  rcases rest with _ | ⟨r, _ | ⟨r', rest⟩⟩
  · refine .inl ⟨rfl, ?_⟩
    have hbefore : before <+: s.sent := hsent ▸ List.prefix_append _ _
    exact (List.prefix_of_prefix_length_le hpre hbefore hlen.le).eq_of_length hlen
  · have he : s.executed = s.sent := hpre.eq_of_length (by simp [hsent, hlen])
    have hanswers := h.answers
    rw [he, hsent, hreplies] at hanswers
    exact .inr ⟨r, rfl, he, forall₂_concat hanswers⟩
  · rw [hsent, List.length_append, List.length_singleton] at hle
    simp only [List.length_cons] at hlen
    omega

theorem Inv.recv (h : Inv shards s) (hphase : s.phase = .reading line) {k : ℕ}
    (hn : 10 ∉ s.inbuf) (hs : s.recv k = some s') : Inv shards s' := by
  obtain ⟨rs, rest, hreplies, hprinted, hinbuf, hat⟩ := h.reads
  rw [hphase] at hat
  obtain ⟨before, hsent, hlen, hopen⟩ := hat
  have hcoming := h.coming hsent hreplies hlen
  simp only [Session.recv] at hs
  rcases eq_or_ne k 0 with rfl | hk
  · -- the end of the connection: a reply that was sent would have been read
    rw [if_pos rfl] at hs
    split_ifs at hs with hgone
    obtain rfl := Option.some.inj hs
    refine ⟨h.serves, h.sent, h.taken, h.answers, h.closed, h.closing, rs, rest, hreplies,
      hprinted, hinbuf, ?_⟩
    rcases hgone with hbroken | ⟨hclosed, hnil⟩
    · exact hbroken
    rcases h.closed hclosed with hbroken | ⟨l, hl, hcl⟩
    · exact hbroken
    rcases hcoming with ⟨-, he⟩ | ⟨r, rfl, -, -⟩
    · rw [he] at hl
      rw [hopen l (List.mem_of_getLast? hl)] at hcl
      cases hcl
    · rw [hnil, List.append_nil] at hinbuf
      exact absurd (hinbuf ▸ by simp [stream]) hn
  · rw [if_neg hk] at hs
    obtain ⟨hfits, hs⟩ := Option.ite_none_left_eq_some.1 hs
    rw [not_or, not_lt, not_lt] at hfits
    have hshort : ¬kMaxLineLength
        < (s.inbuf ++ (s.socket.client.sent.drop s.taken).take k).length := by
      have hall := congrArg List.length hinbuf
      rw [List.length_append] at hall
      rw [List.length_append, List.length_take]
      rcases hcoming with ⟨rfl, -⟩ | ⟨r, rfl, -, hans⟩
      · simp only [stream, List.map_nil, List.flatten_nil, List.length_nil] at hall
        omega
      · have hr := hans.length
        simp only [stream, List.map_cons, List.map_nil, List.flatten_cons, List.flatten_nil,
          List.append_nil, List.length_append, List.length_singleton] at hall
        omega
    rw [if_neg hshort] at hs
    obtain rfl := Option.some.inj hs
    have htaken := hfits.2
    rw [List.length_drop] at htaken
    refine ⟨h.serves, h.sent, ?_, h.answers, h.closed, h.closing, rs, rest, hreplies,
      hprinted, ?_, ?_⟩
    · have := h.taken
      simp only
      omega
    · rw [List.append_assoc, ← List.drop_drop, List.take_append_drop]
      exact hinbuf
    · rw [hphase]
      exact ⟨before, hsent, hlen, hopen⟩

theorem Inv.print (h : Inv shards s) (hphase : s.phase = .reading line) {reply rest : Bytes}
    (hline : splitLine s.inbuf = some (reply, rest)) : Inv shards (s.print line reply rest) := by
  obtain ⟨rs, rest', hreplies, hprinted, hinbuf, hat⟩ := h.reads
  rw [hphase] at hat
  obtain ⟨before, hsent, hlen, hopen⟩ := hat
  obtain ⟨hin, hnl⟩ := splitLine_some hline
  rcases h.coming hsent hreplies hlen with ⟨rfl, -⟩ | ⟨r, rfl, he, hans⟩
  · rw [hin] at hinbuf
    simp [stream] at hinbuf
  have hbytes : reply ++ 10 :: (rest ++ s.socket.client.sent.drop s.taken) <+: r ++ [10] := by
    rw [hin] at hinbuf
    simp only [stream, List.map_cons, List.map_nil, List.flatten_cons, List.flatten_nil,
      List.append_nil, List.append_assoc, List.cons_append] at hinbuf
    rw [hinbuf]
  obtain ⟨rfl, hnil⟩ := eq_of_begins hnl hans.newline hbytes
  refine ⟨h.serves, h.sent, h.taken, h.answers, h.closed, h.closing, rs ++ [reply], [], ?_, ?_, ?_,
    ?_⟩
  · rw [List.append_nil]
    exact hreplies
  · simp only [Session.print, hprinted, List.map_append, List.map_cons, List.map_nil]
  · exact hnil
  · have hleaves : (firstWordUpper line = ascii "QUIT" ∨ firstWordUpper line = ascii "EXIT")
        ∧ ¬ascii "ERR" <+: dropCr reply ↔ closes shards.isSome line = true := hans.leaves
    have hlast : s.executed.getLast? = some line := by
      rw [he, hsent, List.getLast?_concat]
    simp only [Session.print]
    split_ifs with hleave
    · exact ⟨he, rfl, h.closing line hlast (hleaves.1 hleave)⟩
    · refine ⟨he, rfl, fun l hl => ?_⟩
      have hl : l ∈ s.sent := hl
      rw [hsent] at hl
      rcases List.mem_append.1 hl with hl | hl
      · exact hopen l hl
      · obtain rfl := List.mem_singleton.1 hl
        exact Bool.eq_false_of_not_eq_true fun hcl => hleave (hleaves.2 hcl)

theorem Inv.step (h : Inv shards s) {a : Action}
    (hs : guarded (tame shards) (step shards) s a = some s') : Inv shards s' := by
  rw [guarded_eq_some] at hs
  obtain ⟨htame, hs⟩ := hs
  unfold Session.step at hs
  split at hs
  · rename_i line failed hphase
    split_ifs at hs with hn
    exact h.type hphase hn (of_decide_eq_true htame) hs
  · rename_i hphase
    obtain rfl := Option.some.inj hs
    obtain ⟨rs, rest, hreplies, hprinted, hinbuf, hat⟩ := h.reads
    rw [hphase] at hat
    exact ⟨h.serves, h.sent, h.taken, h.answers, h.closed, h.closing, rs, rest, hreplies, hprinted,
      hinbuf, hat.1, hat.2.1⟩
  · obtain ⟨x, hx, rfl⟩ := Option.map_eq_some_iff.1 hs
    exact h.receive hx
  · exact h.execute htame hs
  · obtain rfl := Option.some.inj hs
    exact h.break
  · rename_i hphase
    split_ifs at hs with hn
    exact h.recv hphase hn hs
  · rename_i hphase
    obtain ⟨⟨reply, rest⟩, hline, rfl⟩ := Option.map_eq_some_iff.1 hs
    exact h.print hphase hline
  · cases hs

theorem inv_init (shards : Option (List Bytes)) : Inv shards init where
  serves := .inl ⟨rfl, ⟨rfl, rfl⟩, rfl⟩
  sent := rfl
  taken := le_rfl
  answers := .nil
  closed := nofun
  closing := nofun
  reads := ⟨[], [], rfl, rfl, rfl, rfl, rfl, nofun⟩

/-- The client and a server, or a router, stay in step, whatever the pieces in which the bytes
travel and whatever other clients do. The server executes the lines in the order in which they were
sent and the client prints the replies to them in this order. At its prompt the client has printed
the reply to every line, and the server still listens unless the connection broke; the client leaves
by itself only if the server has closed, and gives up only on a connection that broke. -/
theorem lockstep (hr : Reaches (guarded (tame shards) (step shards)) init s) :
    s.executed <+: s.sent ∧ s.executed.length = s.replies.length
    ∧ s.printed <+: s.replies.map dropCr
    ∧ (s.phase = .prompt → s.executed = s.sent ∧ s.printed = s.replies.map dropCr
      ∧ (s.socket.client.closed = true → s.broken = true))
    ∧ (s.phase = .quit → s.printed = s.replies.map dropCr ∧ s.socket.client.closed = true)
    ∧ (s.phase = .lost → s.broken = true) := by
  have h : Inv shards s := hr.inv _ (fun _ _ _ h hs => h.step hs) (inv_init shards)
  obtain ⟨rs, rest, hreplies, hprinted, -, hat⟩ := h.reads
  refine ⟨h.serves.begins, h.answers.length_eq, ?_, fun hphase => ?_, fun hphase => ?_,
    fun hphase => ?_⟩
  · rw [hreplies, hprinted, List.map_append]
    exact List.prefix_append _ _
  · rw [hphase] at hat
    obtain ⟨he, rfl, hopen⟩ := hat
    refine ⟨he, by rw [hprinted, hreplies, List.append_nil], fun hclosed => ?_⟩
    refine (h.closed hclosed).resolve_right ?_
    rintro ⟨l, hl, hcl⟩
    rw [hopen l (he ▸ List.mem_of_getLast? hl)] at hcl
    cases hcl
  · rw [hphase] at hat
    obtain ⟨-, rfl, hclosed⟩ := hat
    exact ⟨by rw [hprinted, hreplies, List.append_nil], hclosed⟩
  · rw [hphase] at hat
    exact hat

/-- A refused `QUIT`, and one that is accepted, in pieces. -/
theorem lockstep_quit : ∃ s, Reaches (guarded (tame none) (step none)) init s
    ∧ s.phase = .quit ∧ s.socket.client.closed = true
    ∧ s.printed = [ascii "ERR wrong number of arguments for 'quit' command", ascii "OK"] := by
  let w : World := ⟨⟨.empty 0, none⟩, standaloneEnv, [], none⟩
  obtain ⟨s, hr, hphase, hprinted⟩ := exists_reaches (guarded (tame none) (step none)) init
    [.type (ascii "quit now\r") none, .receive 5, .receive 4, .execute w, .recv 40, .recv 9, .print,
      .type (ascii "quit") none, .receive 5, .execute w, .recv 3, .print]
    (fun s => s.phase = .quit
      ∧ s.printed = [ascii "ERR wrong number of arguments for 'quit' command", ascii "OK"])
    (by decide +kernel)
  exact ⟨s, hr, hphase, ((lockstep hr).2.2.2.2.1 hphase).2, hprinted⟩

end Session

end Cli

end Redon
