import Redon.Lib.Numeral
import Redon.Proofs.Bodies
import Redon.Server

/-!
# HTTP messages

A message is its header lines, a blank line and a body. The gateway finds where the headers of a
message end (`splitHead_message`) and what length they declare (`parseContentLength_headText`). The
responses of the gateway and of the metrics endpoint are messages that declare their length, so a
reader knows where a response ends, and notices when it is cut off (`Framed`).
-/

namespace Redon

open Lib LineReader

namespace WebGateway

section Message

/-- No line end. -/
def Plain (t : Bytes) : Prop := 13 ∉ t ∧ 10 ∉ t

instance (t : Bytes) : Decidable (Plain t) := instDecidableAnd

/-- A line of the headers. -/
def HeadLine (l : Bytes) : Prop := l ≠ [] ∧ Plain l

instance (l : Bytes) : Decidable (HeadLine l) := instDecidableAnd

/-- The lines with line ends between them. -/
def headText : List Bytes → Bytes
  | [] => []
  | [l] => l
  | l :: lines => l ++ 13 :: 10 :: headText lines

/-- The lines, a blank line and the body. -/
def message (lines : List Bytes) (body : Bytes) : Bytes :=
  headText lines ++ ascii "\r\n\r\n" ++ body

variable {l name value t pre head part body : Bytes} {lines : List Bytes}

theorem Plain.append (h : Plain t) (h' : Plain value) : Plain (t ++ value) :=
  ⟨by simp [h.1, h'.1], by simp [h.2, h'.2]⟩

theorem HeadLine.append (h : HeadLine l) (h' : Plain t) : HeadLine (l ++ t) :=
  ⟨by simp [h.1], h.2.append h'⟩

theorem plain_decimal (n : ℕ) : Plain (decimal n) := by
  refine ⟨fun h => ?_, fun h => ?_⟩ <;> cases isDigit_of_mem_decimal h

theorem headText_cons (l l' : Bytes) (lines : List Bytes) :
    headText (l :: l' :: lines) = l ++ 13 :: 10 :: headText (l' :: lines) := by
  simp [headText]

/-- No blank line starts in a text without a carriage return. -/
theorem splitHead_through : ∀ {t : Bytes}, 13 ∉ t → ∀ m,
    splitHead (t ++ m) = (splitHead m).map fun p => (t ++ p.1, p.2)
  | [], _, m => by simp
  | c :: t, h, m => by
    rw [List.mem_cons, not_or] at h
    have hblank : ¬ (ascii "\r\n\r\n").isPrefixOf (c :: (t ++ m)) = true := by
      intro hp
      exact h.1 (List.cons_prefix_cons.1 (List.isPrefixOf_iff_prefix.1 hp)).1
    rw [List.cons_append, splitHead, if_neg hblank, splitHead_through h.2, Option.map_map]
    rfl

/-- Nor at a line end with another line behind it. -/
theorem splitHead_next {c : UInt8} (hc : c ≠ 13) (m : Bytes) : splitHead (13 :: 10 :: c :: m)
    = (splitHead (c :: m)).map fun p => (13 :: 10 :: p.1, p.2) := by
  have hend : ¬ (ascii "\r\n\r\n").isPrefixOf (13 :: 10 :: c :: m) = true := by
    intro hp
    obtain ⟨s, hs⟩ := List.isPrefixOf_iff_prefix.1 hp
    exact hc (List.cons.inj (List.cons.inj (List.cons.inj hs).2).2).1.symm
  have hnext : splitHead (10 :: c :: m) = (splitHead (c :: m)).map fun p => (10 :: p.1, p.2) :=
    splitHead_through (t := [10]) (by decide) (c :: m)
  rw [splitHead, if_neg hend, hnext, Option.map_map]
  rfl

/-- The headers of a message end behind its lines. -/
theorem splitHead_message : ∀ {lines : List Bytes}, lines ≠ [] → (∀ l ∈ lines, HeadLine l) →
    ∀ body, splitHead (message lines body) = some (headText lines, body)
  | [], hne, _, _ => absurd rfl hne
  | [l], _, h, body => by
    have hl := h l List.mem_cons_self
    rw [message, headText, List.append_assoc, splitHead_through hl.2.1]
    exact congrArg some (Prod.ext (List.append_nil l) rfl)
  | l :: l' :: lines, _, h, body => by
    have hl := h l List.mem_cons_self
    have hlines : ∀ x ∈ l' :: lines, HeadLine x := fun x hx => h x (List.mem_cons_of_mem l hx)
    obtain ⟨c, t, hct⟩ : ∃ c t, message (l' :: lines) body = c :: t ∧ c ≠ 13 := by
      obtain ⟨hne, hcr, -⟩ := hlines l' List.mem_cons_self
      obtain ⟨c, t, rfl⟩ := List.exists_cons_of_ne_nil hne
      have hc : c ≠ 13 := fun he => hcr (he ▸ List.mem_cons_self)
      cases lines <;> exact ⟨c, _, rfl, hc⟩
    have hmessage : message (l :: l' :: lines) body
        = l ++ 13 :: 10 :: message (l' :: lines) body := by
      simp [message, headText_cons]
    have hrest := splitHead_message (List.cons_ne_nil l' lines) hlines body
    rw [hmessage, splitHead_through hl.2.1, hct.1, splitHead_next hct.2, ← hct.1, hrest]
    rfl

theorem getLines_line (h : 10 ∉ t) (m : Bytes) : getLines (t ++ 10 :: m) = t :: getLines m := by
  simp only [getLines, cut_line h]
  split_ifs <;> rfl

theorem contentLength_cr (h : 13 ∉ l) : contentLength (l ++ [13]) = contentLength l := by
  simp only [contentLength, dropCr_concat, dropCr_of_notMem h]

/-- The length is that of the first line that declares one. -/
theorem findSome_getLines : ∀ {lines : List Bytes}, (∀ l ∈ lines, HeadLine l) →
    (getLines (headText lines)).findSome? contentLength = lines.findSome? contentLength
  | [], _ => rfl
  | [l], h => by
    have hl := h l List.mem_cons_self
    rw [headText, getLines, cut_of_notMem hl.2.2]
    simp [hl.1]
  | l :: l' :: lines, h => by
    have hl := h l List.mem_cons_self
    have hlf : 10 ∉ l ++ [13] := by simp [hl.2.2]
    have hrest := findSome_getLines fun x hx => h x (List.mem_cons_of_mem l hx)
    have htext : headText (l :: l' :: lines) = (l ++ [13]) ++ 10 :: headText (l' :: lines) := by
      simp [headText_cons]
    rw [htext, getLines_line hlf, List.findSome?_cons, contentLength_cr hl.2.1, hrest]
    exact List.findSome?_cons.symm

theorem parseContentLength_headText (h : ∀ l ∈ lines, HeadLine l) :
    parseContentLength (headText lines) = (lines.findSome? contentLength).getD 0 := by
  rw [parseContentLength, findSome_getLines h]

/-- A line for something else declares no length. -/
theorem contentLength_other (hname : 58 ∉ name) (hcr : 13 ∉ name ++ 58 :: value)
    (hne : asciiLower name ≠ ascii "content-length") :
    contentLength (name ++ 58 :: value) = none := by
  have hcolon : 58 ∈ name ++ 58 :: value := by simp
  obtain ⟨htake, -⟩ := LineService.takeWhile_line hname value
  simp only [contentLength, dropCr_of_notMem hcr, not_true, hcolon, if_false, htake, if_neg hne]

theorem contentLength_decimal {n : ℕ} (hn : n < 2 ^ 63) :
    contentLength (ascii "Content-Length: " ++ decimal n) = some n := by
  have hsplit : ascii "Content-Length: " ++ decimal n
      = ascii "Content-Length" ++ 58 :: 32 :: decimal n := by
    simp [ascii]
  have hcr : 13 ∉ ascii "Content-Length: " ++ decimal n :=
    (Plain.append (by decide) (plain_decimal n)).1
  obtain ⟨htake, hdrop⟩ :=
    LineService.takeWhile_line (by decide : 58 ∉ ascii "Content-Length") (32 :: decimal n)
  have hvalue : stoll (32 :: decimal n) = some (n : ℤ) := by
    have hnumeral : Numeral ([32] ++ decimal n) n :=
      numeral_decimal (List.forall_mem_singleton.2 (by decide)) n
    exact (parseInt_whole.2 ⟨hnumeral, by omega, by omega⟩).1
  rw [contentLength, dropCr_of_notMem hcr, hsplit]
  simp only [htake, hdrop, hvalue]
  rw [if_neg (by simp), if_pos (by decide)]
  refine congrArg some ?_
  split_ifs <;> omega

end Message

section Framed

/-- A message whose end a reader knows: the headers end and declare the length of the body, and of a
beginning of the message the headers do not end, or the body is shorter than that. -/
structure Framed (r body : Bytes) : Prop where
  whole : ∃ head, splitHead r = some (head, body) ∧ parseContentLength head = body.length
  cut : ∀ pre head part, pre <+: r → pre ≠ r → splitHead pre = some (head, part) →
    part.length < parseContentLength head

variable {status ctype body : Bytes} {lines : List Bytes} {g : WebGateway} {k : Link}

theorem framed_message (hne : lines ≠ []) (h : ∀ l ∈ lines, HeadLine l)
    (hlen : lines.findSome? contentLength = some body.length) :
    Framed (message lines body) body := by
  have hsplit := splitHead_message hne h body
  have hdeclared : parseContentLength (headText lines) = body.length := by
    rw [parseContentLength_headText h, hlen, Option.getD_some]
  refine ⟨⟨_, hsplit, hdeclared⟩, fun pre head part hpre hcut hpart => ?_⟩
  obtain ⟨m, hm⟩ := hpre
  rw [← hm, splitHead_append hpart] at hsplit
  obtain ⟨rfl, hbody⟩ := Prod.mk.inj (Option.some.inj hsplit)
  rw [hdeclared, ← hbody, List.length_append, Nat.lt_add_right_iff_pos, List.length_pos_iff]
  rintro rfl
  exact hcut (by rw [← hm, List.append_nil])

/-- The text of a status line: no line end, and no colon. -/
def Status (status : Bytes) : Prop := Plain status ∧ 58 ∉ status

instance (status : Bytes) : Decidable (Status status) := instDecidableAnd

theorem contentLength_status (h : Status status) :
    contentLength (ascii "HTTP/1.1 " ++ status) = none := by
  have hcolon : 58 ∉ ascii "HTTP/1.1 " ++ status := by
    rw [List.mem_append, not_or]
    exact ⟨by decide, h.2⟩
  rw [contentLength, dropCr_of_notMem (Plain.append (by decide) h.1).1]
  exact if_pos hcolon

theorem contentLength_type (h : Plain ctype) :
    contentLength (ascii "Content-Type: " ++ ctype) = none := by
  have hsplit : ascii "Content-Type: " ++ ctype = ascii "Content-Type" ++ 58 :: 32 :: ctype := by
    simp [ascii]
  have hplain : Plain (ascii "Content-Type: " ++ ctype) := Plain.append (by decide) h
  rw [hsplit] at hplain ⊢
  exact contentLength_other (by decide) hplain.1 (by decide)

theorem httpResponse_framed (hs : Status status) (ht : Plain ctype) (hb : body.length < 2 ^ 63) :
    Framed (httpResponse status ctype body) body := by
  have hmessage : httpResponse status ctype body
      = message [ascii "HTTP/1.1 " ++ status, ascii "Content-Type: " ++ ctype,
          ascii "Content-Length: " ++ decimal body.length, ascii "Access-Control-Allow-Origin: *",
          ascii "Access-Control-Allow-Methods: GET, POST, OPTIONS",
          ascii "Cache-Control: no-store", ascii "Connection: close"] body := by
    have hends : ascii "\r\n" = [13, 10]
        ∧ ascii "Access-Control-Allow-Origin: *\r\n"
          = ascii "Access-Control-Allow-Origin: *" ++ [13, 10]
        ∧ ascii "Access-Control-Allow-Methods: GET, POST, OPTIONS\r\n"
          = ascii "Access-Control-Allow-Methods: GET, POST, OPTIONS" ++ [13, 10]
        ∧ ascii "Cache-Control: no-store\r\n" = ascii "Cache-Control: no-store" ++ [13, 10]
        ∧ ascii "Connection: close\r\n\r\n" = ascii "Connection: close" ++ ascii "\r\n\r\n" :=
      ⟨rfl, rfl, rfl, rfl, rfl⟩
    simp only [httpResponse, message, headText, hends, List.append_assoc, List.cons_append,
      List.nil_append]
  rw [hmessage]
  refine framed_message (List.cons_ne_nil _ _) ?_ ?_
  · simp only [List.forall_mem_cons]
    exact ⟨HeadLine.append (by decide) hs.1, HeadLine.append (by decide) ht,
      HeadLine.append (by decide) (plain_decimal _), by decide, by decide, by decide, by decide,
      by simp⟩
  · simp [contentLength_status hs, contentLength_type ht, contentLength_decimal hb]

theorem metrics_framed {render : Option Bytes} (hb : (render.getD []).length < 2 ^ 63) :
    Framed (MetricsHttp.response render) (render.getD []) := by
  have hmessage : MetricsHttp.response render
      = message [ascii "HTTP/1.1 " ++ ascii "200 OK",
          ascii "Content-Type: " ++ ascii "text/plain; version=0.0.4; charset=utf-8",
          ascii "Content-Length: " ++ decimal (render.getD []).length,
          ascii "Connection: close"] (render.getD []) := by
    have hends : ascii "HTTP/1.1 200 OK\r\n" = ascii "HTTP/1.1 " ++ ascii "200 OK" ++ [13, 10]
        ∧ ascii "Content-Type: text/plain; version=0.0.4; charset=utf-8\r\n"
          = ascii "Content-Type: " ++ ascii "text/plain; version=0.0.4; charset=utf-8" ++ [13, 10]
        ∧ ascii "\r\nConnection: close\r\n\r\n"
          = [13, 10] ++ ascii "Connection: close" ++ ascii "\r\n\r\n" :=
      ⟨rfl, rfl, rfl⟩
    simp only [MetricsHttp.response, message, headText, hends, List.append_assoc, List.cons_append,
      List.nil_append]
  rw [hmessage]
  refine framed_message (List.cons_ne_nil _ _) ?_ ?_
  · simp only [List.forall_mem_cons]
    exact ⟨by decide, by decide, HeadLine.append (by decide) (plain_decimal _), by decide, by simp⟩
  · simp [contentLength_status (by decide : Status (ascii "200 OK")),
      contentLength_type (by decide : Plain (ascii "text/plain; version=0.0.4; charset=utf-8")),
      contentLength_decimal hb]

end Framed

section Responses

variable {g : WebGateway} {k : Link} {method path body : Bytes} {chunks : List Bytes}

theorem length_escapeByte (c : UInt8) : (escapeByte c).length ≤ 6 := by
  have hctl : ∀ a b : UInt8, (ascii "\\u00" ++ [a, b]).length ≤ 6 := fun _ _ => Nat.le_of_eq rfl
  unfold escapeByte
  split_ifs <;> first | decide | exact hctl _ _ | simp

theorem length_jsonEscape (s : Bytes) : (jsonEscape s).length ≤ 6 * s.length := by
  induction s with
  | nil => simp [jsonEscape]
  | cons c s ih =>
    have hc := length_escapeByte c
    simp only [jsonEscape, List.flatMap_cons, List.length_append, List.length_cons] at ih ⊢
    omega

theorem length_recvLine {sent reply : Bytes} (h : recvLine sent = some reply) :
    reply.length ≤ kMaxReply := by
  obtain ⟨t, m, -, -, hlen, rfl⟩ := readLine_eq_some.1 h
  exact (dropCr_front t).length_le.trans hlen

theorem forwardToRedon_some {line reply : Bytes} (h : (forwardToRedon k line).1 = some reply) :
    recvLine k.answered = some reply := by
  simp only [forwardToRedon] at h
  split_ifs at h
  exact h

/-- The page and the server's address are of a size the responses can declare. -/
def Sized (g : WebGateway) : Prop :=
  g.indexPage.length < 2 ^ 63 ∧ g.redonHost.length < 2 ^ 32 ∧ g.redonPort < 2 ^ 16

instance (g : WebGateway) : Decidable g.Sized := instDecidableAnd

/-- A response of the gateway with its parts. -/
def Responds (r : Bytes) : Prop :=
  ∃ status ctype body, r = httpResponse status ctype body ∧ Status status ∧ Plain ctype
    ∧ body.length < 2 ^ 63

/-- The error for a server that cannot be reached. -/
def unreachable (g : WebGateway) : Bytes :=
  ascii "Redon server unreachable at " ++ g.redonHost ++ ascii ":" ++ decimal g.redonPort

theorem length_errorBody (hg : g.Sized) : (errorBody g.unreachable).length < 2 ^ 63 := by
  obtain ⟨-, hhost, hport⟩ := hg
  have hesc := length_jsonEscape g.unreachable
  have hdigits := length_decimal_le g.redonPort
  have hwords : (ascii "Redon server unreachable at ").length = 28 ∧ (ascii ":").length = 1
      ∧ (ascii "\x7b\"ok\":false,\"error\":\"").length = 21 ∧ (ascii "\"\x7d").length = 2 := by
    decide
  simp only [unreachable, errorBody, List.length_append, hwords] at hesc ⊢
  omega

theorem length_replyBody {reply : Bytes} (h : reply.length ≤ kMaxReply) :
    (replyBody reply).length < 2 ^ 63 := by
  have hesc := length_jsonEscape reply
  have hwords : (ascii "\x7b\"ok\":true,\"reply\":\"").length = 20
      ∧ (ascii "\"\x7d").length = 2 := by
    decide
  simp only [replyBody, List.length_append, hwords, kMaxReply] at h ⊢
  omega

theorem routeCmd_unreachable (h : firstLine body ≠ [])
    (hnone : (forwardToRedon k (firstLine body)).1 = none) : (g.routeCmd k body).response
      = httpResponse (ascii "502 Bad Gateway") (ascii "application/json")
        (errorBody g.unreachable) := by
  rw [routeCmd, List.isEmpty_eq_false_iff.2 h]
  rcases hf : forwardToRedon k (firstLine body) with ⟨r, sent⟩
  rw [hf] at hnone
  obtain rfl : r = none := hnone
  rfl

theorem routeCmd_responds (hg : g.Sized) (k : Link) (body : Bytes) :
    Responds (g.routeCmd k body).response := by
  by_cases hcmd : firstLine body = []
  · rw [routeCmd, hcmd]
    exact ⟨_, _, _, rfl, by decide, by decide, by decide⟩
  rcases hf : (forwardToRedon k (firstLine body)).1 with _ | reply
  · exact ⟨_, _, _, routeCmd_unreachable hcmd hf, by decide, by decide, length_errorBody hg⟩
  · have hreply := length_recvLine (forwardToRedon_some hf)
    exact ⟨_, _, _, routeCmd_response hcmd hf, by decide, by decide, length_replyBody hreply⟩

theorem route_responds (hg : g.Sized) (k : Link) (method path body : Bytes) :
    Responds (g.route k method path body).response := by
  unfold route
  split_ifs
  · exact ⟨_, _, _, rfl, by decide, by decide, by decide⟩
  · exact ⟨_, _, _, rfl, by decide, by decide, hg.1⟩
  · exact ⟨_, _, _, rfl, by decide, by decide, by decide⟩
  · exact ⟨_, _, _, rfl, by decide, by decide, by decide⟩
  · exact routeCmd_responds hg k body
  · exact ⟨_, _, _, rfl, by decide, by decide, by decide⟩

/-- The connection ends before the headers do. -/
theorem readHeaders_closed : (readHeaders chunks).1 = .closed
    ↔ splitHead chunks.flatten = none ∧ chunks.flatten.length ≤ kMaxRequest := by
  constructor
  · intro h
    rcases hr : readHeaders chunks with ⟨e, buf, rest⟩
    rw [hr] at h
    obtain rfl : e = .closed := h
    obtain ⟨pre, rfl, -, hstops⟩ := gather_split (Nat.zero_le _) hr
    obtain ⟨hnone, hle, rfl⟩ := hstops.last
    simpa using And.intro hnone hle
  · rintro ⟨hnone, hle⟩
    have hbefore : ∀ q, q <+: chunks → (splitHead q.flatten).isSome = false
        ∧ q.flatten.length ≤ kMaxRequest := by
      rintro q ⟨m, rfl⟩
      rw [List.flatten_append] at hnone hle
      refine ⟨?_, (List.prefix_append _ _).length_le.trans hle⟩
      rw [Option.isSome_eq_false_iff, Option.isNone_iff_eq_none]
      rcases hq : splitHead q.flatten with _ | p
      · rfl
      · rw [splitHead_append hq] at hnone
        cases hnone
    have hlast := hbefore chunks List.prefix_rfl
    have hgather : readHeaders (chunks ++ []) = (.closed, chunks.flatten, []) :=
      gather_stops (Nat.zero_le _) ⟨fun q hq _ => hbefore q hq, hlast.1, hlast.2, rfl⟩
    rw [List.append_nil] at hgather
    exact congrArg Prod.fst hgather

/-- A connection whose headers end is answered, as is one with too much before that. -/
theorem handleConnection_responds (hg : g.Sized) (k : Link)
    (h : (readHeaders chunks).1 ≠ .closed) :
    Responds (g.handleConnection k chunks).1.response := by
  rcases hr : readHeaders chunks with ⟨_ | _ | _, buf, rest⟩
  · rw [handleConnection, hr]
    exact route_responds hg k _ _ _
  · rw [hr] at h
    exact absurd rfl h
  · rw [handleConnection, hr]
    exact ⟨_, _, _, rfl, by decide, by decide, by decide⟩

end Responses

/-- A connection gets no response if it ends before its headers do. Every other one gets a response
that ends where it says, whatever the request is and whatever the server sends; a part of it is not
taken for the whole. So does every connection of the metrics endpoint. -/
theorem responses_framed (g : WebGateway) (hg : g.Sized) (k : Link) (chunks : List Bytes) :
    ((g.handleConnection k chunks).1.response = []
      ↔ splitHead chunks.flatten = none ∧ chunks.flatten.length ≤ kMaxRequest)
    ∧ ((g.handleConnection k chunks).1.response ≠ [] → ∃ status ctype body,
      (g.handleConnection k chunks).1.response = httpResponse status ctype body
      ∧ Framed (httpResponse status ctype body) body)
    ∧ ∀ render : Option Bytes, (render.getD []).length < 2 ^ 63 →
      Framed (MetricsHttp.response render) (render.getD []) := by
  have hclosed : (readHeaders chunks).1 = .closed →
      (g.handleConnection k chunks).1.response = [] := by
    intro h
    rcases hr : readHeaders chunks with ⟨e, buf, rest⟩
    rw [hr] at h
    obtain rfl : e = .closed := h
    rw [handleConnection, hr]
    rfl
  have hopen : (readHeaders chunks).1 ≠ .closed → ∃ status ctype body,
      (g.handleConnection k chunks).1.response = httpResponse status ctype body
      ∧ Framed (httpResponse status ctype body) body := by
    intro h
    obtain ⟨status, ctype, body, he, hs, ht, hb⟩ := handleConnection_responds hg k h
    exact ⟨status, ctype, body, he, httpResponse_framed hs ht hb⟩
  rw [← readHeaders_closed]
  refine ⟨⟨fun hnil => ?_, hclosed⟩, fun hne => hopen fun h => hne (hclosed h),
    fun render hb => metrics_framed hb⟩
  by_contra h
  obtain ⟨status, ctype, body, he, hframed⟩ := hopen h
  obtain ⟨head, hhead, -⟩ := hframed.whole
  rw [← he, hnil] at hhead
  cases hhead

/-- The health check is answered, and its response is framed. -/
theorem responses_framed_health :
    let r := (WebGateway.handleConnection ⟨ascii "127.0.0.1", 6380, []⟩ ⟨false, 0, []⟩
      [ascii "GET /healthz HTTP/1.1\r\n", ascii "Host: a\r\n\r\n"]).1.response
    r ≠ [] ∧ ∃ status ctype body, r = httpResponse status ctype body
      ∧ Framed (httpResponse status ctype body) body := by
  intro r
  have hr : r ≠ [] := by decide +kernel
  exact ⟨hr, (responses_framed _ (by decide) _ _).2.1 hr⟩

end WebGateway

end Redon
