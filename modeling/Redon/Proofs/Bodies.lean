import Redon.Proofs.Gateway

/-!
# Requests that end early

A connection of the gateway is its chunks up to the end of the headers, those of the body up to its
declared length, and those that are not received (`handleConnection_eq`). What is forwarded is the
first line of the declared part of the body, unless the loop over the body ends before that: when
the connection ends, or when a chunk takes the body over the limit of a request. Then what has come
of the body is used as if it were all of it.
-/

namespace Redon

open Lib

namespace WebGateway

section Head

variable {c : UInt8} {rest head body : Bytes}

/-- The blank line is at the front, or further on. -/
theorem splitHead_cons (h : splitHead (c :: rest) = some (head, body)) :
    (head = [] ∧ c :: rest = ascii "\r\n\r\n" ++ body)
    ∨ (¬ ascii "\r\n\r\n" <+: c :: rest ∧ ∃ head', head = c :: head'
      ∧ splitHead rest = some (head', body)) := by
  rw [splitHead] at h
  split_ifs at h with hblank
  · obtain ⟨t, ht⟩ := List.isPrefixOf_iff_prefix.1 hblank
    obtain ⟨rfl, rfl⟩ := Prod.mk.inj (Option.some.inj h)
    obtain ⟨rfl, rfl⟩ := List.cons.inj ht
    exact .inl ⟨rfl, rfl⟩
  · obtain ⟨⟨head', body'⟩, hrest, he⟩ := Option.map_eq_some_iff.1 h
    obtain ⟨rfl, rfl⟩ := Prod.mk.inj he
    exact .inr ⟨fun hp => hblank (List.isPrefixOf_iff_prefix.2 hp), head', rfl, hrest⟩

theorem splitHead_some : ∀ {l head body : Bytes}, splitHead l = some (head, body) →
    l = head ++ ascii "\r\n\r\n" ++ body
  | [], _, _, h => by simp [splitHead] at h
  | c :: rest, head, body, h => by
    rcases splitHead_cons h with ⟨rfl, he⟩ | ⟨-, head', rfl, hrest⟩
    · exact he
    · rw [splitHead_some hrest]
      rfl

/-- What comes later is behind the headers. -/
theorem splitHead_append : ∀ {l head body : Bytes}, splitHead l = some (head, body) →
    ∀ m, splitHead (l ++ m) = some (head, body ++ m)
  | [], _, _, h, _ => by simp [splitHead] at h
  | c :: rest, head, body, h, m => by
    rcases splitHead_cons h with ⟨rfl, he⟩ | ⟨hblank, head', rfl, hrest⟩
    · rw [he]
      rfl
    · -- the blank line further on leaves no room for one that ends in `m`
      have hlen := congrArg List.length (splitHead_some h)
      have hblank' : ¬ (ascii "\r\n\r\n").isPrefixOf (c :: (rest ++ m)) = true := by
        intro hp
        refine hblank (List.prefix_of_prefix_length_le (List.isPrefixOf_iff_prefix.1 hp)
          (List.prefix_append (c :: rest) m) ?_)
        simp only [hlen, List.length_append]
        omega
      rw [List.cons_append, splitHead, if_neg hblank', splitHead_append hrest]
      rfl

end Head

section Connection

/-- The forwarded line is the first line of the declared part of the body, all of which has been
received. -/
def Whole (chunks : List Bytes) (r : Routed × List Bytes) : Prop :=
  ∀ line, r.1.forwarded = some line → ∃ received head body, chunks = received ++ r.2
    ∧ splitHead received.flatten = some (head, body) ∧ parseContentLength head ≤ body.length
    ∧ line = firstLine (body.take (parseContentLength head))

/-- The headers end with the last chunk of `hs`, and within the limit. -/
structure HeadersIn (hs : List Bytes) (head start : Bytes) : Prop where
  split : splitHead hs.flatten = some (head, start)
  le : hs.flatten.length ≤ kMaxRequest
  first : ∀ q, q <+: hs → q ≠ hs → splitHead q.flatten = none

/-- A command whose body ends before its declared length: no chunk comes behind those of `bs`, or
the last of these takes the body over the limit. -/
def Truncated (chunks : List Bytes) : Prop :=
  ∃ hs bs rest head start, chunks = hs ++ bs ++ rest ∧ HeadersIn hs head start
    ∧ requestLine head = (ascii "POST", ascii "/cmd")
    ∧ (start ++ bs.flatten).length < parseContentLength head
    ∧ (rest = [] ∨ kMaxRequest < (start ++ bs.flatten).length)
    ∧ (∀ q, q <+: bs → q ≠ bs → (start ++ q.flatten).length ≤ kMaxRequest)
    ∧ firstLine (start ++ bs.flatten) ≠ []

variable {g : WebGateway} {k : Link} {chunks hs bs rest : List Bytes} {head start body : Bytes}

theorem HeadersIn.readHeaders (h : HeadersIn hs head start) (rest : List Bytes) :
    readHeaders (hs ++ rest) = (.enough, hs.flatten, rest) := by
  refine gather_stops (Nat.zero_le _) ⟨fun q hq hne => ⟨?_, ?_⟩, ?_⟩
  · simp [h.first q hq hne]
  · exact hq.flatten.length_le.trans h.le
  · simpa [h.split] using h.le

theorem exists_headersIn {buf : Bytes} (h : WebGateway.readHeaders chunks = (.enough, buf, rest)) :
    ∃ hs head start, chunks = hs ++ rest ∧ HeadersIn hs head start := by
  obtain ⟨hs, hchunks, -, hstops⟩ := gather_split (Nat.zero_le _) h
  obtain ⟨hsome, hle⟩ := hstops.last
  rw [List.nil_append] at hsome hle
  obtain ⟨⟨head, start⟩, hsplit⟩ := Option.isSome_iff_exists.1 hsome
  refine ⟨hs, head, start, hchunks, hsplit, hle, fun q hq hne => ?_⟩
  simpa using (hstops.before q hq hne).1

theorem HeadersIn.start_le (h : HeadersIn hs head start) : start.length ≤ kMaxRequest := by
  have hlen := congrArg List.length (splitHead_some h.split)
  have hle := h.le
  simp only [List.length_append] at hlen
  omega

/-- A connection with its headers is one request, with what has come of the body. -/
theorem handleConnection_eq (h : HeadersIn hs head start) (cs : List Bytes) :
    g.handleConnection k (hs ++ cs)
      = (g.route k (requestLine head).1 (requestLine head).2
          ((readBody (parseContentLength head) start cs).2.1.take (parseContentLength head)),
        (readBody (parseContentLength head) start cs).2.2) := by
  rw [handleConnection, h.readHeaders]
  simp only [h.split, Option.getD_some]

/-- Only a connection with its headers forwards anything. -/
theorem forwarded_headers {line : Bytes}
    (h : (g.handleConnection k chunks).1.forwarded = some line) :
    ∃ hs cs head start, chunks = hs ++ cs ∧ HeadersIn hs head start := by
  rcases hr : readHeaders chunks with ⟨_ | _ | _, buf, rest⟩
  · obtain ⟨hs, head, start, hchunks, hhead⟩ := exists_headersIn hr
    exact ⟨hs, rest, head, start, hchunks, hhead⟩
  · simp [handleConnection, hr, answer] at h
  · simp [handleConnection, hr, answer] at h

/-- The loop over the body ends with enough, or for another reason before that. -/
theorem readBody_split {n : ℕ} {e : Ended} (hstart : start.length ≤ kMaxRequest)
    (h : readBody n start chunks = (e, body, rest)) : ∃ bs, chunks = bs ++ rest
      ∧ body = start ++ bs.flatten
      ∧ (∀ q, q <+: bs → q ≠ bs → (start ++ q.flatten).length ≤ kMaxRequest)
      ∧ (body.length < n → rest = [] ∨ kMaxRequest < body.length) := by
  obtain ⟨bs, hchunks, rfl, hstops⟩ := gather_split hstart h
  refine ⟨bs, hchunks, rfl, fun q hq hne => (hstops.before q hq hne).2, fun hlt => ?_⟩
  have hlast := hstops.last
  cases e with
  | enough =>
    have hle : n ≤ (start ++ bs.flatten).length := of_decide_eq_true hlast.1
    omega
  | closed => exact .inl hlast.2.2
  | tooMuch => exact .inr hlast

/-- Where the body ends early the loop has received just that. -/
theorem readBody_short {n : ℕ} (hstart : start.length ≤ kMaxRequest)
    (hlt : (start ++ bs.flatten).length < n)
    (hend : rest = [] ∨ kMaxRequest < (start ++ bs.flatten).length)
    (hcap : ∀ q, q <+: bs → q ≠ bs → (start ++ q.flatten).length ≤ kMaxRequest) :
    (readBody n start (bs ++ rest)).2 = (start ++ bs.flatten, rest) := by
  have hbefore : ∀ q, q <+: bs → q ≠ bs → decide (n ≤ (start ++ q.flatten).length) = false
      ∧ (start ++ q.flatten).length ≤ kMaxRequest := by
    refine fun q hq hne => ⟨decide_eq_false ?_, hcap q hq hne⟩
    have hle := hq.flatten.length_le
    rw [List.length_append] at hlt ⊢
    omega
  by_cases hover : kMaxRequest < (start ++ bs.flatten).length
  · rw [readBody, gather_stops (e := .tooMuch) hstart ⟨hbefore, hover⟩]
  · obtain rfl := hend.resolve_right hover
    have hlast : decide (n ≤ (start ++ bs.flatten).length) = false := decide_eq_false (by omega)
    rw [readBody, gather_stops (e := .closed) hstart ⟨hbefore, hlast, not_lt.1 hover, rfl⟩]

theorem Truncated.not_whole (h : Truncated chunks) :
    ¬ Whole chunks (g.handleConnection k chunks) := by
  obtain ⟨hs, bs, rest, head, start, rfl, hhead, hcmd, hlt, hend, hcap, hline⟩ := h
  have hbody := readBody_short hhead.start_le hlt hend hcap
  have hconn := handleConnection_eq (g := g) (k := k) hhead (bs ++ rest)
  rw [hbody, List.take_of_length_le hlt.le, hcmd, route_cmd, ← List.append_assoc] at hconn
  intro hwhole
  have hforwarded : (g.handleConnection k (hs ++ bs ++ rest)).1.forwarded
      = some (firstLine (start ++ bs.flatten)) := by
    rw [hconn]
    exact (routeCmd_line hline).1
  obtain ⟨received, head', body, hreceived, hsplit, hlen, -⟩ := hwhole _ hforwarded
  rw [hconn] at hreceived
  obtain rfl := List.append_cancel_right hreceived
  -- what was received has the same head, and a body that is too short
  rw [List.flatten_append, splitHead_append hhead.split] at hsplit
  obtain ⟨rfl, rfl⟩ := Prod.mk.inj (Option.some.inj hsplit)
  omega

theorem whole_of_not_truncated (h : ¬ Truncated chunks) :
    Whole chunks (g.handleConnection k chunks) := by
  intro line hline
  obtain ⟨hs, cs, head, start, rfl, hhead⟩ := forwarded_headers hline
  rw [handleConnection_eq hhead] at hline ⊢
  rcases hread : readBody (parseContentLength head) start cs with ⟨e, body, rest⟩
  rw [hread] at hline
  obtain ⟨bs, rfl, rfl, hcap, hend⟩ := readBody_split hhead.start_le hread
  have hsplit : splitHead (hs ++ bs).flatten = some (head, start ++ bs.flatten) := by
    rw [List.flatten_append]
    exact splitHead_append hhead.split bs.flatten
  rcases route_cases g k (requestLine head).1 (requestLine head).2
    ((start ++ bs.flatten).take (parseContentLength head)) with
    ⟨hnone, -, -⟩ | ⟨hpost, hpath, hne, hsome, -⟩
  · rw [hnone] at hline
    cases hline
  · rw [hsome] at hline
    refine ⟨hs ++ bs, head, start ++ bs.flatten, (List.append_assoc _ _ _).symm, hsplit, ?_,
      (Option.some.inj hline).symm⟩
    -- a shorter body would be a truncated one
    by_contra hlt
    rw [List.take_of_length_le (not_le.1 hlt).le] at hne
    exact h ⟨hs, bs, rest, head, start, (List.append_assoc _ _ _).symm, hhead,
      Prod.ext hpost hpath, not_le.1 hlt, hend (not_le.1 hlt), hcap, hne⟩

/-- The line a whole request forwards is a function of the stream. -/
theorem Whole.line {r : Routed × List Bytes} {line : Bytes} (h : Whole chunks r)
    (hline : r.1.forwarded = some line) : ∃ head body,
      splitHead chunks.flatten = some (head, body)
      ∧ line = firstLine (body.take (parseContentLength head)) := by
  obtain ⟨received, head, body, rfl, hsplit, hlen, rfl⟩ := h line hline
  refine ⟨head, body ++ r.2.flatten, ?_, ?_⟩
  · rw [List.flatten_append]
    exact splitHead_append hsplit _
  · rw [List.take_append_of_le_length hlen]

/-- A connection forwards a command only with all of its declared body, and then the first line of
just that, exactly if no command's body ends early. So the line does not depend on the chunks the
stream comes in. -/
theorem forwards_whole_iff (g : WebGateway) (k : Link) (chunks : List Bytes) :
    (Whole chunks (g.handleConnection k chunks) ↔ ¬ Truncated chunks)
    ∧ ∀ chunks' : List Bytes, chunks'.flatten = chunks.flatten → ¬ Truncated chunks →
      ¬ Truncated chunks' → ∀ line line',
      (g.handleConnection k chunks).1.forwarded = some line →
      (g.handleConnection k chunks').1.forwarded = some line' → line = line' := by
  refine ⟨⟨fun hwhole htrunc => htrunc.not_whole hwhole, whole_of_not_truncated⟩, ?_⟩
  intro chunks' hstream h h' line line' hline hline'
  obtain ⟨head, body, hsplit, rfl⟩ := (whole_of_not_truncated h).line hline
  obtain ⟨head', body', hsplit', rfl⟩ := (whole_of_not_truncated h').line hline'
  rw [hstream, hsplit] at hsplit'
  obtain ⟨rfl, rfl⟩ := Prod.mk.inj (Option.some.inj hsplit')
  rfl

/-- One byte short of deleting `user:10`, the connection ends and `user:1` is deleted. -/
theorem other_key_deleted :
    let chunks := [ascii "POST /cmd HTTP/1.1\r\nContent-Length: 11\r\n\r\nDEL user", ascii ":1"]
    let r := WebGateway.handleConnection ⟨ascii "127.0.0.1", 6380, []⟩
      ⟨true, 4096, ascii "(integer) 1\n"⟩ chunks
    r.1.forwarded = some (ascii "DEL user:1") ∧ r.1.sent = ascii "DEL user:1\n"
    ∧ ¬ Whole chunks r := by
  intro chunks r
  have hr : r.1.forwarded = some (ascii "DEL user:1") ∧ r.1.sent = ascii "DEL user:1\n"
      ∧ r.2 = [] := by
    decide
  refine ⟨hr.1, hr.2.1, fun hwhole => ?_⟩
  obtain ⟨received, head, body, hreceived, hsplit, hlen, -⟩ := hwhole _ hr.1
  rw [hr.2.2, List.append_nil] at hreceived
  rw [← hreceived] at hsplit
  have hchunks : splitHead chunks.flatten
      = some (ascii "POST /cmd HTTP/1.1\r\nContent-Length: 11", ascii "DEL user:1") := by
    decide
  rw [hchunks] at hsplit
  obtain ⟨rfl, rfl⟩ := Prod.mk.inj (Option.some.inj hsplit)
  revert hlen
  decide

end Connection

end WebGateway

end Redon
