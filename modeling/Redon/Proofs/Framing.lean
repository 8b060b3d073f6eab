import Redon.Lib.LineService
import Redon.Proofs.Tokens

/-!
# Lines through a connection

A server's connection is a `LineService` (`Node.service`), so it handles the lines that `LineReader`
takes, one after another, until one closes the connection or the reader gives up
(`receiveAll_feed`). So a line and its newline, in whatever chunks they arrive on a fresh
connection, are handled as one line or refused for its length (`receiveAll_one`). The router reads
back the reply the shard sends, unless it is too long or ends in a carriage return
(`recvLine_reply`).
-/

namespace Redon

open Lib Lib.LineReader

section Split

variable {line pre : Bytes}

theorem splitLine_eq_none : splitLine pre = none ↔ 10 ∉ pre := by
  unfold splitLine
  split_ifs with h <;> simp [h]

theorem splitLine_line (h : 10 ∉ line) (rest : Bytes) :
    splitLine (line ++ 10 :: rest) = some (line, rest) := by
  obtain ⟨htake, hdrop⟩ := LineService.takeWhile_line h rest
  rw [splitLine, if_pos (by simp), htake, hdrop]

theorem splitLine_some {b rest : Bytes} (h : splitLine b = some (line, rest)) :
    b = line ++ 10 :: rest ∧ 10 ∉ line := by
  by_cases hb : 10 ∈ b
  · obtain ⟨s, t, rfl, hs⟩ := List.eq_append_cons_of_mem hb
    rw [splitLine_line hs, Option.some.injEq, Prod.mk.injEq] at h
    obtain ⟨rfl, rfl⟩ := h
    exact ⟨rfl, hs⟩
  · rw [splitLine_eq_none.2 hb] at h
    cases h

end Split

section Reader

variable (e : ExecEnv) (info : Bytes)

/-- The lines are handled in turn, until one closes the connection. -/
def Node.handleAll : Node → Client → List Bytes → Node × Client
  | nd, c, [] => (nd, c)
  | nd, c, line :: lines =>
    if c.closed then (nd, c)
    else handleAll (nd.handleLine e info c line).1 (nd.handleLine e info c line).2 lines

/-- The client with another buffer. -/
def Client.put (c : Client) (b : Bytes) : Client := { c with inbuf := b }

/-- The check of what is left over. -/
def Client.refuse (c : Client) (tooLong : Bool) : Client :=
  if !c.closed && tooLong then
    { c with sent := c.sent ++ ascii "ERR line too long" ++ [10], closed := true }
  else c

variable {e info} {nd : Node} {c : Client} {b line : Bytes} {lines ls chunks : List Bytes}

theorem handleAll_closed (h : c.closed = true) : nd.handleAll e info c lines = (nd, c) := by
  cases lines with
  | nil => rfl
  | cons line lines => rw [Node.handleAll, if_pos h]

theorem handleAll_cons (h : c.closed = false) : nd.handleAll e info c (line :: lines)
    = (nd.handleLine e info c line).1.handleAll e info (nd.handleLine e info c line).2 lines := by
  rw [Node.handleAll, h]
  rfl

/-- Handling a line leaves the buffer alone. -/
theorem handleLine_put (nd : Node) (c : Client) (b line : Bytes) :
    nd.handleLine e info (c.put b) line
      = ((nd.handleLine e info c line).1, (nd.handleLine e info c line).2.put b) := rfl

theorem handleAll_put : ∀ (ls : List Bytes) (nd : Node) (c : Client),
    nd.handleAll e info (c.put b) ls
      = ((nd.handleAll e info c ls).1, (nd.handleAll e info c ls).2.put b)
  | [], _, _ => rfl
  | line :: ls, nd, c => by
    rcases hc : c.closed with _ | _
    · rw [handleAll_cons hc, handleAll_cons (c := c.put b) hc, handleLine_put]
      exact handleAll_put ls _ _
    · rw [handleAll_closed hc, handleAll_closed (c := c.put b) hc]

theorem refuse_put (c : Client) (b : Bytes) (tooLong : Bool) :
    (c.put b).refuse tooLong = (c.refuse tooLong).put b := by
  rcases hc : c.closed <;> cases tooLong <;> simp [Client.refuse, Client.put, hc]

theorem refuse_false (c : Client) : c.refuse false = c := by
  rw [Client.refuse, Bool.and_false]
  rfl

variable (e info)

/-- A connection of a server, its buffer apart. -/
def Node.service : LineService UInt8 (Node × Client) where
  handle p line := p.1.handleLine e info p.2 line
  closed p := p.2.closed
  refuse p :=
    (p.1, { p.2 with sent := p.2.sent ++ ascii "ERR line too long" ++ [10], closed := true })
  closed_refuse _ := rfl

/-- The server and its client, with the buffer put back. -/
def Client.restore (p : (Node × Client) × Bytes) : Node × Client := (p.1.1, p.1.2.put p.2)

theorem handleAll_service : ∀ (ls : List Bytes) (nd : Node) (c : Client),
    (Node.service e info).handleAll (nd, c) ls = nd.handleAll e info c ls
  | [], _, _ => rfl
  | line :: ls, nd, c => by
    rw [LineService.handleAll, Node.handleAll]
    exact ite_congr rfl (fun _ => rfl) fun _ => handleAll_service ls _ _

theorem check_service (p : Node × Client) (tooLong : Bool) :
    (Node.service e info).check p tooLong = (p.1, p.2.refuse tooLong) := by
  rcases hc : p.2.closed <;> cases tooLong <;>
    simp [LineService.check, Node.service, Client.refuse, hc]

theorem handleLines_service : ∀ (fuel : ℕ) (nd : Node) (c : Client) (b : Bytes),
    nd.handleLines e info fuel (c.put b)
      = Client.restore ((Node.service e info).handleLines 10 fuel (nd, c) b)
  | 0, _, _, _ => rfl
  | fuel + 1, nd, c, b => by
    rw [Node.handleLines, LineService.handleLines]
    change (if c.closed then _ else _) = Client.restore (if c.closed then _ else _)
    split_ifs with hc hb
    · rfl
    · have hs : splitLine (c.put b).inbuf
          = some (b.takeWhile (· ≠ 10), (b.dropWhile (· ≠ 10)).drop 1) := if_pos hb
      rw [hs]
      exact handleLines_service fuel (nd.handleLine e info c _).1 (nd.handleLine e info c _).2 _
    · rw [show splitLine (c.put b).inbuf = none from if_neg hb]
      rfl

theorem receive_put (nd : Node) (c : Client) (buf chunk : Bytes) :
    nd.receive e info (c.put buf) chunk = if c.closed then (nd, c.put buf) else
      ((nd.handleLines e info (buf ++ chunk).length (c.put (buf ++ chunk))).1,
        (nd.handleLines e info (buf ++ chunk).length (c.put (buf ++ chunk))).2.refuse
          (kMaxLineLength < (nd.handleLines e info (buf ++ chunk).length
            (c.put (buf ++ chunk))).2.inbuf.length)) := by
  rw [Node.receive]
  change (if c.closed then (nd, c.put buf) else
    let p := nd.handleLines e info (buf ++ chunk).length (c.put (buf ++ chunk))
    if !p.2.closed && kMaxLineLength < p.2.inbuf.length then
      (p.1, { p.2 with sent := p.2.sent ++ ascii "ERR line too long" ++ [10], closed := true })
    else (p.1, p.2)) = _
  simp only [Client.refuse]
  split_ifs <;> rfl

theorem receive_service (nd : Node) (c : Client) (buf chunk : Bytes) :
    nd.receive e info (c.put buf) chunk
      = Client.restore ((Node.service e info).receive 10 kMaxLineLength ((nd, c), buf) chunk) := by
  rw [receive_put, LineService.receive, handleLines_service]
  change _ = Client.restore (if c.closed then _ else _)
  split_ifs
  · rfl
  · simp only [Client.restore, check_service, ← refuse_put]
    rfl

theorem receiveAll_service : ∀ (chunks : List Bytes) (nd : Node) (c : Client) (buf : Bytes),
    nd.receiveAll e info (c.put buf) chunks
      = Client.restore ((Node.service e info).receiveAll 10 kMaxLineLength ((nd, c), buf) chunks)
  | [], _, _, _ => rfl
  | chunk :: chunks, nd, c, buf => by
    have hall : nd.receiveAll e info (c.put buf) (chunk :: chunks)
        = (nd.receive e info (c.put buf) chunk).1.receiveAll e info
          (nd.receive e info (c.put buf) chunk).2 chunks := rfl
    rw [hall, receive_service]
    rw [LineService.receiveAll, List.foldl_cons]
    exact receiveAll_service chunks _ _ _

/-- A server handles the lines that `LineReader` reads, in turn, until one closes the connection; it
closes the connection itself when the reader gives up. -/
theorem receiveAll_feed (chunks : List Bytes) (nd : Node) (c : Client) (buf : Bytes) :
    ∃ b, nd.receiveAll e info (c.put buf) chunks
        = ((nd.handleAll e info c (feed 10 kMaxLineLength buf chunks).1).1,
          ((nd.handleAll e info c (feed 10 kMaxLineLength buf chunks).1).2.refuse
            (feed 10 kMaxLineLength buf chunks).2.2).put b)
      ∧ ((nd.handleAll e info c (feed 10 kMaxLineLength buf chunks).1).2.closed = false →
        b = (feed 10 kMaxLineLength buf chunks).2.1) := by
  obtain ⟨hs, hb⟩ := (Node.service e info).receiveAll_feed 10 kMaxLineLength chunks (nd, c) buf
  rw [handleAll_service] at hs hb
  refine ⟨_, ?_, hb⟩
  rw [receiveAll_service, Client.restore, hs, check_service]

/-- A line in any chunks on a fresh connection is handled, or refused for its length. -/
theorem receiveAll_one (hn : 10 ∉ line) (hc : chunks.flatten = line ++ [10]) (nd : Node) :
    (∃ b, nd.receiveAll e info .fresh chunks = ((nd.handleLine e info .fresh line).1,
      (nd.handleLine e info .fresh line).2.put b))
    ∨ (kMaxLineLength < line.length ∧ ∃ b, nd.receiveAll e info .fresh chunks
      = (nd, (Client.fresh.refuse true).put b)) := by
  have hall : nd.receiveAll e info .fresh chunks = _ :=
    receiveAll_service e info chunks nd .fresh []
  rw [hall, Client.restore]
  rcases (Node.service e info).receiveAll_line 10 kMaxLineLength (s := (nd, Client.fresh)) hn hc rfl
    with h | ⟨hlen, h⟩ <;> rw [h]
  · exact .inl ⟨_, rfl⟩
  · exact .inr ⟨hlen, _, rfl⟩

theorem receiveAll_line (hn : 10 ∉ line) (hlen : line.length ≤ kMaxLineLength)
    (hc : chunks.flatten = line ++ [10]) (nd : Node) :
    ∃ b, nd.receiveAll e info .fresh chunks = ((nd.handleLine e info .fresh line).1,
      (nd.handleLine e info .fresh line).2.put b) := by
  rcases receiveAll_one e info hn hc nd with h | ⟨h, -⟩
  · exact h
  · omega

end Reader

section Reply

/-- A reply that comes through the router's reading of it. -/
def Relayed (reply : Bytes) : Prop :=
  10 ∉ reply ∧ reply.getLast? ≠ some 13 ∧ reply.length ≤ Router.kMaxReply

theorem recvLine_reply {reply : Bytes} (h : Relayed reply) :
    Router.recvLine (reply ++ [10]) = some reply :=
  readLine_eq_some.2 ⟨reply, [], rfl, h.1, h.2.2, (dropCr_of_ne h.2.1).symm⟩

end Reply

end Redon
