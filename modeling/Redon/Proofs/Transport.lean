import Redon.Proofs.Framing
import Redon.Proofs.Handover

/-!
# Lines through a connection

What is on its way to the follower on a connection is complete lines and perhaps part of one whose
sending failed (`Carries`). Sending, receiving and executing keep it so: what a handler executes is
what was sent, line by line.
-/

namespace Redon

open Lib Mutation

namespace Replicator

/-- The lines executed on connection `c`. -/
def executed (log : List (ℕ × Bytes)) (c : ℕ) : List Bytes :=
  (log.filter fun p => p.1 = c).map Prod.snd

section Executed

variable {log : List (ℕ × Bytes)} {c c' : ℕ} {line : Bytes}

@[simp] theorem executed_append (log log' : List (ℕ × Bytes)) (c : ℕ) :
    executed (log ++ log') c = executed log c ++ executed log' c := by
  simp [executed]

@[simp] theorem executed_self (c : ℕ) (line : Bytes) : executed [(c, line)] c = [line] := by
  simp [executed]

theorem executed_of_ne (h : c' ≠ c) (line : Bytes) : executed [(c', line)] c = [] := by
  simp [executed, h]

theorem executed_map (c : ℕ) : ∀ ls : List Bytes, executed (ls.map fun l => (c, l)) c = ls
  | [] => rfl
  | l :: ls => by
    have ih := executed_map c ls
    simp only [executed, List.map_cons, List.filter_cons, decide_true, if_true] at ih ⊢
    rw [ih]

end Executed

/-- A connection on which `done` was executed and `lines` are on their way, and then `tail`. -/
structure Carries (x : Conn) (done lines : List Bytes) (tail : Bytes) : Prop where
  bytes : x.client.inbuf ++ x.wire = (lines.map (· ++ [10])).flatten ++ tail
  sent : x.trail.sent = (done ++ lines).map (· ++ [10])
  newline : ∀ l ∈ lines, 10 ∉ l
  tail : 10 ∉ tail
  link : x.client.isReplicaLink = !done.isEmpty

section Carries

variable {x : Conn} {done lines : List Bytes} {tail line rest : Bytes}

theorem carries_fresh : Carries .fresh [] [] [] := ⟨rfl, rfl, by simp, by simp, rfl⟩

theorem Carries.send (h : Carries x done lines []) (hl : 10 ∉ line) :
    Carries (x.send (line ++ [10]) none) done (lines ++ [line]) [] := by
  refine ⟨?_, ?_, ?_, by simp, h.link⟩
  · have hb := h.bytes
    simp only [List.append_nil] at hb
    simp only [Conn.send, ← List.append_assoc, hb]
    simp
  · simp only [Conn.send, h.sent]
    simp
  · intro l hmem
    rcases List.mem_append.1 hmem with hmem | hmem
    · exact h.newline l hmem
    · rwa [List.mem_singleton.1 hmem]

theorem Carries.sendPart (h : Carries x done lines []) (hl : 10 ∉ line) {n : ℕ}
    (hn : n < (line ++ [10]).length) :
    ∃ tail, Carries (x.send (line ++ [10]) (some n)) done lines tail := by
  rw [List.length_append, List.length_singleton] at hn
  refine ⟨line.take n, ?_, h.sent, h.newline, fun hc => hl (List.mem_of_mem_take hc), h.link⟩
  have hb := h.bytes
  simp only [List.append_nil] at hb
  simp only [Conn.send, ← List.append_assoc, hb]
  rw [List.take_append_of_le_length (by omega)]

/-- The next line a handler finds is the next one that was sent. -/
theorem Carries.next (h : Carries x done lines tail)
    (hs : splitLine x.client.inbuf = some (line, rest)) :
    ∃ lines', lines = line :: lines'
      ∧ rest ++ x.wire = (lines'.map (· ++ [10])).flatten ++ tail := by
  obtain ⟨hin, hl⟩ := splitLine_some hs
  have hb := h.bytes
  rw [hin, List.append_assoc, List.cons_append] at hb
  cases lines with
  | nil =>
    have hmem : 10 ∈ tail := by
      rw [List.map_nil, List.flatten_nil, List.nil_append] at hb
      rw [← hb]
      simp
    exact absurd hmem h.tail
  | cons l lines =>
    have hsplit := congrArg splitLine hb
    rw [splitLine_line hl, List.map_cons, List.flatten_cons, List.append_assoc, List.append_assoc,
      List.singleton_append, splitLine_line (h.newline l List.mem_cons_self), Option.some.injEq,
      Prod.mk.injEq] at hsplit
    obtain ⟨rfl, hrest⟩ := hsplit
    exact ⟨lines, rfl, hrest⟩

theorem Carries.execute {client : Client} (h : Carries x done (line :: lines) tail)
    (hb : client.inbuf ++ x.wire = (lines.map (· ++ [10])).flatten ++ tail)
    (hl : client.isReplicaLink = true) :
    Carries { x with client := client } (done ++ [line]) lines tail := by
  refine ⟨hb, ?_, fun l hmem => h.newline l (List.mem_cons_of_mem _ hmem), h.tail, ?_⟩
  · rw [List.append_assoc]
    exact h.sent
  · rw [hl]
    simp

theorem Carries.client {client : Client} {wire : Bytes} (h : Carries x done lines tail)
    (hb : client.inbuf ++ wire = x.client.inbuf ++ x.wire)
    (hl : client.isReplicaLink = x.client.isReplicaLink) :
    Carries { x with wire := wire, client := client } done lines tail :=
  ⟨hb.trans h.bytes, h.sent, h.newline, h.tail, hl.trans h.link⟩

theorem Carries.retrail {t : Trail} (h : Carries x done lines tail) (ht : t.sent = x.trail.sent) :
    Carries { x with trail := t } done lines tail :=
  ⟨h.bytes, ht.trans h.sent, h.newline, h.tail, h.link⟩

end Carries

end Replicator

end Redon
