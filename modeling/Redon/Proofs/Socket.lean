import Redon.Socket
import Redon.Proofs.Connection

/-!
# One request on a connection

As long as a connection carries the beginning of one line, its thread executes that line, once it
has all of it, or nothing.
-/

namespace Redon

open Lib

/-- A line that begins a request is all of it. -/
theorem eq_of_begins {a b t : Bytes} (ha : 10 ∉ a) (hb : 10 ∉ b)
    (h : a ++ 10 :: t <+: b ++ [10]) : a = b ∧ t = [] := by
  obtain ⟨u, hu⟩ := h
  rw [List.append_assoc, List.cons_append] at hu
  have hsplit := splitLine_line ha (t ++ u)
  rw [hu, splitLine_line hb, Option.some.injEq, Prod.mk.injEq] at hsplit
  obtain ⟨rfl, hnil⟩ := hsplit
  exact ⟨rfl, (List.append_eq_nil_iff.1 hnil.symm).1⟩

namespace Socket

variable {x y : Socket} {sent line : Bytes}

/-- The line, or the beginning of it, is on its way, and the thread has sent `sent` before it. -/
structure Asks (x : Socket) (sent line : Bytes) : Prop where
  bytes : x.client.inbuf ++ x.wire <+: line ++ [10]
  sent : x.client.sent = sent
  link : x.client.isReplicaLink = false

/-- The thread has taken all that was sent. -/
structure Drained (x : Socket) : Prop where
  inbuf : x.client.inbuf = []
  wire : x.wire = []

theorem asks_dialled (line : Bytes) (k : ℕ) : (dialled (line ++ [10]) k).Asks [] line where
  bytes := by simpa [dialled, Client.fresh] using List.take_prefix k _
  sent := rfl
  link := rfl

theorem Asks.hangup (h : x.Asks sent line) : x.hangup.Asks sent line := ⟨h.bytes, h.sent, h.link⟩

theorem Drained.hangup (h : x.Drained) : x.hangup.Drained := ⟨h.inbuf, h.wire⟩

theorem Asks.inbuf_length (h : x.Asks sent line) (hn : 10 ∉ x.client.inbuf) :
    x.client.inbuf.length ≤ line.length := by
  have hpre : x.client.inbuf <+: line ++ [10] := (List.prefix_append _ _).trans h.bytes
  by_contra hlt
  have hlen := hpre.length_le
  rw [List.length_append, List.length_singleton] at hlen
  have hall : x.client.inbuf = line ++ [10] := by
    refine hpre.eq_of_length ?_
    rw [List.length_append, List.length_singleton]
    omega
  exact hn (hall ▸ List.mem_append_right _ (List.mem_singleton_self _))

/-- A thread that received bytes still has the line ahead; if it refuses, its line is too long. -/
theorem Asks.receive (h : x.Asks sent line) {k : ℕ} (hr : x.receive k = some y) :
    (y.Asks sent line ∧ y.client.closed = x.client.closed)
    ∨ (y.client.sent = sent ++ ascii "ERR line too long" ++ [10] ∧ y.client.closed = true
      ∧ kMaxLineLength < line.length) := by
  unfold Socket.receive at hr
  split_ifs at hr with hopen hlong hk
  · obtain rfl := Option.some.inj hr
    have hn : 10 ∉ x.client.inbuf :=
      splitLine_eq_none.1 (Option.not_isSome_iff_eq_none.1 fun hs => hopen (.inr hs))
    exact .inr ⟨by simp [h.sent], rfl, hlong.trans_le (h.inbuf_length hn)⟩
  · obtain rfl := Option.some.inj hr
    refine .inl ⟨⟨?_, h.sent, h.link⟩, rfl⟩
    simpa only [List.append_assoc, List.take_append_drop] using h.bytes

theorem Drained.receive (h : x.Drained) (k : ℕ) : x.receive k = none := by
  have hshort : ¬kMaxLineLength < x.client.inbuf.length := by
    rw [h.inbuf]
    decide
  have hwire : k = 0 ∨ 4096 < k ∨ x.wire.length < k := by
    rw [h.wire, List.length_nil]
    omega
  unfold Socket.receive
  rw [if_neg hshort, if_pos hwire, ite_self]

theorem Drained.nextLine (h : x.Drained) : x.nextLine = none := by
  rw [Socket.nextLine, h.inbuf]
  simp [splitLine]

/-- A line that is executed is the one that was asked, all of it. -/
theorem Asks.nextLine (h : x.Asks sent line) (hn : 10 ∉ line) {l : Bytes} {client : Client}
    (hl : x.nextLine = some (l, client)) :
    l = line ∧ x.wire = [] ∧ client = ⟨[], false, sent, false⟩ := by
  unfold Socket.nextLine at hl
  split_ifs at hl with hopen
  obtain ⟨⟨l', rest⟩, hline, he⟩ := Option.map_eq_some_iff.1 hl
  rw [Prod.mk.injEq] at he
  obtain ⟨rfl, rfl⟩ := he
  obtain ⟨hin, hnl⟩ := splitLine_some hline
  have hpre := h.bytes
  rw [hin, List.append_assoc, List.cons_append] at hpre
  obtain ⟨rfl, hrest⟩ := eq_of_begins hnl hn hpre
  obtain ⟨rfl, hwire⟩ := List.append_eq_nil_iff.1 hrest
  refine ⟨rfl, hwire, ?_⟩
  simp [h.sent, h.link, Bool.eq_false_of_not_eq_true hopen]

end Socket

end Redon
