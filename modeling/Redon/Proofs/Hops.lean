import Redon.Proofs.Framing
import Redon.Proofs.Handover

/-!
# From one server to the next

The lines of a stream are all handled, however it arrives, if and only if each is within
`kMaxLineLength` (`takesAll_iff`): a longer one is refused when it comes byte by byte. The server
that sends it may have taken it itself, since its own reader looks at the length between two calls
of `recv` only. So not all that one server takes is taken by the next (`onward_iff`).
-/

namespace Redon

open Lib Lib.LineReader Replicator

section Limits

open Storage

variable {e : ExecEnv} {info : Bytes} {nd : Node} {c : Client} {key value line : Bytes}
  {lines chunks : List Bytes} {s after : Storage}

/-- The line's verb is none of those that close the connection. -/
def Stays (line : Bytes) : Prop :=
  (lineTokens line).1 ≠ ascii "QUIT" ∧ (lineTokens line).1 ≠ ascii "EXIT"

theorem mem_evictLoop : ∀ (n : ℕ) {s : Storage}, (.set key value, after) ∉ (evictLoop n s).2
  | 0, s => List.not_mem_nil
  | n + 1, s => by
    rcases evictLoop_cases n s with he | ⟨k, v, s₁, -, -, he⟩ | ⟨k, v, s₁, -, -, s₂, -, he⟩ <;>
      rw [he]
    · exact List.not_mem_nil
    · exact List.not_mem_nil
    · rw [List.mem_cons, not_or]
      exact ⟨nofun, mem_evictLoop n⟩

theorem mem_set {k v : Bytes} (h : (.set key value, after) ∈ (s.set k v).2.2) :
    k = key ∧ v = value := by
  rcases hd : s.disk with _ | d
  · rcases set_cases hd k v with ⟨s₁, -, he⟩ | ⟨s₁, i, -, -, s₂, -, he⟩ | ⟨s₁, hi, -, s₂, -, he⟩ <;>
      rw [he] at h
    · cases h
    · obtain ⟨⟩ := List.mem_singleton.1 h
      exact ⟨rfl, rfl⟩
    · rcases List.mem_cons.1 h with h | h
      · obtain ⟨⟩ := h
        exact ⟨rfl, rfl⟩
      · exact absurd h (mem_evictLoop _)
  · simp only [Storage.set, hd] at h
    rcases hw : d.set k v with ⟨_ | _, d'⟩ <;> rw [hw] at h
    · cases h
    · obtain ⟨⟩ := List.mem_singleton.1 h
      exact ⟨rfl, rfl⟩

theorem mem_del {k : Bytes} (h : (.set key value, after) ∈ (s.del k).2.2) : False := by
  rcases hd : s.disk with _ | d
  · rcases del_cases hd k with ⟨-, he⟩ | ⟨i, s₁, -, -, he⟩ | ⟨i, s₁, -, -, s₂, -, he⟩ <;>
      rw [he] at h
    · cases h
    · cases h
    · cases List.mem_singleton.1 h
  · simp only [Storage.del, hd] at h
    split_ifs at h
    · cases h
    · cases List.mem_singleton.1 h
    · cases h

/-- What executing a line can come to: only `QUIT` and `EXIT` close the connection, and only a
`SET` line hands over a `SET`, with its own key and value. -/
structure Limits (line : Bytes) (r : Executed) : Prop where
  stays : Stays line → r.shouldClose = false
  set : ∀ key value after, (.set key value, after) ∈ r.replicated →
    (lineTokens line).2 = (key, value) ∧ key ≠ [] ∧ value ≠ []

theorem Does.handed {x : ExecState} {o : Op} {r : Executed} {p : Storage.Replicated}
    (h : Does e x info o r) (hp : p ∈ r.replicated) : ∃ c, o = .call c ∧ p ∈ x.store.handed c := by
  cases h with
  | call c => exact ⟨c, rfl, hp⟩
  | _ => cases hp

theorem answerLine_limits (nd : Node) (link : Bool) (line : Bytes) :
    Limits line (nd.answerLine e info link line) := by
  have hdoes : Does e _ info _ _ := answerLine_does nd link line
  refine ⟨fun hstays => ?_, fun key value after hr => ?_⟩
  · rw [hdoes.close, decide_eq_false_iff_not]
    intro hquit
    rcases ite_eq_iff.1 hquit with ⟨-, hquit⟩ | ⟨-, hquit⟩
    · cases hquit
    · exact absurd (lineOp_quit.1 hquit).1 (not_or.2 hstays)
  · obtain ⟨c, ho, hmem⟩ := hdoes.handed hr
    cases (asks_of_lineOp ho).2 with
    | set _ hk hv =>
      obtain ⟨rfl, rfl⟩ := mem_set hmem
      exact ⟨rfl, hk, hv⟩
    | get => cases hmem
    | del => exact (mem_del hmem).elim
    | «exists» => cases hmem

theorem handleAll_open : ∀ {lines : List Bytes} {nd : Node} {c : Client},
    (∀ line ∈ lines, Stays line) → c.closed = false → (nd.handleAll e info c lines).2.closed = false
  | [], _, _, _, hc => hc
  | line :: lines, nd, c, h, hc => by
    rw [List.forall_mem_cons] at h
    rw [handleAll_cons hc]
    exact handleAll_open h.2 ((answerLine_limits nd c.isReplicaLink line).stays h.1)

end Limits

section Within

/-- In whatever chunks `recv` gives the lines, all are handled and the connection stays open. -/
def Node.TakesAll (e : ExecEnv) (info : Bytes) (nd : Node) (lines : List Bytes) : Prop :=
  ∀ chunks : List Bytes, (∀ b ∈ chunks, b ≠ [] ∧ b.length ≤ 4096) →
    chunks.flatten = join 10 lines →
    nd.receiveAll e info .fresh chunks = nd.handleAll e info .fresh lines
      ∧ (nd.receiveAll e info .fresh chunks).2.closed = false

variable {e : ExecEnv} {info : Bytes} {nd : Node} {line : Bytes} {lines : List Bytes}

/-- Lines of which one is over the limit, byte by byte. -/
theorem receiveAll_over (hn : ∀ line ∈ lines, 10 ∉ line) (hs : ∀ line ∈ lines, Stays line)
    (hl : line ∈ lines) (hlen : kMaxLineLength < line.length) :
    ∃ t, (nd.receiveAll e info .fresh ((join 10 lines).map ([·]))).2.sent
        = t ++ ascii "ERR line too long" ++ [10]
      ∧ (nd.receiveAll e info .fresh ((join 10 lines).map ([·]))).2.closed = true := by
  obtain ⟨b, he, -⟩ := receiveAll_feed e info ((join 10 lines).map ([·])) nd .fresh []
  have hover : (feed 10 kMaxLineLength [] ((join 10 lines).map ([·]))).2.2 = true := by
    refine feed_singletons List.not_mem_nil (Nat.zero_le _) (.inl ⟨line, ?_, hlen⟩)
    rw [List.nil_append, cut_lines hn]
    exact hl
  have hfirst : (feed 10 kMaxLineLength [] ((join 10 lines).map ([·]))).1 <+: lines := by
    refine (feed_first _ []).trans ?_
    rw [flatten_singletons, List.nil_append, cut_lines hn]
  have hopen : (nd.handleAll e info .fresh
      (feed 10 kMaxLineLength [] ((join 10 lines).map ([·]))).1).2.closed = false :=
    handleAll_open (fun line hl => hs line (hfirst.subset hl)) rfl
  change nd.receiveAll e info .fresh _ = _ at he
  rw [hover, Client.refuse, hopen] at he
  rw [he]
  exact ⟨_, rfl, rfl⟩

theorem takesAll_iff (hn : ∀ line ∈ lines, 10 ∉ line) (hs : ∀ line ∈ lines, Stays line) :
    nd.TakesAll e info lines ↔ ∀ line ∈ lines, line.length ≤ kMaxLineLength := by
  constructor
  · intro h line hl
    by_contra hlen
    obtain ⟨t, -, hclosed⟩ := receiveAll_over hn hs hl (Nat.not_le.1 hlen)
    have hbytes := h ((join 10 lines).map ([·])) (fun b hb => ?_) (flatten_singletons _)
    · rw [hclosed] at hbytes
      cases hbytes.2
    · obtain ⟨a, -, rfl⟩ := List.mem_map.1 hb
      exact ⟨List.cons_ne_nil _ _, by simp⟩
  · intro hlen chunks _ hflat
    have hfeed : feed 10 kMaxLineLength [] chunks = (lines, [], false) := by
      have h : _ → _ → feed 10 kMaxLineLength [] chunks = _ := feed_within List.not_mem_nil
      rw [List.nil_append, hflat, cut_lines hn] at h
      exact h hlen (Nat.zero_le _)
    have hopen : (nd.handleAll e info .fresh lines).2.closed = false := handleAll_open hs rfl
    obtain ⟨b, he, hb⟩ := receiveAll_feed e info chunks nd .fresh []
    rw [hfeed, refuse_false] at he
    rw [hfeed] at hb
    obtain rfl := hb hopen
    have hput : nd.handleAll e info .fresh lines = _ := handleAll_put (b := []) lines nd .fresh
    change nd.receiveAll e info .fresh _ = _ at he
    rw [← hput] at he
    rw [he]
    exact ⟨rfl, hopen⟩

theorem stays_text {it : Option Mutation} (h : ∀ r ∈ it, r.Wire) : Stays (text it) := by
  rcases it with _ | ⟨k, v⟩ | k
  · exact ⟨by decide, by decide⟩
  · rw [Stays, lineTokens_set (h _ rfl)]
    exact ⟨by simp [ascii], by simp [ascii]⟩
  · rw [Stays, lineTokens_del (h _ rfl)]
    exact ⟨by simp [ascii], by simp [ascii]⟩

/-- The handshake and then changes and heartbeats. -/
theorem sync_lines {items : List (Option Mutation)} (h : ∀ it ∈ items, ∀ r ∈ it, r.Wire) :
    (∀ line ∈ hello :: items.map text, 10 ∉ line)
    ∧ ∀ line ∈ hello :: items.map text, Stays line := by
  rw [List.forall_mem_cons, List.forall_mem_map, List.forall_mem_cons, List.forall_mem_map]
  exact ⟨⟨by decide, fun it hit => newline_text (h it hit)⟩, ⟨by decide, by decide⟩,
    fun it hit => stays_text (h it hit)⟩

theorem takesAll_sync {items : List (Option Mutation)} (h : ∀ it ∈ items, ∀ r ∈ it, r.Wire) :
    nd.TakesAll e info (hello :: items.map text)
      ↔ ∀ it ∈ items, (text it).length ≤ kMaxLineLength := by
  obtain ⟨hn, hstays⟩ := sync_lines h
  rw [takesAll_iff hn hstays, List.forall_mem_cons, List.forall_mem_map]
  exact and_iff_right (by decide)

end Within

/-- For a line that a server took from a client's stream, however that arrived. If it is a `SET`
that the server executes and hands over, then the line it sends on, behind others within the limit,
is executed and the connection stays open, however it arrives, if and only if it is within the limit
itself. The same holds of a `SET` line that a router forwards. -/
theorem onward_iff {line : Bytes} {chunks : List Bytes}
    (hline : line ∈ (feed 10 kMaxLineLength [] chunks).1) :
    (∀ (e : ExecEnv) (info : Bytes) (nd : Node) (link : Bool) (key value : Bytes) (after : Storage),
      (.set key value, after) ∈ (nd.answerLine e info link line).replicated →
      ∀ (e' : ExecEnv) (info' : Bytes) (nd' : Node),
        (∀ items : List (Option Mutation),
          (∀ it ∈ items, (∀ r ∈ it, r.Wire) ∧ (text it).length ≤ kMaxLineLength) →
          nd'.TakesAll e' info' (hello :: (items ++ [some (Mutation.set key value)]).map text))
        ↔ (setLine key value).length ≤ kMaxLineLength + 1)
    ∧ ∀ (e : ExecEnv) (info : Bytes) (nd : Node), (verbAndKey line).1 = ascii "SET" →
      (nd.TakesAll e info [line] ↔ line.length ≤ kMaxLineLength) := by
  have hn := notMem_of_feed hline
  refine ⟨fun e info nd link key value after hset e' info' nd' => ?_, fun e info nd hverb => ?_⟩
  · obtain ⟨htok, hk, hv⟩ := (answerLine_limits nd link line).set key value after hset
    have hwire : (Mutation.set key value).Wire := by
      have h := wire_line hn
      rw [htok] at h
      exact h hk hv
    have hlast : ∀ r ∈ some (Mutation.set key value), r.Wire := by
      rintro _ ⟨⟩
      exact hwire
    have hlen : (setLine key value).length = (text (some (Mutation.set key value))).length + 1 :=
      List.length_append
    rw [hlen, Nat.add_le_add_iff_right]
    constructor
    · intro h
      have h₀ := h [] (by simp)
      rw [List.nil_append, takesAll_sync (List.forall_mem_singleton.2 hlast),
        List.forall_mem_singleton] at h₀
      exact h₀
    · intro h items hitems
      rw [takesAll_sync, List.forall_mem_append, List.forall_mem_singleton]
      · exact ⟨fun it hit => (hitems it hit).2, h⟩
      · rw [List.forall_mem_append, List.forall_mem_singleton]
        exact ⟨fun it hit => (hitems it hit).1, hlast⟩
  · rw [verbAndKey_eq] at hverb
    have hstays : Stays line := by
      rw [Stays, hverb]
      decide
    rw [takesAll_iff (List.forall_mem_singleton.2 hn) (List.forall_mem_singleton.2 hstays),
      List.forall_mem_singleton]

section Runs

def replicaEnv : ExecEnv := { standaloneEnv with nodeIsFollower := true }

def emptyNode : Node := ⟨.empty 0, none⟩

/-- An empty server executes a `SET` and hands it over. -/
theorem emptyNode_set {key value : Bytes} (h : (Mutation.set key value).Wire) :
    ∃ after, (.set key value, after) ∈ (emptyNode.answerLine standaloneEnv [] false
      (text (some (.set key value)))).replicated := by
  have htok := lineTokens_set h
  have hk : (lineTokens (text (some (.set key value)))).2.1 ≠ [] := by
    rw [htok]
    exact h.1
  have hinfo : (verbAndKey (text (some (.set key value)))).1 ≠ ascii "INFO" := by
    rw [verbAndKey_eq, htok]
    simp [ascii]
  have hset : emptyNode.answerLine standaloneEnv [] false (text (some (.set key value)))
      = (⟨.empty 0, false, none⟩ : ExecState).executeSet key value := by
    unfold Node.answerLine
    simp only [if_neg hinfo, executeLine_eq, trim_ne_nil hk, htok]
    rfl
  have hargs : ¬ (key.isEmpty || value.isEmpty) = true := by
    simp only [Bool.or_eq_true, List.isEmpty_iff, not_or]
    exact ⟨h.1, h.2.2.1⟩
  rw [hset, ExecState.executeSet, if_neg hargs]
  rcases Storage.set_cases (s := .empty 0) rfl key value with ⟨s₁, hl, he⟩
    | ⟨s₁, i, -, -, s₂, -, he⟩ | ⟨s₁, hi, -, s₂, -, he⟩
  · cases hl
  · rw [he]
    exact ⟨s₂, List.mem_cons_self⟩
  · rw [he]
    exact ⟨s₂, List.mem_cons_self⟩

theorem length_long (n : ℕ) :
    (text (some (.set (ascii "k") (List.replicate n 118)))).length = n + 6 := by
  rw [text, List.length_append, List.length_replicate]
  exact Nat.add_comm _ _

theorem wire_long (n : ℕ) : (Mutation.set (ascii "k") (List.replicate (n + 1) 118)).Wire := by
  refine ⟨by decide, by simp [Solid, ascii, isSpace], by simp, by simp [List.mem_replicate], ?_, ?_⟩
  · intro c hc
    rw [List.eq_of_mem_replicate (List.mem_of_mem_head? hc)]
    rfl
  · intro c hc
    rw [List.eq_of_mem_replicate (List.mem_of_getLast? hc)]
    rfl

/-- Chunks within the limit, and one more with the last byte of the value and the newline. -/
theorem feed_long {n : ℕ} {chunks : List Bytes}
    (hc : chunks.flatten = ascii "SET k " ++ List.replicate n 118) (hn : n + 6 ≤ kMaxLineLength) :
    text (some (.set (ascii "k") (List.replicate (n + 1) 118)))
      ∈ (feed 10 kMaxLineLength [] (chunks ++ [[118, 10]])).1 := by
  have hsep : 10 ∉ [] ++ chunks.flatten ++ [118] := by
    rw [List.nil_append, hc]
    simp [ascii, List.mem_replicate]
  have hlen : ([] ++ chunks.flatten).length ≤ kMaxLineLength := by
    rw [List.nil_append, hc, List.length_append, List.length_replicate]
    exact (Nat.add_comm _ _).trans_le hn
  have hf := feed_spill hsep hlen
  rw [List.nil_append, hc] at hf
  change feed 10 kMaxLineLength [] (chunks ++ [[118, 10]]) = _ at hf
  rw [hf, List.append_assoc, ← List.replicate_succ']
  exact List.mem_singleton.2 rfl

end Runs

theorem onward_iff_short : emptyNode.TakesAll replicaEnv [] [hello, ascii "SET k v"]
    ∧ emptyNode.TakesAll standaloneEnv [] [ascii "SET k v"] := by
  have h := @onward_iff (ascii "SET k v") [ascii "SET k v\n"] (by decide)
  refine ⟨?_, (h.2 _ _ _ (by decide)).2 (by decide)⟩
  exact (h.1 standaloneEnv [] emptyNode false (ascii "k") (ascii "v") _ List.mem_cons_self _ _ _).2
    (by decide) [] (by simp)

/-- A line of 65537 bytes: a server takes it in chunks of 4096 bytes and one of two, executes it and
hands it over. Byte by byte its follower refuses it. -/
theorem onward_refused : ∃ chunks value after chunks' t,
    (∀ b ∈ chunks, b ≠ [] ∧ b.length ≤ 4096)
    ∧ text (some (.set (ascii "k") value)) ∈ (feed 10 kMaxLineLength [] chunks).1
    ∧ (.set (ascii "k") value, after) ∈ (emptyNode.answerLine standaloneEnv [] false
      (text (some (.set (ascii "k") value)))).replicated
    ∧ (∀ b ∈ chunks', b ≠ [] ∧ b.length ≤ 4096)
    ∧ chunks'.flatten = hello ++ [10] ++ setLine (ascii "k") value
    ∧ (emptyNode.receiveAll replicaEnv [] .fresh chunks').2.sent
      = t ++ ascii "ERR line too long" ++ [10] := by
  have hwire := wire_long 65530
  have hlast : ∀ r ∈ some (Mutation.set (ascii "k") (List.replicate (65530 + 1) 118)), r.Wire := by
    rintro _ ⟨⟩
    exact hwire
  have hlong : kMaxLineLength
      < (text (some (.set (ascii "k") (List.replicate (65530 + 1) 118)))).length := by
    rw [length_long]
    decide
  obtain ⟨after, hset⟩ := emptyNode_set hwire
  obtain ⟨hn, hs⟩ := sync_lines (List.forall_mem_singleton.2 hlast)
  obtain ⟨t, hsent, -⟩ := @receiveAll_over replicaEnv [] emptyNode _ _ hn hs
    (List.mem_cons_of_mem _ (List.mem_singleton.2 rfl)) hlong
  refine ⟨(ascii "SET k " ++ List.replicate 4090 118) :: List.replicate 15 (List.replicate 4096 118)
    ++ [[118, 10]], List.replicate (65530 + 1) 118, after, _, t, ?_, feed_long ?_ (by decide), hset,
    fun b hb => ?_, ?_, hsent⟩
  · rw [List.forall_mem_append, List.forall_mem_cons, List.forall_mem_singleton]
    refine ⟨⟨⟨List.append_ne_nil_of_left_ne_nil (by decide) _, ?_⟩, fun b hb => ?_⟩,
      by decide, by decide⟩
    · rw [List.length_append, List.length_replicate]
      decide
    · rw [List.eq_of_mem_replicate hb]
      exact ⟨List.ne_nil_of_length_pos (by rw [List.length_replicate]; decide),
        List.length_replicate.le⟩
  · rw [List.flatten_cons, List.flatten_replicate_replicate, List.append_assoc,
      List.replicate_append_replicate]
  · obtain ⟨a, -, rfl⟩ := List.mem_map.1 hb
    exact ⟨List.cons_ne_nil _ _, by simp⟩
  · rw [flatten_singletons, List.map_singleton, join_cons, join_cons, join_nil, List.append_assoc]
    rfl

end Redon
