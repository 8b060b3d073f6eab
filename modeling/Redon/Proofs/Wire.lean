import Redon.Proofs.Commands
import Redon.Replication

/-!
# Changes as lines

A change to a key without white space, with a value that neither starts nor ends in it and has no
newline, is sent as one line that the follower splits into the same change (`lineTokens_set`,
`lineTokens_del`). The changes a leader's clients ask for are all like that (`wire_line`), and a
replica link that executes such lines makes exactly those changes (`handleLine_text`).
-/

namespace Redon

open Lib Mutation Replicator

section Wire

/-- The change comes through as a line. -/
def Mutation.Wire : Mutation → Prop
  | .set k v => k ≠ [] ∧ Solid k ∧ v ≠ [] ∧ 10 ∉ v ∧ (∀ c ∈ v.head?, isSpace c = false)
      ∧ ∀ c ∈ v.getLast?, isSpace c = false
  | .del k => k ≠ [] ∧ Solid k

/-- So would every entry of the map. -/
def WireMap (m : Map) : Prop := ∀ k v, m.lookup k = some v → (Mutation.set k v).Wire

variable {m : Map} {r : Mutation} {k v line : Bytes}

theorem wireMap_empty : WireMap ∅ := by
  intro k v h
  rw [Finmap.lookup_empty] at h
  cases h

theorem WireMap.apply (h : WireMap m) (hr : r.Wire) : WireMap (r.apply m) := forall_apply h hr

theorem WireMap.applyAll {rs : List Mutation} {m : Map} (h : WireMap m) (hrs : ∀ r ∈ rs, r.Wire) :
    WireMap (Mutation.applyAll m rs) := forall_applyAll h hrs

theorem WireMap.del (h : WireMap m) (hk : m.lookup k = some v) : (Mutation.del k).Wire :=
  ⟨(h k v hk).1, (h k v hk).2.1⟩

theorem wire_line (hn : 10 ∉ line) (hk : (lineTokens line).2.1 ≠ [])
    (hr : (lineTokens line).2.2 ≠ []) :
    (Mutation.set (lineTokens line).2.1 (lineTokens line).2.2).Wire := by
  obtain ⟨hmem, -, hhead, hlast⟩ := rest_spec line
  exact ⟨hk, (key_spec line).1, hr, fun hc => hn (hmem 10 hc), hhead, hlast⟩

end Wire

section Text

/-- The line, without its newline, of a change or a heartbeat. -/
def text : Option Mutation → Bytes
  | none => ping
  | some (.set k v) => ascii "SET " ++ k ++ ascii " " ++ v
  | some (.del k) => ascii "DEL " ++ k

theorem replicate_eq (r : Mutation) : replicate r = text (some r) ++ [10] := by
  cases r <;> rfl

variable {k v : Bytes} {it : Option Mutation}

theorem newline_solid {t : Bytes} (ht : Solid t) : 10 ∉ t := by
  intro hc
  have := ht 10 hc
  cases this

theorem newline_text (h : ∀ r ∈ it, r.Wire) : 10 ∉ text it := by
  rcases it with _ | ⟨k, v⟩ | k
  · decide
  · obtain ⟨-, hk, -, hv, -⟩ := h _ rfl
    simp only [text, List.mem_append, not_or]
    exact ⟨⟨⟨by decide, newline_solid hk⟩, by decide⟩, hv⟩
  · obtain ⟨-, hk⟩ := h _ rfl
    simp only [text, List.mem_append, not_or]
    exact ⟨by decide, newline_solid hk⟩

theorem head_of_solid {t : Bytes} (ht : Solid t) : ∀ c ∈ t.head?, isSpace c = false :=
  fun c hc => ht c (List.mem_of_mem_head? hc)

theorem solid_verbs : Solid (ascii "SET") ∧ Solid (ascii "DEL") := by
  constructor <;> simp [Solid, ascii, isSpace]

theorem lineTokens_set (h : (Mutation.set k v).Wire) :
    lineTokens (text (some (.set k v))) = (ascii "SET", k, v) := by
  obtain ⟨hne, hk, hv, -, hhead, hlast⟩ := h
  have hs : text (some (.set k v)) = ascii "SET" ++ 32 :: (k ++ 32 :: v) := by simp [text, ascii]
  have htok : lineTokens (ascii "SET" ++ 32 :: (k ++ 32 :: v))
      = (ascii "SET", nextToken (k ++ 32 :: v)) := by
    refine lineTokens_verb (c := 83) solid_verbs.1 (by decide) (by simp) ?_ fun b hb => hlast b ?_
    · intro b hb
      rw [List.head?_append_of_ne_nil _ hne] at hb
      exact head_of_solid hk b hb
    · have hsplit : k ++ 32 :: v = (k ++ [32]) ++ v := by simp
      rwa [hsplit, List.getLast?_append_of_ne_nil _ hv] at hb
  rw [hs, htok, nextToken_solid_append hk hhead]

theorem lineTokens_del (h : (Mutation.del k).Wire) :
    lineTokens (text (some (.del k))) = (ascii "DEL", k, []) := by
  obtain ⟨hne, hk⟩ := h
  have hs : text (some (.del k)) = ascii "DEL" ++ 32 :: k := by simp [text, ascii]
  have htok : lineTokens (ascii "DEL" ++ 32 :: k) = (ascii "DEL", nextToken k) :=
    lineTokens_verb (c := 68) solid_verbs.2 (by decide) hne (head_of_solid hk)
      fun b hb => hk b (List.mem_of_getLast? hb)
  rw [hs, htok, nextToken_last hk]

theorem lineWrite_text (h : ∀ r ∈ it, r.Wire) : lineWrite (text it) = it.toList := by
  rcases it with _ | ⟨k, v⟩ | k
  · decide
  · rw [lineWrite, lineTokens_set (h _ rfl), mapWrite, if_pos ⟨rfl, (h _ rfl).2.2.1⟩]
    rfl
  · rw [lineWrite, lineTokens_del (h _ rfl), mapWrite, if_neg (by simp), if_pos ⟨.inl rfl, rfl⟩]
    rfl

theorem text_ne_hello (it : Option Mutation) : text it ≠ hello := by
  rcases it with _ | ⟨k, v⟩ | k <;> simp [text, ping, hello, ascii]

theorem text_eq_ping : text it = ping ↔ it = none := by
  rcases it with _ | ⟨k, v⟩ | k <;> simp [text, ping, ascii]

end Text

section Follower

variable {e : ExecEnv} {m : Map} {nd : Node} {c : Client} {line : Bytes} {it : Option Mutation}
  (info : Bytes)

/-- On a replica link only the verbs of the store and the keyless ones are left. -/
theorem executeLine_link {x : ExecState} (hx : x.isReplicaLink = true) (hr : x.raft = none)
    (ht : trim line ≠ []) (hv : (lineTokens line).1 ∉ [ascii "__REPLSYNC__",
      ascii "__RAFT_VOTE__", ascii "__RAFT_APPEND__", ascii "ROLE"]) : x.executeLine e line
        = x.executeVerb (lineTokens line).1 (lineTokens line).2.1 (lineTokens line).2.2 := by
  simp only [List.mem_cons, List.not_mem_nil, or_false, not_or] at hv
  obtain ⟨h₁, h₂, h₃, h₄⟩ := hv
  have href : x.refusal e (lineTokens line).1 = none := by simp [ExecState.refusal, hx, hr]
  rw [executeLine_eq, if_neg (by simpa using ht), ExecState.executeTokens, if_neg h₁,
    if_neg (by simp only [h₂, h₃, or_self, not_false_iff]), if_neg h₄, href]

/-- Handling the line leaves the follower holding `m` and the connection as `c'`. -/
def Handles (e : ExecEnv) (info : Bytes) (nd : Node) (c : Client) (line : Bytes) (m : Map)
    (c' : Client) : Prop :=
  ∃ nd', nd.handleLine e info c line = (nd', c') ∧ Storage.Plain m nd'.store ∧ nd'.raft = none

theorem handleLine_of_answers (reply : Bytes) (hc : c.isReplicaLink = true) (hr : nd.raft = none)
    (hv : (lineTokens line).1 ≠ ascii "INFO")
    (ha : ExecState.Answers ⟨nd.store, true, nd.raft⟩ m reply
      (ExecState.executeLine e ⟨nd.store, true, nd.raft⟩ line)) :
    Handles e info nd c line m { c with closed := false } := by
  have hinfo : (verbAndKey line).1 ≠ ascii "INFO" := by rwa [verbAndKey_eq]
  obtain ⟨inbuf, isReplicaLink, sent, closed⟩ := c
  obtain rfl : isReplicaLink = true := hc
  refine ⟨⟨_, _⟩, ?_, ha.store, ha.raft.trans hr⟩
  simp only [Node.handleLine, Node.answerLine, if_neg hinfo, if_true]
  rw [ha.link, ha.stays]

theorem handleLine_write {verb key rest : Bytes} (hc : c.isReplicaLink = true)
    (hs : Storage.Plain m nd.store) (hr : nd.raft = none)
    (ht : lineTokens line = (verb, key, rest)) (hv : verb = ascii "SET" ∨ verb = ascii "DEL")
    (hk : key ≠ []) :
    Handles e info nd c line (applyAll m (lineWrite line)) { c with closed := false } := by
  have hnot : verb ≠ ascii "INFO" ∧ verb ∉ [ascii "__REPLSYNC__", ascii "__RAFT_VOTE__",
      ascii "__RAFT_APPEND__", ascii "ROLE"] := by
    rcases hv with rfl | rfl <;> decide
  have hne : (lineTokens line).2.1 ≠ [] := by rwa [ht]
  refine handleLine_of_answers info (verbReply verb rest (m.lookup key)) hc hr
    (by rw [ht]; exact hnot.1) ?_
  rw [executeLine_link rfl hr (List.isEmpty_eq_false_iff.1 (trim_ne_nil hne))
    (by rw [ht]; exact hnot.2), lineWrite, ht]
  exact executeVerb_standalone (x := ⟨nd.store, true, nd.raft⟩) hs hk verb

/-- A replica link makes the change a line stands for, and says nothing. -/
theorem handleLine_text (hc : c.isReplicaLink = true) (hs : Storage.Plain m nd.store)
    (hr : nd.raft = none) (h : ∀ r ∈ it, r.Wire) :
    Handles e info nd c (text it) (applyAll m it.toList) { c with closed := false } := by
  rcases it with _ | ⟨k, v⟩ | k
  · refine handleLine_of_answers info (ascii "PONG") hc hr (by decide) ?_
    rw [executeLine_link rfl hr (by decide) (by decide)]
    exact ExecState.answers_answer hs _
  · rw [← lineWrite_text h]
    exact handleLine_write info hc hs hr (lineTokens_set (h _ rfl)) (.inl rfl) (h _ rfl).1
  · rw [← lineWrite_text h]
    exact handleLine_write info hc hs hr (lineTokens_del (h _ rfl)) (.inr rfl) (h _ rfl).1

theorem handleLine_hello (he : e.nodeIsFollower = true) (hc : c.isReplicaLink = false)
    (hs : Storage.Plain m nd.store) (hr : nd.raft = none) :
    Handles e info nd c hello ∅
      { c with isReplicaLink := true, sent := c.sent ++ ascii "OK" ++ [10], closed := false } := by
  have hv : (verbAndKey hello).1 ≠ ascii "INFO" := by decide
  have hl : ∀ x : ExecState, x.executeLine e hello = x.executeReplSync e := fun _ => rfl
  obtain ⟨s', hclear, hp⟩ := hs.clear e.truncated e.reopened
  refine ⟨⟨s', nd.raft⟩, ?_, hp, hr⟩
  simp only [Node.handleLine, Node.answerLine, if_neg hv, hl, ExecState.executeReplSync, he, hc,
    hclear, Bool.not_true, Bool.false_eq_true, if_false, if_true, ExecState.answer]

/-- An ordinary client of a follower changes nothing. -/
theorem answerLine_reader (he : e.nodeIsFollower = true) (hv : (verbAndKey line).1 ≠ hello)
    (hs : Storage.Plain m nd.store) (hr : nd.raft = none) :
    Storage.Plain m (nd.answerLine e info false line).store
    ∧ (nd.answerLine e info false line).raft = none := by
  have hdoes : Does e _ info _ _ := answerLine_does nd false line
  generalize nd.answerLine e info false line = r at hdoes ⊢
  generalize ho : nd.lineOp e false line = o at hdoes
  cases hdoes with
  | sync => exact absurd (lineOp_sync.1 ho).1 hv
  | raft node text hsome =>
    change nd.raft.isSome = true at hsome
    rw [hr] at hsome
    cases hsome
  | call c =>
    obtain ⟨href, hask⟩ := asks_of_lineOp ho
    -- a write would be refused off the replica link
    have hread : c.write = none := by
      by_contra hw
      have hwrite := hask.isWrite (Option.isSome_iff_ne_none.2 hw)
      cases ((refusal_of_write hwrite).1 href).1 he
    cases c with
    | set k v => cases hread
    | del k => cases hread
    | get k => exact ⟨(hs.get k).2, hr⟩
    | «exists» k => exact ⟨hs, hr⟩
  | _ => exact ⟨hs, hr⟩

end Follower

end Redon
