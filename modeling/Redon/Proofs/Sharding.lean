import Redon.Lib.Machine
import Redon.Proofs.Framing
import Redon.Proofs.Lines

/-!
# Sharding is transparent

A line with a key looks at that key only, and all such lines go to the shard of the key. So each
shard holds its share of what one server would hold (`Share`), and its replies, which the router
relays unchanged (`lineReply_relayed`, `forward_reply`), are the one server's (`serve_sim`).
-/

namespace Redon

open Lib Mutation

section Relay

variable {line : Bytes}

instance : DecidablePred Relayed := fun _ => instDecidableAnd

theorem rest_relayed (h : 10 ∉ line) (hlen : line.length ≤ kMaxLineLength) :
    Relayed (lineTokens line).2.2 := by
  obtain ⟨hmem, hle, -, hlast⟩ := rest_spec line
  refine ⟨fun hc => h (hmem 10 hc), fun hc => ?_, ?_⟩
  · have := hlast 13 hc
    cases this
  · have : kMaxLineLength ≤ Router.kMaxReply := by decide
    omega

theorem relayed_wrap {pre mid post : Bytes} (hpre : 10 ∉ pre) (hmid : 10 ∉ mid)
    (hpost : Relayed post) (hne : post ≠ [])
    (hlen : pre.length + mid.length + post.length ≤ Router.kMaxReply) :
    Relayed (pre ++ mid ++ post) := by
  refine ⟨?_, ?_, ?_⟩
  · simp only [List.mem_append, not_or]
    exact ⟨⟨hpre, hmid⟩, hpost.1⟩
  · rw [List.getLast?_append, List.getLast?_eq_some_getLast hne, Option.some_or,
      ← List.getLast?_eq_some_getLast hne]
    exact hpost.2.1
  · simpa only [List.length_append] using hlen

theorem relayed_wrongArgs {w : Bytes} (hw : 10 ∉ w) (hlen : w.length ≤ 8) :
    Relayed (wrongArgs w) := by
  have h₁ : (ascii "ERR wrong number of arguments for '").length = 35 := by decide
  have h₂ : (ascii "' command").length = 9 := by decide
  refine relayed_wrap (by decide) hw (by decide) (by decide) ?_
  rw [h₁, h₂, Router.kMaxReply]
  omega

theorem relayed_unknown {verb : Bytes} (hv : 10 ∉ verb) (hlen : verb.length ≤ kMaxLineLength) :
    Relayed (ascii "ERR unknown command '" ++ verb ++ ascii "'") := by
  have h₁ : (ascii "ERR unknown command '").length = 21 := by decide
  have h₂ : (ascii "'").length = 1 := by decide
  refine relayed_wrap (by decide) hv (by decide) (by decide) ?_
  rw [kMaxLineLength] at hlen
  rw [h₁, h₂, Router.kMaxReply]
  omega

theorem relayed_count (found : Option Bytes) :
    Relayed (ascii "(integer) " ++ decimal (if found.isSome then 1 else 0)) := by
  cases found with
  | none => exact (by decide : Relayed (ascii "(integer) " ++ decimal 0))
  | some v => exact (by decide : Relayed (ascii "(integer) " ++ decimal 1))

theorem verbReply_relayed {verb rest : Bytes} {found : Option Bytes} (hv : 10 ∉ verb)
    (hlen : verb.length ≤ kMaxLineLength) (hf : ∀ v ∈ found, Relayed v) :
    Relayed (verbReply verb rest found) := by
  have hcount := relayed_count found
  unfold verbReply
  generalize ascii "(integer) " ++ decimal (if found.isSome then 1 else 0) = n at hcount ⊢
  split_ifs
  · exact relayed_wrongArgs (by decide) (by decide)
  · decide
  · cases found with
    | none => exact (by decide : Relayed (ascii "(nil)"))
    | some v => exact hf v rfl
  · exact relayed_wrongArgs (by decide) (by decide)
  · exact hcount
  · exact relayed_wrongArgs (by decide) (by decide)
  · exact hcount
  · exact relayed_wrongArgs (by decide) (by decide)
  · exact relayed_wrongArgs (by decide) (by decide)
  · exact relayed_wrongArgs (by decide) (by decide)
  · exact relayed_unknown hv hlen

theorem lineReply_relayed (hlen : line.length ≤ kMaxLineLength)
    {found : Option Bytes} (hf : ∀ v ∈ found, Relayed v) : Relayed (lineReply line found) := by
  obtain ⟨hnl, hle⟩ := verb_spec line
  unfold lineReply
  simp only []
  split_ifs
  · decide
  · decide
  · decide
  · exact verbReply_relayed hnl (hle.trans hlen) hf

end Relay

section Shards

open Router

variable {n i : ℕ} {m l : Map} {line : Bytes}

/-- `l` is what shard `i` of `n` holds when one server would hold `m`. -/
def Share (n i : ℕ) (m l : Map) : Prop :=
  ∀ k, l.lookup k = if shardFor n k = i then m.lookup k else none

/-- The shard of a line's key makes the line's change, and that keeps every share. -/
theorem Share.write (h : Share n i m l) (line : Bytes) :
    Share n i (applyAll m (lineWrite line))
      (if shardFor n (lineTokens line).2.1 = i then applyAll l (lineWrite line) else l) := by
  intro k
  by_cases hk : k = (lineTokens line).2.1
  · subst hk
    have hshare := h (lineTokens line).2.1
    split_ifs at hshare ⊢ with hi
    · exact lookup_applyAll_congr _ hshare
    · exact hshare
  · have hne : ∀ r ∈ lineWrite line, r.key ≠ k := fun r hr he => hk (he ▸ key_lineWrite r hr)
    rw [lookup_applyAll_of_ne hne, ← h k]
    split_ifs
    · exact lookup_applyAll_of_ne hne
    · rfl

/-- Every value comes through the router's reading of a reply. -/
def MapRelayed (m : Map) : Prop := ∀ k v, m.lookup k = some v → Relayed v

theorem MapRelayed.write (h : MapRelayed m) (hn : 10 ∉ line) (hlen : line.length ≤ kMaxLineLength) :
    MapRelayed (applyAll m (lineWrite line)) := by
  unfold lineWrite mapWrite
  split_ifs
  · intro k v hv
    rcases lookup_insert_iff.1 hv with ⟨-, rfl⟩ | ⟨-, hv⟩
    · exact rest_relayed hn hlen
    · exact h k v hv
  · exact fun k v hv => h k v (lookup_erase_iff.1 hv).2
  · exact h

/-- An unbounded node that is no part of a Raft cluster and holds `m`. -/
structure Standalone (m : Map) (nd : Node) : Prop where
  store : Storage.Plain m nd.store
  raft : nd.raft = none

/-- A line with a key that the router forwards, and the chunks it arrives in. -/
structure Routable (q : Request) : Prop where
  newline : 10 ∉ q.line
  length : q.line.length ≤ kMaxLineLength
  key : (verbAndKey q.line).2 ≠ []
  verb : (verbAndKey q.line).1 ∉ [ascii "INFO", ascii "PING", ascii "QUIT", ascii "EXIT"]
  chunk : ∀ b ∈ q.chunks, b ≠ []
  chunks : q.chunks.flatten = q.line ++ [10]

theorem Routable.receiveAll {q : Request} (h : Routable q) (e : ExecEnv) (info : Bytes)
    (nd : Node) : ∃ b, nd.receiveAll e info .fresh q.chunks
      = ((nd.handleLine e info .fresh q.line).1, (nd.handleLine e info .fresh q.line).2.put b) :=
  receiveAll_line e info h.newline h.length h.chunks nd

variable {e : ExecEnv} {nd : Node} {q : Request} (info : Bytes)

theorem Routable.routeLine (h : Routable q) (n : ℕ) :
    routeLine n q.line = .forward (shardFor n (lineTokens q.line).2.1) := by
  obtain ⟨-, -, hk, hv, -, -⟩ := h
  rw [verbAndKey_eq] at hk hv
  simp only [List.mem_cons, List.not_mem_nil, or_false, not_or] at hv
  obtain ⟨-, hping, hquit, hexit⟩ := hv
  simp only [Router.routeLine, verbAndKey_eq]
  rw [if_neg (verb_ne_nil hk), if_neg (by simp only [hquit, hexit, or_self, not_false_iff]),
    if_neg hping, if_neg hk]

theorem Standalone.answerLine (h : Standalone m nd) (he : e.nodeIsFollower = false)
    (hq : Routable q) :
    (nd.answerLine e info false q.line).reply = lineReply q.line (m.lookup (lineTokens q.line).2.1)
    ∧ Standalone (applyAll m (lineWrite q.line))
      ⟨(nd.answerLine e info false q.line).store, (nd.answerLine e info false q.line).raft⟩ := by
  have hinfo : (verbAndKey q.line).1 ≠ ascii "INFO" := fun hc => hq.verb (hc ▸ List.mem_cons_self)
  have hk := hq.key
  rw [verbAndKey_eq] at hk
  have ha := executeLine_standalone (x := ⟨nd.store, false, nd.raft⟩) he h.raft h.store hk
  rw [Node.answerLine, if_neg hinfo]
  exact ⟨ha.reply, ha.store, ha.raft.trans h.raft⟩

/-- The shards share out what one server holds. -/
def Sharded (n : ℕ) (nodes : ℕ → Node) (single : Node) : Prop :=
  ∃ m, MapRelayed m ∧ Standalone m single ∧ ∀ i < n, ∃ l, Share n i m l ∧ Standalone l (nodes i)

theorem sharded_empty {n : ℕ} {nodes : ℕ → Node} {single : Node}
    (hnodes : ∀ i < n, Standalone ∅ (nodes i)) (hsingle : Standalone ∅ single) :
    Sharded n nodes single := by
  refine ⟨∅, fun k v hv => ?_, hsingle, fun i hi => ⟨∅, fun k => ?_, hnodes i hi⟩⟩
  · rw [Finmap.lookup_empty] at hv
    cases hv
  · rw [Finmap.lookup_empty, ite_self]

theorem shardFor_lt {n : ℕ} (hn : n ≠ 0) (key : Bytes) : shardFor n key < n := by
  rw [shardFor, if_neg hn]
  exact Nat.mod_lt _ (Nat.pos_of_ne_zero hn)

theorem forward_reply {shards : List Bytes} (haddr : ∀ a ∈ shards, (splitHostPort a).isSome)
    (hi : i < shards.length) {reply : Bytes} (hr : Relayed reply) :
    forward shards i (some (reply ++ [10])) = reply := by
  obtain ⟨hp, hhp⟩ := Option.isSome_iff_exists.1 (haddr _ (List.getElem_mem hi))
  simp only [forward, List.getElem?_eq_getElem hi, hhp, recvLine_reply hr]

/-- A line on its key's shard and on one server: the same reply, which a router can read, and the
shares stay. -/
theorem Sharded.serve {n : ℕ} {nodes : ℕ → Node} {single : Node} (h : Sharded n nodes single)
    (hn : n ≠ 0) (he : e.nodeIsFollower = false) (hq : Routable q) :
    ((nodes (shardFor n (lineTokens q.line).2.1)).serve e info q).1 = (single.serve e info q).1
    ∧ Relayed (single.serve e info q).1
    ∧ Sharded n (Function.update nodes (shardFor n (lineTokens q.line).2.1)
        ((nodes (shardFor n (lineTokens q.line).2.1)).serve e info q).2)
      (single.serve e info q).2 := by
  obtain ⟨m, hm, hsingle, hnodes⟩ := h
  obtain ⟨l, hl, hnode⟩ := hnodes _ (shardFor_lt hn (lineTokens q.line).2.1)
  obtain ⟨hreply, hsingle'⟩ := hsingle.answerLine info he hq
  obtain ⟨hreply', hnode'⟩ := hnode.answerLine info he hq
  have hfound := hl (lineTokens q.line).2.1
  rw [if_pos rfl] at hfound
  rw [hfound] at hreply'
  refine ⟨hreply'.trans hreply.symm, ?_, _, hm.write hq.newline hq.length, hsingle',
    fun i hi => ?_⟩
  · rw [show (single.serve e info q).1 = _ from hreply]
    exact lineReply_relayed hq.length (hm (lineTokens q.line).2.1)
  · obtain ⟨l', hl', hnodei⟩ := hnodes i hi
    refine ⟨_, hl'.write q.line, ?_⟩
    by_cases hkey : shardFor n (lineTokens q.line).2.1 = i
    · subst hkey
      rw [if_pos rfl, Function.update_self]
      have hll : l' = l := Finmap.ext_lookup fun k => (hl' k).trans (hl k).symm
      rw [hll]
      exact hnode'
    · rw [if_neg hkey, Function.update_of_ne (Ne.symm hkey)]
      exact hnodei

/-- One line through the router and on one server: the same reply, and the shares stay. -/
theorem serve_sim {shards : List Bytes} (hs : shards ≠ [])
    (haddr : ∀ a ∈ shards, (splitHostPort a).isSome) (he : e.nodeIsFollower = false)
    {nodes : ℕ → Node} {single : Node} (h : Sharded shards.length nodes single)
    (hq : Routable q) :
    (serve e info shards nodes q).1 = (single.serve e info q).1
    ∧ Sharded shards.length (serve e info shards nodes q).2 (single.serve e info q).2 := by
  have hinfo : (verbAndKey q.line).1 ≠ ascii "INFO" := fun hc => hq.verb (hc ▸ List.mem_cons_self)
  have hn := mt List.length_eq_zero_iff.1 hs
  obtain ⟨hreply, hrelay, hsharded⟩ := h.serve info hn he hq
  obtain ⟨b, hrecv⟩ := hq.receiveAll e info (nodes (shardFor shards.length (lineTokens q.line).2.1))
  simp only [Router.serve, if_neg hinfo, hq.routeLine, hrecv]
  refine ⟨?_, hsharded⟩
  rw [← forward_reply haddr (shardFor_lt hn (lineTokens q.line).2.1) hrelay, ← hreply]
  rfl

/-- Through the router, every list of lines with a key gets the replies one server gives, and the
shards hold what that server holds, each the keys of its own. -/
theorem sharding_transparent (shards : List Bytes) (hs : shards ≠ [])
    (haddr : ∀ a ∈ shards, (splitHostPort a).isSome) (e : ExecEnv) (he : e.nodeIsFollower = false)
    (info : Bytes) (nodes : ℕ → Node) (hnodes : ∀ i < shards.length, Standalone ∅ (nodes i))
    (single : Node) (hsingle : Standalone ∅ single) (qs : List Request)
    (hqs : ∀ q ∈ qs, Routable q) :
    (runOut (serve e info shards) nodes qs).1 = (runOut (Node.serve e info) single qs).1
    ∧ ∀ i < shards.length, ∀ k v,
      ((runOut (serve e info shards) nodes qs).2 i).store.toMap.lookup k = some v
        ↔ shardFor shards.length k = i
          ∧ (runOut (Node.serve e info) single qs).2.store.toMap.lookup k = some v := by
  have hstep : ∀ nodes single q, Sharded shards.length nodes single → Routable q →
      (serve e info shards nodes q).1 = (single.serve e info q).1
      ∧ Sharded shards.length (serve e info shards nodes q).2 (single.serve e info q).2 :=
    fun _ _ _ h hq => serve_sim info hs haddr he h hq
  obtain ⟨hreplies, m, -, hsingle', hnodes'⟩ :=
    runOut_sim hstep qs (sharded_empty hnodes hsingle) hqs
  refine ⟨hreplies, fun i hi k v => ?_⟩
  obtain ⟨l, hl, hnode⟩ := hnodes' i hi
  rw [hnode.store.toMap, hsingle'.store.toMap, hl k]
  split_ifs with hk <;> simp [hk]

/-- Two shards, a line in two chunks, and a key on each shard. -/
theorem sharding_transparent_two :
    (runOut (serve standaloneEnv [] [ascii "h:1", ascii "h:2"]) (fun _ => ⟨.empty 0, none⟩)
      [⟨ascii "set a x y ", [ascii "set a", ascii " x y \n"]⟩, ⟨ascii "DEL b", [ascii "DEL b\n"]⟩,
        ⟨ascii "GET a", [ascii "GET a\n"]⟩]).1
      = [ascii "OK", ascii "(integer) 0", ascii "x y"]
    ∧ shardFor 2 (ascii "a") ≠ shardFor 2 (ascii "b") := by
  have h₁ : Routable ⟨ascii "set a x y ", [ascii "set a", ascii " x y \n"]⟩ :=
    ⟨by decide, by decide, by decide, by decide, by decide, by decide⟩
  have h₂ : Routable ⟨ascii "DEL b", [ascii "DEL b\n"]⟩ :=
    ⟨by decide, by decide, by decide, by decide, by decide, by decide⟩
  have h₃ : Routable ⟨ascii "GET a", [ascii "GET a\n"]⟩ :=
    ⟨by decide, by decide, by decide, by decide, by decide, by decide⟩
  have h := sharding_transparent [ascii "h:1", ascii "h:2"] (by decide) (by decide)
    standaloneEnv rfl [] (fun _ => ⟨.empty 0, none⟩) (fun _ _ => ⟨Storage.plain_empty, rfl⟩)
    ⟨.empty 0, none⟩ ⟨Storage.plain_empty, rfl⟩ _
    (List.forall_mem_cons.2 ⟨h₁, List.forall_mem_cons.2 ⟨h₂, List.forall_mem_singleton.2 h₃⟩⟩)
  exact ⟨h.1.trans (by decide), by decide⟩

end Shards

end Redon
