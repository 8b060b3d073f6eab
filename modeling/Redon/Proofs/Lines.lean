import Redon.Proofs.Tokens
import Redon.Proofs.Unbounded

/-!
# What a line does on an unbounded server

A line with a key looks at that key only: its reply is a function of the key's value (`lineReply`),
and it changes at most that key (`lineWrite`, `key_lineWrite`).
-/

namespace Redon

open Lib Mutation

/-- The reply to a command with a key, from the key's value. -/
def verbReply (verb rest : Bytes) (found : Option Bytes) : Bytes :=
  if verb = ascii "SET" then if rest.isEmpty then wrongArgs (ascii "set") else ascii "OK"
  else if verb = ascii "GET" then
    if rest.isEmpty then found.getD (ascii "(nil)") else wrongArgs (ascii "get")
  else if verb = ascii "DEL" ∨ verb = ascii "DELETE" then
    if rest.isEmpty then ascii "(integer) " ++ decimal (if found.isSome then 1 else 0)
    else wrongArgs (ascii "del")
  else if verb = ascii "EXISTS" then
    if rest.isEmpty then ascii "(integer) " ++ decimal (if found.isSome then 1 else 0)
    else wrongArgs (ascii "exists")
  else if verb = ascii "PING" then wrongArgs (ascii "ping")
  else if verb = ascii "QUIT" ∨ verb = ascii "EXIT" then wrongArgs (ascii "quit")
  else ascii "ERR unknown command '" ++ verb ++ ascii "'"

/-- The change a command with a key makes. -/
def mapWrite (verb key rest : Bytes) : List Mutation :=
  if verb = ascii "SET" ∧ rest ≠ [] then [.set key rest]
  else if (verb = ascii "DEL" ∨ verb = ascii "DELETE") ∧ rest = [] then [.del key]
  else []

/-- The reply to a line with a key on a standalone server, from the key's value. -/
def lineReply (line : Bytes) (found : Option Bytes) : Bytes :=
  let verb := (lineTokens line).1
  if verb = ascii "__REPLSYNC__" then
    ascii "ERR __REPLSYNC__ is only valid on a read-only replica"
  else if verb = ascii "__RAFT_VOTE__" ∨ verb = ascii "__RAFT_APPEND__" then
    ascii "ERR this node is not part of a Raft cluster"
  else if verb = ascii "ROLE" then ascii "standalone (not a Raft cluster)"
  else verbReply verb (lineTokens line).2.2 found

def lineWrite (line : Bytes) : List Mutation :=
  mapWrite (lineTokens line).1 (lineTokens line).2.1 (lineTokens line).2.2

theorem key_lineWrite {line : Bytes} : ∀ r ∈ lineWrite line, r.key = (lineTokens line).2.1 := by
  intro r hr
  unfold lineWrite mapWrite at hr
  split_ifs at hr
  · rw [List.mem_singleton.1 hr]
    rfl
  · rw [List.mem_singleton.1 hr]
    rfl
  · cases hr

variable {m : Map} {e : ExecEnv} {x : ExecState} {key rest : Bytes}

theorem executeVerb_standalone (hs : Storage.Plain m x.store) (hk : key ≠ []) (verb : Bytes) :
    x.Answers (applyAll m (mapWrite verb key rest)) (verbReply verb rest (m.lookup key))
      (x.executeVerb verb key rest) := by
  have hanswer : ∀ {reply : Bytes}, mapWrite verb key rest = [] →
      x.Answers (applyAll m (mapWrite verb key rest)) reply (x.answer reply) := fun hw => by
    rw [hw]
    exact ExecState.answers_answer hs _
  have hke : key.isEmpty = false := by simpa using hk
  unfold ExecState.executeVerb verbReply
  by_cases hset : verb = ascii "SET"
  · rw [if_pos hset, if_pos hset]
    by_cases hr : rest = []
    · simp only [ExecState.executeSet, hr, hke, List.isEmpty_nil, Bool.or_true, if_true]
      exact hr ▸ hanswer (by simp [mapWrite, hset, hr, ascii])
    · rw [if_neg (by simpa using hr), mapWrite, if_pos ⟨hset, hr⟩]
      exact ExecState.executeSet_plain hs hk hr
  rw [if_neg hset, if_neg hset]
  by_cases hget : verb = ascii "GET"
  · have hw : mapWrite verb key rest = [] := by simp [mapWrite, hget, ascii]
    rw [if_pos hget, if_pos hget]
    by_cases hr : rest = []
    · subst hr
      rw [hw]
      exact ExecState.executeGet_plain hs hk
    · simp only [ExecState.executeGet, hke, List.isEmpty_eq_false_iff.2 hr, Bool.not_false,
        Bool.or_true, if_true]
      exact hanswer hw
  rw [if_neg hget, if_neg hget]
  by_cases hdel : verb = ascii "DEL" ∨ verb = ascii "DELETE"
  · rw [if_pos hdel, if_pos hdel]
    by_cases hr : rest = []
    · subst hr
      rw [mapWrite, if_neg (by simp), if_pos ⟨hdel, rfl⟩]
      exact ExecState.executeDel_plain hs hk
    · simp only [ExecState.executeDel, hke, List.isEmpty_eq_false_iff.2 hr, Bool.not_false,
        Bool.or_true, if_true]
      exact hanswer (by simp [mapWrite, hset, hr])
  have hw : mapWrite verb key rest = [] := by simp [mapWrite, hset, hdel]
  rw [if_neg hdel, if_neg hdel]
  by_cases hex : verb = ascii "EXISTS"
  · rw [if_pos hex, if_pos hex]
    by_cases hr : rest = []
    · subst hr
      rw [hw]
      exact ExecState.executeExists_plain hs hk
    · simp only [ExecState.executeExists, hke, List.isEmpty_eq_false_iff.2 hr, Bool.not_false,
        Bool.or_true, if_true]
      exact hanswer hw
  rw [if_neg hex, if_neg hex]
  simp only [ExecState.executePing, ExecState.executeQuit, hke, Bool.not_false, Bool.true_or,
    if_true]
  split_ifs
  · exact hanswer hw
  · exact hanswer hw
  · exact hanswer hw

/-- A line with a key on a standalone server depends on the key's value only. -/
theorem executeLine_standalone (he : e.nodeIsFollower = false) (hx : x.raft = none)
    (hs : Storage.Plain m x.store) {line : Bytes} (hk : (lineTokens line).2.1 ≠ []) :
    x.Answers (applyAll m (lineWrite line)) (lineReply line (m.lookup (lineTokens line).2.1))
      (x.executeLine e line) := by
  rw [executeLine_eq, if_neg (by rw [trim_ne_nil hk]; exact Bool.false_ne_true)]
  unfold ExecState.executeTokens lineReply lineWrite
  by_cases h₁ : (lineTokens line).1 = ascii "__REPLSYNC__"
  · rw [if_pos h₁, if_pos h₁, ExecState.executeReplSync, he, h₁]
    exact ExecState.answers_answer hs _
  rw [if_neg h₁, if_neg h₁]
  by_cases h₂ : (lineTokens line).1 = ascii "__RAFT_VOTE__"
      ∨ (lineTokens line).1 = ascii "__RAFT_APPEND__"
  · have hw : mapWrite (lineTokens line).1 (lineTokens line).2.1 (lineTokens line).2.2 = [] := by
      rcases h₂ with h₂ | h₂ <;> simp [mapWrite, h₂, ascii]
    rw [if_pos h₂, if_pos h₂, hw, ExecState.executeRaft, hx]
    exact ExecState.answers_answer hs _
  rw [if_neg h₂, if_neg h₂]
  by_cases h₃ : (lineTokens line).1 = ascii "ROLE"
  · have hw : mapWrite (lineTokens line).1 (lineTokens line).2.1 (lineTokens line).2.2 = [] := by
      simp [mapWrite, h₃, ascii]
    rw [if_pos h₃, if_pos h₃, hw, ExecState.executeRole, hx]
    exact ExecState.answers_answer hs _
  · have href : x.refusal e (lineTokens line).1 = none := by
      simp [ExecState.refusal, he, hx]
    rw [if_neg h₃, if_neg h₃, href]
    exact executeVerb_standalone hs hk _

/-- A server that is neither a follower nor in a cluster. -/
def standaloneEnv : ExecEnv := ⟨false, { selfId := [], peers := [] }, ⟨0, 0⟩, true, true⟩

end Redon
