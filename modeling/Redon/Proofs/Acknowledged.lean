import Redon.Lib.Histories
import Redon.Proofs.DiskReads
import Redon.Proofs.DiskSessions
import Redon.Proofs.FollowerLog

/-!
# Acknowledged changes

A client knows from the reply to its line whether the line has changed the store (`acknowledged`),
and what it knows is what the store has done (`ack_call`). A change is on the log or in the data
file before it is acknowledged. So a server that is killed, and started again, has every change that
was acknowledged, and the one of the line it was killed in or not.
-/

namespace Redon

open Lib Mutation

section Line

variable {e : ExecEnv} {nd : Node} {link : Bool} {line reply : Bytes} {call : Call} {s : Storage}

/-- The change that a client knows was made, from its line and the reply to it. -/
def acknowledged (line reply : Bytes) : Option Mutation :=
  let (verb, key, rest) := lineTokens line
  if verb = ascii "SET" ∧ reply = ascii "OK" then some (.set key rest)
  else if (verb = ascii "DEL" ∨ verb = ascii "DELETE") ∧ reply = ascii "(integer) 1" then
    some (.del key)
  else none

/-- The change that a call makes. -/
def Storage.made (s : Storage) : Call → Option Mutation
  | .set key value => if (s.set key value).1 then some (.set key value) else none
  | .del key =>
    if (s.del key).1.durable && (s.del key).1.removed == 1 then some (.del key) else none
  | _ => none

theorem Storage.made_write {r : Mutation} (h : s.made call = some r) : call.write = some r := by
  cases call with
  | set k v => exact (Option.ite_none_right_eq_some.1 h).2
  | del k => exact (Option.ite_none_right_eq_some.1 h).2
  | get => cases h
  | «exists» => cases h

/-- A line with the verb of a write makes a call or is refused. -/
theorem lineOp_write (h : ExecState.isWrite (lineTokens line).1 = true) :
    nd.lineOp e link line = .refuse ∨ ∃ call, nd.lineOp e link line = .call call := by
  have hverb : (lineTokens line).1 = ascii "SET" ∨ (lineTokens line).1 = ascii "DEL"
      ∨ (lineTokens line).1 = ascii "DELETE" := by
    simpa [ExecState.isWrite, or_assoc] using h
  have hop : nd.lineOp e link line = .refuse ∨ nd.lineOp e link line
      = verbOp (lineTokens line).1 (lineTokens line).2.1 (lineTokens line).2.2 := by
    have htrim : (trim line).isEmpty = false :=
      trim_of_verb (by rcases hverb with hv | hv | hv <;> rw [hv] <;> decide)
    rw [Node.lineOp, verbAndKey_eq, ExecState.lineOp, htrim, ExecState.tokensOp]
    rcases hverb with hv | hv | hv <;> rw [hv] <;> dsimp only <;>
      rw [if_neg (by decide), if_neg Bool.false_ne_true, if_neg (by decide), if_neg (by decide),
        if_neg (by decide)] <;> split_ifs <;> first | exact .inl rfl | exact .inr rfl
  rcases hop with hop | hop
  · exact .inl hop
  · rw [hop]
    rcases verbOp_cases rfl with ho | ⟨call, ho, -⟩ | ⟨-, hv⟩ | ⟨-, hv⟩
    · exact .inl ho
    · exact .inr ⟨call, ho⟩
    · rw [hv] at hverb
      exact absurd hverb (by decide)
    · rcases hv with hv | hv <;> rw [hv] at hverb <;> exact absurd hverb (by decide)

theorem isWrite_of_acknowledged {r : Mutation} (h : acknowledged line reply = some r) :
    ExecState.isWrite (lineTokens line).1 = true
      ∧ (reply = ascii "OK" ∨ reply = ascii "(integer) 1") := by
  unfold acknowledged at h
  dsimp only at h
  split_ifs at h with hset hdel
  · exact ⟨by simp [ExecState.isWrite, hset.1], .inl hset.2⟩
  · rcases hdel with ⟨hv | hv, hr⟩
    · exact ⟨by simp [ExecState.isWrite, hv], .inr hr⟩
    · exact ⟨by simp [ExecState.isWrite, hv], .inr hr⟩

theorem acknowledged_read (h : ExecState.isWrite (lineTokens line).1 = false) (reply : Bytes) :
    acknowledged line reply = none := by
  rcases ha : acknowledged line reply with _ | r
  · rfl
  · rw [(isWrite_of_acknowledged ha).1] at h
    cases h

theorem callReply_stored {done : Bool} :
    ExecState.callReply (.stored done) = ascii "OK" ↔ done = true := by
  cases done <;> decide

theorem callReply_deleted {d : Storage.Deleted} :
    ExecState.callReply (.deleted d) = ascii "(integer) 1"
      ↔ (d.durable && d.removed == 1) = true := by
  obtain ⟨n, _ | _⟩ := d
  · exact iff_of_false (by decide : ascii "ERR write failed: data not persisted" ≠ _) (by simp)
  · have hone : ascii "(integer) 1" = ascii "(integer) " ++ decimal 1 := by decide
    change ascii "(integer) " ++ decimal n = ascii "(integer) 1" ↔ (n == 1) = true
    rw [hone, List.append_cancel_left_eq, beq_iff_eq]
    refine ⟨fun hn => ?_, congrArg decimal⟩
    rw [← decimalValue_decimal n, hn, decimalValue_decimal]

/-- The reply to a call tells what the call has done. -/
theorem acknowledged_call
    (h : Asks (lineTokens line).1 (lineTokens line).2.1 (lineTokens line).2.2 call) (s : Storage) :
    acknowledged line (ExecState.callReply (s.call call).1) = s.made call := by
  have hset : ¬ (ascii "SET" = ascii "DEL" ∨ ascii "SET" = ascii "DELETE") := by decide
  have hdel : ∀ v : Bytes, v = ascii "DEL" ∨ v = ascii "DELETE" → v ≠ ascii "SET" := by
    rintro v (rfl | rfl) <;> decide
  cases h with
  | set hv =>
    simp only [acknowledged, hv, Storage.call, Storage.made, callReply_stored, hset, true_and,
      false_and, if_false]
  | get hv => exact acknowledged_read (by rw [hv]; decide) _
  | del hv =>
    simp only [acknowledged, hdel _ hv, hv, Storage.call, Storage.made, callReply_deleted, true_and,
      false_and, if_false]
  | «exists» hv => exact acknowledged_read (by rw [hv]; decide) _

end Line

namespace Server

variable {c : ServerConfig} {s s' : Server} {conn : ℕ} {line : Bytes} {io : LineIo} {ev : Event}

/-- The change that the client of an event knows was made. -/
def ack (c : ServerConfig) (s : Server) : Event → Option Mutation
  | .line conn line io => acknowledged line (s.answer c conn line io).reply
  | .timer _ => none

/-- A client knows what its call has done. -/
theorem ack_call {call : Call} (ho : s.op c conn line io = .call call) :
    s.ack c (.line conn line io) = s.node.store.made call := by
  have hdoes := answer_does (c := c) s conn line io
  rw [ho] at hdoes
  have hreply : (s.answer c conn line io).reply
      = ExecState.callReply (s.node.store.call call).1 := by
    generalize s.answer c conn line io = r at hdoes
    cases hdoes
    rfl
  rw [ack, hreply]
  exact acknowledged_call (asks_of_lineOp ho).2 s.node.store

/-- Nothing is acknowledged but calls. -/
theorem ack_other (ho : ∀ call, s.op c conn line io ≠ .call call) :
    s.ack c (.line conn line io) = none := by
  rcases ha : s.ack c (.line conn line io) with _ | r
  · rfl
  obtain ⟨hwrite, hreply⟩ := isWrite_of_acknowledged ha
  have hrefuse : s.op c conn line io = .refuse := by
    rcases lineOp_write hwrite with ho' | ⟨call, ho'⟩
    · exact ho'
    · exact absurd ho' (ho call)
  have hdoes := answer_does (c := c) s conn line io
  rw [hrefuse] at hdoes
  have herr : ascii "ERR" <+: (s.answer c conn line io).reply := by
    generalize s.answer c conn line io = r at hdoes
    cases hdoes with
    | refuse herr => exact herr
  rcases hreply with hr | hr <;> rw [hr] at herr <;> exact absurd herr (by decide)

/-- A step off a follower makes one call on the store, whose change its client knows of, or leaves
the store as it is. -/
theorem step_ack (hc : c.isFollower = false) (hfit : ev.Fits) (hs : s.step c ev = some s') :
    (s'.node.store = s.node.store ∧ s.ack c ev = none)
    ∨ ∃ call, (∀ r, call.write = some r → r.Ok)
      ∧ s'.node.store = (s.node.store.call call).2 ∧ s.ack c ev = s.node.store.made call := by
  cases ev with
  | timer =>
    obtain ⟨-, rfl⟩ := step_timer hs
    exact .inl ⟨rfl, rfl⟩
  | line conn line io =>
    obtain ⟨-, rfl⟩ := step_line hs
    have hdoes := answer_does (c := c) s conn line io
    have hsync : s.op c conn line io ≠ .sync := by
      intro ho
      have ha := op_eq_sync.1 ho
      rw [accepts, if_neg fun h => by rw [hc] at h; exact Bool.false_ne_true h.2.1] at ha
      cases ha
    rcases ho : s.op c conn line io with _ | _ | _ | _ | _ | _ | call | _ | _
    case call =>
      refine .inr ⟨call, fun r => write_ok_of_lineOp hfit ho, ?_, ack_call ho⟩
      rw [ho] at hdoes
      generalize s.answer c conn line io = r at hdoes
      cases hdoes
      rfl
    case sync => exact absurd ho hsync
    all_goals
      refine .inl ⟨?_, ack_other fun call hcall => by rw [ho] at hcall; cases hcall⟩
      rw [ho] at hdoes
      generalize s.answer c conn line io = r at hdoes
      cases hdoes
      rfl

/-- The change that the client of an event of the server knows was made. -/
def ackedBy (running : Option (ServerConfig × Server)) (ev : Event) : Option Mutation :=
  running.bind fun (c, s) => s.ack c ev

end Server

section Cut

variable {rs ws : List Mutation} {t : Bytes} {file : Option Bytes}

theorem isCut_take (ht : IsCut t) (n : ℕ) : IsCut (t.take n) := by
  obtain ⟨r, hpre, hne⟩ := ht
  refine ⟨r, (List.take_prefix n t).trans hpre, fun he => hne ?_⟩
  have hle := (List.take_prefix n t).length_le
  rw [he] at hle
  exact hpre.eq_of_length_le hle

/-- A beginning of a change and part of a record is the change, or not, and part of a record. -/
theorem take_ack (a : Option Mutation) (ht : IsCut t) (n : ℕ) :
    ∃ b t', (encodeAll a.toList ++ t).take n = encodeAll b ++ t' ∧ IsCut t'
      ∧ b ∈ [[], a.toList] := by
  by_cases hn : n ≤ (encodeAll a.toList).length
  · obtain ⟨k, t', -, htake, hcut, -⟩ := encodeAll_take a.toList n
    refine ⟨_, t', (List.take_append_of_le_length hn).trans htake, hcut, ?_⟩
    rcases a with _ | r
    · simp
    · cases k <;> simp
  · refine ⟨a.toList, _, ?_, isCut_take ht (n - (encodeAll a.toList).length), by simp⟩
    rw [List.take_append, List.take_of_length_le (by omega)]

/-- What is appended to a log behind complete records counts. -/
theorem Durable.grow (h : Durable file ws) (hrs : ∀ r ∈ rs, r.Ok) (ht : IsCut t)
    (hq : Whole file ∨ encodeAll rs ++ t = []) :
    Durable (some (file.getD [] ++ (encodeAll rs ++ t))) (ws ++ rs) := by
  rcases hq with ⟨rs₀, hok, hfile⟩ | hnil
  · have hrec := h.records
    rw [hfile, records_encodeAll hok] at hrec
    refine ⟨rs₀ ++ rs, t, ?_, fun r hr => ?_, ht, ?_⟩
    · rw [Option.getD_some, hfile, encodeAll_append, List.append_assoc]
    · exact (List.mem_append.1 hr).elim (hok r) (hrs r)
    · rw [applyAll_append, hrec, ← applyAll_append]
  · have hlen := length_le_encodeAll rs
    rw [(List.append_eq_nil_iff.1 hnil).1] at hlen
    obtain rfl : rs = [] := List.eq_nil_of_length_eq_zero (Nat.le_zero.1 hlen)
    rw [hnil, List.append_nil, List.append_nil]
    exact h

end Cut

namespace Storage

variable {s : Storage} {w : Wal} {call : Call}

/-- Without a bound a call logs the change it makes. -/
theorem made_logged (hd : s.disk = none) (hcap : s.capacity = 0) (hw : s.wal = some w)
    (call : Call) : Logged (s.made call).toList s (s.call call).2 := by
  cases call with
  | set k v =>
    simp only [made, Storage.call]
    rcases set_cases hd k v with ⟨s₁, hl, he⟩ | ⟨s₁, i, hl, hi, s₂, rfl, he⟩
      | ⟨s₁, hi, hl, s₂, hs₂, he⟩ <;> rw [he]
    · exact (logged_of_false hw hl).1
    · exact logged_of_true hw hl (LinkedMap.toMap_setVal_splice hi)
    · have hcap₂ : s₂.capacity = 0 := by
        rw [hs₂, logRecord_eq hl]
        exact hcap
      rw [evictLoop_unbounded hcap₂, hs₂]
      exact logged_of_true hw hl (LinkedMap.toMap_emplaceFront hi)
  | get k => exact get_logged hd hw k
  | del k =>
    simp only [made, Storage.call]
    rcases del_logged hd hw k with ⟨hdur, hs, -⟩ | ⟨hres, hs, -⟩ | ⟨hres, hs, -⟩
    · rw [hdur]
      exact hs
    · rw [hres, hs]
      exact .refl hw
    · rw [hres]
      exact hs
  | «exists» k => exact .refl hw

variable {d : DiskStore} {m : Map}

theorem made_disk (hd : s.disk = some d) (call : Call) :
    s.made call = call.write.bind fun r => if (d.write r).1 then some r else none := by
  cases call with
  | set k v =>
    have hset : (s.set k v).1 = (d.set k v).1 := by
      simp only [set, hd]
      rcases d.set k v with ⟨_ | _, d'⟩ <;> rfl
    rw [made, hset]
    rfl
  | get => rfl
  | del k =>
    have hdel : d.del k = d.write (.del k) := rfl
    simp only [made, del, hd, Call.write, Option.bind_some, hdel]
    rcases d.write_cases (.del k) with he | ⟨f, index, -, -, -, he⟩ | ⟨f, t, -, -, -, he⟩ <;>
      rw [he]
    · cases d.ok <;> rfl
    · rfl
    · rfl
  | «exists» => rfl

/-- The disk engine appends the change that a call makes. -/
theorem made_rep (hd : s.disk = some d) (h : DiskStore.Rep m d)
    (hok : ∀ r, call.write = some r → r.Ok) : ∃ d', (s.call call).2.disk = some d'
      ∧ DiskStore.Rep (applyAll m (s.made call).toList) d'
      ∧ d'.file.bytes = d.file.bytes ++ encodeAll (s.made call).toList := by
  rw [call_disk hd, made_disk hd]
  rcases hw : call.write with _ | r
  · exact ⟨d, rfl, h, (List.append_nil _).symm⟩
  have hrep : DiskStore.Rep (r.apply m) (d.write r).2 := by
    cases r with
    | set k v => exact (h.set (hok _ hw)).2
    | del k => exact (h.del (hok _ hw)).2
  simp only [Option.elim_some, Option.bind_some]
  rcases d.write_cases r with he | ⟨f, index, -, hf, -, he⟩ | ⟨f, t, -, -, -, he⟩ <;>
    rw [he] at hrep ⊢
  · exact ⟨d, rfl, h, (List.append_nil _).symm⟩
  · refine ⟨_, rfl, hrep, hf.trans ?_⟩
    simp [encodeAll]
  · cases hrep.ok

end Storage

end Redon
