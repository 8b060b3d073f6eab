import Redon.Proofs.Lifetime

/-!
# A follower's log

A handshake empties a follower's store and not its log. So the log holds what was logged up to the
handshake and then the changes since (`Since`), the store only what the changes since make. A server
that is started on the log has every key the store has. It also has each key that the log had at
the handshake, unless it was changed since (`restart_after_sync`).
-/

namespace Redon

open Lib Mutation Storage

namespace Mutation

variable {k : Bytes} {m l : Map}

theorem lookup_apply_key (r : Mutation) : (r.apply m).lookup r.key = (r.apply l).lookup r.key := by
  cases r <;> simp [apply, key]

/-- The last change of a key decides, whatever the map was. -/
theorem lookup_applyAll_of_key : ∀ {rs : List Mutation} {m l : Map}, k ∈ rs.map key →
    (applyAll m rs).lookup k = (applyAll l rs).lookup k
  | [], _, _, h => by cases h
  | r :: rs, m, l, h => by
    change (applyAll (r.apply m) rs).lookup k = (applyAll (r.apply l) rs).lookup k
    rw [List.map_cons, List.mem_cons] at h
    rcases h with rfl | h
    · exact lookup_applyAll_congr rs (lookup_apply_key r)
    · exact lookup_applyAll_of_key h

end Mutation

theorem key_length_le (line : Bytes) : (lineTokens line).2.1.length ≤ line.length := by
  have hkey : (lineTokens line).2.1.length ≤ (nextToken (trim line)).2.length :=
    (List.takeWhile_sublist _).length_le
  exact hkey.trans ((nextToken_suffix _).length_le.trans
    ((trim_front line).length_le.trans (skipped_suffix line).length_le))

/-- The longest line that `handle_client` takes: it may run one chunk over the cap. -/
def maxLine : ℕ := kMaxLineLength + 4096

/-- The change that such a line asks for has a record that a reader accepts. -/
theorem write_ok_of_lineOp {e : ExecEnv} {nd : Node} {link : Bool} {line : Bytes} {c : Call}
    (hlen : line.length ≤ maxLine) (h : nd.lineOp e link line = .call c) {r : Mutation}
    (hr : c.write = some r) : r.Ok := by
  have hmax : maxLine ≤ kMaxField := by decide
  have hfield : ∀ b : Bytes, b ≠ [] → b.length ≤ line.length → fieldOk b.length = true :=
    fun b hb hle => by simp [fieldOk, hb, hle.trans (hlen.trans hmax)]
  cases (asks_of_lineOp h).2 with
  | set _ hkey hrest =>
    obtain rfl := Option.some.inj hr
    exact ⟨hfield _ hkey (key_length_le line), hfield _ hrest (rest_spec line).2.1⟩
  | get => cases hr
  | del _ hkey =>
    obtain rfl := Option.some.inj hr
    exact hfield _ hkey (key_length_le line)
  | «exists» => cases hr

theorem Call.ok_of_write {c : Call} (h : ∀ r, c.write = some r → r.Ok) : c.Ok := by
  cases c with
  | set k v => exact h _ rfl
  | _ => trivial

namespace Storage

/-- The log is the records `old` and then `rs`. The map is what `rs` make of one that `old` have
left, though perhaps not with all its keys. -/
structure Since (old : List Mutation) (m : Map) (rs : List Mutation) (s : Storage) : Prop where
  disk : s.disk = none
  wal : ∃ w, s.wal = some w ∧ w.Live ∧ w.out.bytes = encodeAll (old ++ rs)
  ok : ∀ r ∈ old ++ rs, r.Ok
  map : s.toMap = applyAll m rs
  left : ∀ k v, m.lookup k = some v → (applyAll ∅ old).lookup k = some v

variable {old rs : List Mutation} {m : Map} {s : Storage} {k v : Bytes}

theorem Since.mapOk (h : Since old m rs s) : MapOk m := fun k v hk =>
  mapOk_empty.applyAll (fun r hr => h.ok r (List.mem_append_left _ hr)) k v (h.left k v hk)

theorem Since.call (h : Since old m rs s) {c : Call} (hc : c.Ok) :
    ∃ rs', Since old m (rs ++ rs') (s.call c).2 := by
  obtain ⟨w, hw, hlive, hb⟩ := h.wal
  obtain ⟨rs', hlog, hcaused, -⟩ := call_logged h.disk hw c
  obtain ⟨w₀, w', hw₀, hw', hwrote, hlive'⟩ := hlog.wal
  obtain rfl := Option.some.inj (hw.symm.trans hw₀)
  have hd := hlog.disk.trans h.disk
  have hitems : s.items.toMap = applyAll m rs := (toMap_of_none h.disk).symm.trans h.map
  have hok : MapOk s.items.toMap := by
    rw [hitems]
    exact h.mapOk.applyAll fun r hr => h.ok r (List.mem_append_right _ hr)
  refine ⟨rs', hd, ⟨w', hw', hlive' hlive, ?_⟩, fun r hr => ?_, ?_, h.left⟩
  · rw [hwrote.live_bytes (hlive' hlive), hb, ← encodeAll_append, List.append_assoc]
  · rw [← List.append_assoc] at hr
    rcases List.mem_append.1 hr with hr | hr
    · exact h.ok r hr
    · exact (hcaused r hr).ok hok hc
  · rw [toMap_of_none hd, hlog.map, hitems, applyAll_append]

theorem Since.logBytes (h : Since old m rs s) : s.logBytes = encodeAll (old ++ rs) := by
  obtain ⟨w, hw, -, hb⟩ := h.wal
  rw [Storage.logBytes, hw]
  exact hb

theorem Since.clear (h : Since old m rs s) (truncated reopened : Bool) :
    Since (old ++ rs) ∅ [] (s.clear truncated reopened).2 := by
  obtain ⟨-, hwal, hdisk⟩ := s.clear_eq truncated reopened
  obtain ⟨w, hw, hlive, hb⟩ := h.wal
  refine ⟨hdisk h.disk, ⟨w, hwal.trans hw, hlive, ?_⟩, ?_, toMap_clear _ _, fun k v hk => ?_⟩
  · rw [hb, List.append_nil]
  · rw [List.append_nil]
    exact h.ok
  · rw [Finmap.lookup_empty] at hk
    cases hk

/-- What a server without a bound finds on the store's log. -/
def reopened (s : Storage) : Map := (openLog 0 (some s.logBytes) none).toMap

theorem Since.reopened (h : Since old m rs s) : s.reopened = applyAll ∅ (old ++ rs) := by
  rw [Storage.reopened, toMap_of_none (openLog_eq _ _ _).1, openLog_fits (.inl rfl),
    Option.getD_some, h.logBytes, records_encodeAll h.ok]

theorem Since.lookup_reopened (h : Since old m rs s) (k : Bytes) : s.reopened.lookup k
    = if k ∈ rs.map key then s.toMap.lookup k else (applyAll ∅ old).lookup k := by
  rw [h.reopened, h.map, applyAll_append]
  split_ifs with hk
  · exact lookup_applyAll_of_key hk
  · exact lookup_applyAll_of_ne fun r hr he => hk (List.mem_map.2 ⟨r, hr, he⟩)

theorem Since.kept (h : Since old m rs s) (hk : s.toMap.lookup k = some v) :
    s.reopened.lookup k = some v := by
  rw [h.lookup_reopened]
  split_ifs with hmem
  · exact hk
  · refine h.left k v ?_
    rwa [h.map, lookup_applyAll_of_ne fun r hr he => hmem (List.mem_map.2 ⟨r, hr, he⟩)] at hk

theorem since_openLog {file : Option Bytes} (capacity : ℕ) (hok : ∀ r ∈ rs, r.Ok)
    (hfile : file.getD [] = encodeAll rs) :
    Since rs (openLog capacity file none).toMap [] (openLog capacity file none) := by
  obtain ⟨hd, -, hw, -⟩ := openLog_eq capacity file none
  refine ⟨hd, ⟨_, hw, ⟨rfl, rfl⟩, ?_⟩, ?_, rfl, fun k v hk => ?_⟩
  · rw [List.append_nil, ← hfile]
    rfl
  · rwa [List.append_nil]
  · rw [toMap_of_none hd] at hk
    have hv := openLog_lookup hk
    rwa [hfile, records_encodeAll hok] at hv

end Storage

namespace Server

/-- The line is one that `handle_client` does not refuse for its length. -/
def Event.Fits : Event → Prop
  | .line _ l _ => l.length ≤ maxLine
  | .timer _ => True

instance : DecidablePred Event.Fits := fun ev => by
  cases ev <;> unfold Event.Fits <;> infer_instance

variable {c : ServerConfig} {s s₀ s₁ : Server} {ev : Event} {evs evs' : List Event}
  {old rs : List Mutation} {m : Map} {n : ℕ}

/-- A step without a handshake adds to the log what it changes. -/
theorem step_since (h : Since old m rs s₀.node.store) (hfit : ev.Fits)
    (hs : s₀.step c ev = some s) (ha : s₀.accepts c ev = none) :
    ∃ rs', Since old m (rs ++ rs') s.node.store := by
  have hself : ∃ rs', Since old m (rs ++ rs') s₀.node.store := ⟨[], by rwa [List.append_nil]⟩
  cases ev with
  | timer =>
    obtain ⟨-, rfl⟩ := step_timer hs
    exact hself
  | line conn line io =>
    obtain ⟨-, rfl⟩ := step_line hs
    have hdoes := answer_does (c := c) s₀ conn line io
    have hok : ∀ call, s₀.op c conn line io = .call call → call.Ok := fun _ ho =>
      Call.ok_of_write fun _ => write_ok_of_lineOp hfit ho
    have hsync : s₀.op c conn line io ≠ .sync := fun ho => by
      rw [op_eq_sync.1 ho] at ha
      cases ha
    generalize s₀.op c conn line io = o at hdoes hok hsync
    generalize s₀.answer c conn line io = r at hdoes
    cases hdoes with
    | call call => exact h.call (hok call rfl)
    | sync => exact absurd rfl hsync
    | _ => exact hself

theorem accepts_since (h : Since old m rs s₀.node.store) (hs : s₀.step c ev = some s)
    (ha : s₀.accepts c ev = some n) : Since (old ++ rs) ∅ [] s.node.store := by
  cases ev with
  | timer => cases ha
  | line conn line io =>
    obtain rfl := accepts_line ha
    obtain ⟨-, rfl⟩ := step_line hs
    have hdoes := answer_does (c := c) s₀ n line io
    rw [op_eq_sync.2 ha] at hdoes
    generalize s₀.answer c n line io = r at hdoes
    cases hdoes
    exact h.clear _ _

/-- Along a run without a handshake the log grows by what the run changes. -/
theorem run_since : ∀ {evs : List Event} {s₀ : Server} {rs : List Mutation},
    Since old m rs s₀.node.store → (∀ ev ∈ evs, ev.Fits) → runActs (step c) s₀ evs = some s →
    acceptances c s₀ evs = [] → ∃ rs', Since old m (rs ++ rs') s.node.store
  | [], _, rs, h, _, hr, _ => by
    obtain rfl := Option.some.inj hr
    exact ⟨[], by rwa [List.append_nil]⟩
  | ev :: evs, s₀, rs, h, hfit, hr, ha => by
    obtain ⟨s₁, hs, hr⟩ := Option.bind_eq_some_iff.1 hr
    rw [acceptances, hs, List.append_eq_nil_iff, Option.toList_eq_nil_iff] at ha
    obtain ⟨rs₁, h₁⟩ := step_since h (hfit ev List.mem_cons_self) hs ha.1
    obtain ⟨rs₂, h₂⟩ := run_since h₁ (fun ev' he => hfit ev' (List.mem_cons_of_mem _ he)) hr ha.2
    exact ⟨rs₁ ++ rs₂, by rwa [← List.append_assoc]⟩

/-- Along any run the log is split by the last handshake. -/
theorem exists_since : ∀ {evs : List Event} {s₀ : Server} {old rs : List Mutation} {m : Map},
    Since old m rs s₀.node.store → (∀ ev ∈ evs, ev.Fits) → runActs (step c) s₀ evs = some s →
    ∃ old m rs, Since old m rs s.node.store
  | [], _, _, _, _, h, _, hr => by
    obtain rfl := Option.some.inj hr
    exact ⟨_, _, _, h⟩
  | ev :: evs, s₀, old, rs, m, h, hfit, hr => by
    obtain ⟨s₁, hs, hr⟩ := Option.bind_eq_some_iff.1 hr
    have hrest := fun ev' he => hfit ev' (List.mem_cons_of_mem _ he)
    rcases ha : s₀.accepts c ev with _ | n
    · obtain ⟨rs', h'⟩ := step_since h (hfit ev List.mem_cons_self) hs ha
      exact exists_since h' hrest hr
    · exact exists_since (accepts_since h hs ha) hrest hr

/-- A server on a log, at any time after it accepted a handshake and before it accepts another, was
it killed now. Started on the log again it would have every key that it has. A key that was changed
since the handshake would be as it is, every other one as if the server had been started again right
before the handshake, also one that the leader no longer has. -/
theorem restart_after_sync {file : Option Bytes} {capacity : ℕ} {boot : RaftNode.Tick}
    (hfile : Whole file) (hfit : ∀ ev ∈ evs ++ evs', ev.Fits)
    (hr : runActs (step c) (start c (openLog capacity file none) boot) evs = some s₀)
    (hs : s₀.step c ev = some s₁) (ha : s₀.accepts c ev = some n)
    (hr' : runActs (step c) s₁ evs' = some s) (hno : acceptances c s₁ evs' = []) :
    (∀ k v, s.node.store.toMap.lookup k = some v → s.node.store.reopened.lookup k = some v)
    ∧ ∃ rs, s.node.store.logBytes = s₀.node.store.logBytes ++ encodeAll rs
      ∧ s.node.store.toMap = applyAll ∅ rs
      ∧ ∀ k, s.node.store.reopened.lookup k
        = if k ∈ rs.map key then s.node.store.toMap.lookup k
          else s₀.node.store.reopened.lookup k := by
  obtain ⟨rs₀, hok, hb⟩ := hfile
  have hstart : Since rs₀ _ [] (start c (openLog capacity file none) boot).node.store :=
    since_openLog capacity hok hb
  obtain ⟨old, m, rs, h₀⟩ := exists_since hstart
    (fun ev he => hfit ev (List.mem_append_left _ he)) hr
  obtain ⟨rs', h⟩ := run_since (accepts_since h₀ hs ha)
    (fun ev he => hfit ev (List.mem_append_right _ he)) hr' hno
  rw [List.nil_append] at h
  refine ⟨fun k v hk => h.kept hk, rs', ?_, h.map, fun k => ?_⟩
  · rw [h.logBytes, h₀.logBytes, encodeAll_append]
  · rw [h.lookup_reopened, h₀.reopened]

section Run

def replica : ServerConfig := { isFollower := true }

/-- The replica link `conn` is made and one line comes over it. -/
def link (conn : ℕ) (l : Bytes) : List Event :=
  [.line conn (ascii "__REPLSYNC__") quietIo, .line conn l quietIo]

end Run

/-- A leader connects and sends one key, and connects again without it. -/
theorem restart_after_sync_twice : ∃ s₀ s,
    runActs (step replica) (start replica (openLog 0 none none) ⟨0, 0⟩) (link 0 (ascii "SET a 1"))
      = some s₀
    ∧ runActs (step replica) s₀ (link 1 (ascii "SET b 2")) = some s
    ∧ s.node.store.toMap.lookup (ascii "a") = none
    ∧ s.node.store.reopened.lookup (ascii "a") = some (ascii "1")
    ∧ s.node.store.reopened.lookup (ascii "b") = some (ascii "2") := by
  have hfit : ∀ ev ∈ link 0 (ascii "SET a 1") ++ [.line 1 (ascii "SET b 2") quietIo], ev.Fits := by
    decide +kernel
  obtain ⟨s₀, hr, ha⟩ := exists_run (step replica)
    (start replica (openLog 0 none none) ⟨0, 0⟩) (link 0 (ascii "SET a 1"))
    (fun s => s.accepts replica (.line 1 (ascii "__REPLSYNC__") quietIo) = some 1
      ∧ (runActs (step replica) s (link 1 (ascii "SET b 2"))).any (fun s =>
        s.node.store.toMap.lookup (ascii "a") = none
        ∧ s.node.store.reopened.lookup (ascii "a") = some (ascii "1")
        ∧ s.node.store.toMap.lookup (ascii "b") = some (ascii "2")) = true) (by decide +kernel)
  obtain ⟨s, hr', hfacts⟩ := exists_run (step replica) s₀ _ _ ha.2
  obtain ⟨s₁, hs, hrest⟩ := Option.bind_eq_some_iff.1 hr'
  have hverb : (verbAndKey (ascii "SET b 2")).1 ≠ ascii "__REPLSYNC__" := by decide
  have hno : acceptances replica s₁ [.line 1 (ascii "SET b 2") quietIo] = [] := by
    obtain ⟨s₂, hs₂, -⟩ := Option.bind_eq_some_iff.1 hrest
    rw [acceptances, hs₂, accepts, if_neg fun h => hverb h.1]
    rfl
  have hkept := (restart_after_sync ⟨[], by simp, rfl⟩ hfit hr hs ha.1 hrest hno).1
  exact ⟨s₀, s, hr, hr', hfacts.1, hfacts.2.1, hkept _ _ hfacts.2.2⟩

end Server

end Redon
