import Redon.Lifetime
import Redon.Proofs.Metrics
import Redon.Proofs.Reopen

/-!
# What a server can hold

The line a change is replicated as asks for the same change again (`lineOp_text`): keys and values
that come from a line have no white space where the splitting looks for it. All that lines, replicas
and complete log records can store is of that kind (`Keeps`), so a value is one line. A log record
that was torn by a kill and appended behind is the exception: its value is read on into the next
records (`newline_stored`).
-/

namespace Redon

open Lib Mutation

section Reparse

variable {e e' : ExecEnv} {nd nd' : Node} {link link' : Bool} {line : Bytes} {c : Call}
  {r : Mutation}

/-- A connection on which writes are executed. -/
def Writable (e : ExecEnv) (nd : Node) (link : Bool) : Prop :=
  (e.nodeIsFollower = true → link = true) ∧ ∀ node, nd.raft = some node → node.role = .leader

theorem lineOp_of_tokens {verb key rest : Bytes} (ht : lineTokens line = (verb, key, rest))
    (hv : verb = ascii "SET" ∨ verb = ascii "DEL") (hw : Writable e nd link) :
    nd.lineOp e link line = verbOp verb key rest := by
  have hverb : (lineTokens line).1 = verb := by rw [ht]
  have href : ExecState.refusal e ⟨nd.store, link, nd.raft⟩ verb = none :=
    (refusal_of_write (by rcases hv with rfl | rfl <;> decide)).2 hw
  rw [Node.lineOp, verbAndKey_eq, ht, ExecState.lineOp, trim_of_verb, ht, ExecState.tokensOp, href]
  · rcases hv with rfl | rfl <;> rfl
  · rw [hverb]
    rcases hv with rfl | rfl <;> decide

/-- The line of a change asks for that change. -/
theorem lineOp_text (hr : r.Wire) (hc : c.write = some r) (hw : Writable e nd link) :
    nd.lineOp e link (text (some r)) = .call c := by
  cases c with
  | set k v =>
    obtain rfl := Option.some.inj hc
    rw [lineOp_of_tokens (lineTokens_set hr) (.inl rfl) hw, verbOp, if_pos rfl, if_neg]
    simp [hr.1, hr.2.2.1]
  | get => cases hc
  | del k =>
    obtain rfl := Option.some.inj hc
    rw [lineOp_of_tokens (lineTokens_del hr) (.inr rfl) hw, verbOp, if_neg (by decide),
      if_neg (by decide), if_pos (.inl rfl), if_neg]
    simp [hr.1]
  | «exists» => cases hc

end Reparse

namespace Storage

variable {s : Storage}

theorem wal_evictLoop : ∀ (n : ℕ) {s : Storage}, s.wal = none → (evictLoop n s).1.wal = none
  | 0, _, h => h
  | n + 1, s, h => by
    rcases evictLoop_cases n s with he | ⟨k, v, s₁, -, hl, he⟩ | ⟨k, v, s₁, -, hl, s₂, rfl, he⟩
    · rw [he]
      exact h
    · rw [logRecord_none h] at hl
      cases hl
    · rw [logRecord_none h, Prod.mk.injEq] at hl
      obtain ⟨-, rfl⟩ := hl
      rw [he]
      exact wal_evictLoop n h

theorem clear_eq (s : Storage) (truncated reopened : Bool) :
    (s.clear truncated reopened).2.Sound ∧ (s.clear truncated reopened).2.wal = s.wal
      ∧ (s.disk = none → (s.clear truncated reopened).2.disk = none) := by
  unfold clear
  rcases hd : s.disk with _ | d
  · exact ⟨sound_of_none rfl, rfl, fun _ => rfl⟩
  · refine ⟨fun d' hd' k e hk => ?_, rfl, fun h => by cases h⟩
    obtain rfl := Option.some.inj hd'
    cases hk

/-- A store without a log does not get one. -/
theorem wal_call (h : s.wal = none) (c : Call) : (s.call c).2.wal = none := by
  cases c with
  | set k v =>
    change (s.set k v).2.1.wal = none
    rcases hd : s.disk with _ | d
    · rcases set_cases hd k v with ⟨s₁, hl, he⟩ | ⟨s₁, i, hl, -, s₂, rfl, he⟩
        | ⟨s₁, hi, hl, s₂, rfl, he⟩ <;> rw [logRecord_none h, Prod.mk.injEq] at hl
      · cases hl.1
      · obtain ⟨-, rfl⟩ := hl
        rw [he]
        exact h
      · obtain ⟨-, rfl⟩ := hl
        rw [he]
        exact wal_evictLoop _ h
    · unfold set
      rw [hd]
      dsimp only
      split <;> exact h
  | get k =>
    obtain ⟨items, he, -⟩ := s.get_eq k
    change (s.get k).2.wal = none
    rw [he]
    exact h
  | del k =>
    change (s.del k).2.1.wal = none
    rcases hd : s.disk with _ | d
    · rcases del_cases hd k with ⟨-, he⟩ | ⟨i, s₁, -, hl, he⟩ | ⟨i, s₁, hi, hl, s₂, rfl, he⟩
      · rw [he]
        exact h
      · rw [logRecord_none h, Prod.mk.injEq] at hl
        cases hl.1
      · rw [logRecord_none h, Prod.mk.injEq] at hl
        obtain ⟨-, rfl⟩ := hl
        rw [he]
        exact h
    · unfold del
      rw [hd]
      dsimp only
      split_ifs <;> exact h
  | «exists» => exact h

end Storage

namespace Life

variable {F B : Type} {m : Medium F B} {l : Life F} {l' : Life F}

/-- What a step can be. -/
inductive Steps (m : Medium F B) (l : Life F) : Event B → Life F → Prop
  | boot {c : ServerConfig} {capacity : ℕ} {start : B} {t : RaftNode.Tick} {store : Storage}
      (hrun : l.running = none) (hs : m.setUp l.file capacity start = some store) :
      Steps m l (.boot c capacity start t) ⟨m.after l.file store, some (c, .start c store t)⟩
  | serve {ev : Server.Event} {c : ServerConfig} {s s' : Server} (hrun : l.running = some (c, s))
      (hl : isLine ev = true) (hs : s.step c ev = some s') :
      Steps m l (.serve ev) ⟨m.after l.file s'.node.store, some (c, s')⟩
  | kill {ev : Server.Event} {n : ℕ} {c : ServerConfig} {s s' : Server}
      (hrun : l.running = some (c, s)) (hl : isLine ev = true) (hs : s.step c ev = some s') :
      Steps m l (.kill ev n) ⟨m.cut l.file (m.after l.file s'.node.store) n, none⟩
  | stop {fault : Option (ℕ × ℕ)} {c : ServerConfig} {s : Server}
      (hrun : l.running = some (c, s)) :
      Steps m l (.stop fault) ⟨m.closed l.file s.node.store fault, none⟩

theorem steps_of_step {ev : Event B} (hs : l.step m ev = some l') : Steps m l ev l' := by
  cases ev with
  | boot c capacity start t =>
    rcases hrun : l.running with _ | p <;> simp only [step, hrun] at hs
    · obtain ⟨store, hstore, rfl⟩ := Option.map_eq_some_iff.1 hs
      exact .boot hrun hstore
    · cases hs
  | serve ev =>
    obtain ⟨⟨c, s⟩, hrun, hs⟩ := Option.bind_eq_some_iff.1 hs
    dsimp only at hs
    split_ifs at hs with hl
    obtain ⟨s', hs', rfl⟩ := Option.map_eq_some_iff.1 hs
    exact .serve hrun hl hs'
  | kill ev n =>
    obtain ⟨⟨c, s⟩, hrun, hs⟩ := Option.bind_eq_some_iff.1 hs
    dsimp only at hs
    split_ifs at hs with hl
    obtain ⟨s', hs', rfl⟩ := Option.map_eq_some_iff.1 hs
    exact .kill hrun hl hs'
  | stop fault =>
    obtain ⟨⟨c, s⟩, hrun, rfl⟩ := Option.map_eq_some_iff.1 hs
    exact .stop hrun

end Life

namespace Lifetime

/-- The log is complete records that come through as lines, and at most part of one more. -/
def WireLog (log : Option Bytes) : Prop :=
  ∃ rs t, log.getD [] = encodeAll rs ++ t ∧ IsCut t ∧ ∀ r ∈ rs, r.Wire

/-- A store that lines can leave, with `log` for its log if it has one. -/
structure Keeps (log : Option Bytes) (s : Storage) : Prop where
  sound : s.Sound
  wire : WireMap s.toMap
  wal : ∀ w, s.wal = some w → s.disk = none ∧ log = some w.out.bytes
  pends : s.Pends Mutation.Wire

/-- What an operation on such a store leaves, and what it appends to the log. -/
structure Appends (rs : List Mutation) (s s' : Storage) : Prop where
  sound : s'.Sound
  wire : WireMap s'.toMap
  unlogged : s.wal = none → s'.wal = none
  logged : ∀ w, s.wal = some w → ∃ w', s'.wal = some w' ∧ s'.disk = none ∧ w.Wrote rs w'
  wires : ∀ r ∈ rs, r.Wire
  pends : s'.Pends Mutation.Wire

variable {log : Option Bytes} {s s' : Storage} {rs : List Mutation}

theorem Keeps.refl (h : Keeps log s) : Appends [] s s :=
  ⟨h.sound, h.wire, id, fun w hw => ⟨w, hw, (h.wal w hw).1, .refl w⟩, by simp, h.pends⟩

theorem Keeps.call (h : Keeps log s) {c : Call} (hc : ∀ r, c.write = some r → r.Wire) :
    ∃ rs, Appends rs s (s.call c).2 := by
  have hands := call_handsOver h.sound hc
  have hwire : WireMap (s.call c).2.toMap := by
    rw [hands.map]
    refine h.wire.applyAll fun r hr => ?_
    obtain ⟨p, hp, rfl⟩ := List.mem_map.1 hr
    exact hands.wire h.wire p hp
  rcases hw : s.wal with _ | w
  · have hno := Storage.wal_call hw c
    refine ⟨[], hands.sound, hwire, fun _ => hno, fun w hw' => ?_, by simp, fun w hw' => ?_⟩
    · rw [hw] at hw'
      cases hw'
    · rw [hno] at hw'
      cases hw'
  · obtain ⟨hd, -⟩ := h.wal w hw
    obtain ⟨rs, hlog, hcaused, -⟩ := Storage.call_logged hd hw c
    obtain ⟨w₀, w', hw₀, hw', hwrote, -⟩ := hlog.wal
    obtain rfl := Option.some.inj (hw.symm.trans hw₀)
    have hwires : ∀ r, Storage.Caused s.items.toMap c r → r.Wire := by
      intro r hr
      cases r with
      | set k v =>
        obtain rfl : c = .set k v := hr
        exact hc _ rfl
      | del k =>
        rcases hr with hk | ⟨v, rfl⟩
        · obtain ⟨v, hv⟩ := Option.isSome_iff_exists.1 (Finmap.lookup_isSome.2 hk)
          rw [← Storage.toMap_of_none hd] at hv
          exact h.wire.del hv
        · exact ⟨(hc _ rfl).1, (hc _ rfl).2.1⟩
    refine ⟨rs, hands.sound, hwire, fun hno => ?_, fun w₁ hw₁ => ?_, fun r hr => ?_,
      Storage.call_pends hd h.pends hwires⟩
    · rw [hw] at hno
      cases hno
    · obtain rfl := Option.some.inj (hw.symm.trans hw₁)
      exact ⟨w', hw', hlog.disk.trans hd, hwrote⟩
    · exact hwires r (hcaused r hr)

/-- An operation other than the handshake makes one call or none. -/
theorem Keeps.does {e : ExecEnv} {x : ExecState} {info : Bytes} {o : Op} {r : Executed}
    (h : Keeps log x.store) (hdoes : Does e x info o r)
    (hc : ∀ c r, o = .call c → c.write = some r → r.Wire) : ∃ rs, Appends rs x.store r.store := by
  cases hdoes with
  | call c => exact h.call fun r => hc c r rfl
  | sync =>
    obtain ⟨hsound, hwal, hdisk⟩ := x.store.clear_eq e.truncated e.reopened
    refine ⟨[], ⟨hsound, ?_, fun hw => hwal.trans hw, fun w hw => ?_, by simp, fun w hw => ?_⟩⟩
    · change WireMap (x.store.clear e.truncated e.reopened).2.toMap
      rw [Storage.toMap_clear]
      exact wireMap_empty
    · exact ⟨w, hwal.trans hw, hdisk (h.wal w hw).1, .refl w⟩
    · exact h.pends w (hwal.symm.trans hw)
  | _ => exact ⟨[], h.refl⟩

/-- A prefix of complete records and part of one more is complete records and part of one more. -/
theorem take_encodeAll_cut (rs : List Mutation) {t : Bytes} (ht : IsCut t) (n : ℕ) :
    ∃ rs' t', (encodeAll rs ++ t).take n = encodeAll rs' ++ t' ∧ IsCut t' ∧ ∀ r ∈ rs', r ∈ rs := by
  by_cases hn : n ≤ (encodeAll rs).length
  · obtain ⟨k, t', -, htake, hcut, -⟩ := encodeAll_take rs n
    rw [List.take_append_of_le_length hn]
    exact ⟨_, _, htake, hcut, fun r hr => List.mem_of_mem_take hr⟩
  · refine ⟨rs, t.take (n - (encodeAll rs).length), ?_, ?_, fun _ => id⟩
    · rw [List.take_append, List.take_of_length_le (by omega)]
    · obtain ⟨r, hpre, hne⟩ := ht
      refine ⟨r, (List.take_prefix _ _).trans hpre, fun he => hne ?_⟩
      have hle := (List.take_prefix (n - (encodeAll rs).length) t).length_le
      rw [he] at hle
      exact hpre.eq_of_length_le hle

/-- Replay reads the records written and nothing of what was cut short behind them. -/
theorem mem_of_records {t : Bytes} (ht : IsCut t) {r : Mutation}
    (hr : r ∈ Wal.records (encodeAll rs ++ t)) : r ∈ rs := by
  obtain ⟨r', hpre, hne⟩ := ht
  exact AppendSession.mem_of_mem_recordsFrom (fun p => readRecord_cut hpre hne) r hr

theorem WireLog.records (h : WireLog log) : ∀ r ∈ Wal.records (log.getD []), r.Wire := by
  obtain ⟨rs, t, hb, ht, hrs⟩ := h
  intro r hr
  rw [hb] at hr
  exact hrs r (mem_of_records ht hr)

/-- The log stays so if nothing is appended behind a torn record. -/
theorem WireLog.grow (h : WireLog log) {t b : Bytes} {n : ℕ} (hrs : ∀ r ∈ rs, r.Wire)
    (ht : IsCut t) (hb : b = log.getD [] ++ (encodeAll rs ++ t).take n)
    (hq : Whole log ∨ b = log.getD []) : WireLog (some b) := by
  rcases hq with ⟨rs₀, hok, hlog⟩ | hsame
  · obtain ⟨rs', t', htake, ht', hmem⟩ := take_encodeAll_cut rs ht n
    refine ⟨rs₀ ++ rs', t', ?_, ht', fun r hr => ?_⟩
    · rw [Option.getD_some, hb, hlog, htake, encodeAll_append, List.append_assoc]
    · rcases List.mem_append.1 hr with hr | hr
      · refine h.records r ?_
        rwa [hlog, records_encodeAll hok]
      · exact hrs r (hmem r hr)
  · obtain ⟨rs₁, t₁, hb₁, ht₁, hrs₁⟩ := h
    exact ⟨rs₁, t₁, by rw [Option.getD_some, hsame, hb₁], ht₁, hrs₁⟩

theorem Appends.keeps (ha : Appends rs s s') :
    Keeps (logAfter log s') s' := by
  refine ⟨ha.sound, ha.wire, fun w' hw' => ?_, ha.pends⟩
  rcases hw : s.wal with _ | w
  · rw [ha.unlogged hw] at hw'
    cases hw'
  · obtain ⟨w'', hw'', hd, -⟩ := ha.logged w hw
    rw [logAfter, hw']
    exact ⟨hd, rfl⟩

/-- What is in the log after an operation. -/
theorem Appends.bytes (hk : Keeps log s) (ha : Appends rs s s') : ∃ rs t,
    (logAfter log s').getD [] = log.getD [] ++ (encodeAll rs ++ t) ∧ IsCut t
      ∧ ∀ r ∈ rs, r.Wire := by
  rcases hw : s.wal with _ | w
  · refine ⟨[], [], ?_, isCut_nil, by simp⟩
    rw [logAfter, ha.unlogged hw]
    simp [encodeAll]
  · obtain ⟨w', hw', -, t, hb, ht, -⟩ := ha.logged w hw
    refine ⟨rs, t, ?_, ht, ha.wires⟩
    rw [logAfter, hw', (hk.wal w hw).2, ← List.append_assoc]
    exact hb

theorem Keeps.server {c : ServerConfig} {sv sv' : Server} {ev : Server.Event}
    (hk : Keeps log sv.node.store) (hl : Life.isLine ev = true) (hs : sv.step c ev = some sv') :
    ∃ rs, Appends rs sv.node.store sv'.node.store := by
  cases ev with
  | timer node =>
    obtain ⟨-, rfl⟩ := Server.step_timer hs
    exact ⟨[], hk.refl⟩
  | line conn line io =>
    obtain ⟨-, rfl⟩ := Server.step_line hs
    exact hk.does (Server.answer_does sv conn line io) fun c r ho hc =>
      wire_of_lineOp (of_decide_eq_true hl) ho hc

theorem keeps_of_none (hs : s.Sound) (hm : WireMap s.toMap) (hw : s.wal = none) : Keeps log s := by
  refine ⟨hs, hm, fun w h => ?_, fun w h => ?_⟩
  · rw [hw] at h
    cases h
  · rw [hw] at h
    cases h

/-- A store as it is set up for a server. -/
theorem setUp_keeps {capacity : ℕ} {backend : Backend} (h : WireLog log)
    (hs : backend.setUp capacity log = some s) :
    Keeps (logAfter log s) s ∧ (logAfter log s).getD [] = log.getD [] := by
  cases backend with
  | memory =>
    obtain rfl := Option.some.inj hs
    exact ⟨keeps_of_none (Storage.sound_of_none rfl) wireMap_empty rfl, rfl⟩
  | log fault =>
    obtain rfl := Option.some.inj hs
    obtain ⟨hd, -, hw, -⟩ := Storage.openLog_eq capacity log fault
    refine ⟨⟨Storage.sound_of_none hd, fun k v hkv => ?_, fun w hw' => ⟨hd, ?_⟩, fun w hw' => ?_⟩,
      ?_⟩
    · rw [Storage.toMap_of_none hd] at hkv
      exact wireMap_empty.applyAll h.records k v (Storage.openLog_lookup hkv)
    · rw [logAfter, hw']
      rfl
    · rw [← Option.some.inj (hw.symm.trans hw')]
      exact .inl rfl
    · rw [logAfter, hw]
      rfl
  | disk fs order fault =>
    have hnew : DiskStore.ofFile fs order [] fault = ⟨⟨[], fault, []⟩, ∅, fs.opened⟩ := by
      unfold DiskStore.ofFile
      cases fs.opened <;> rfl
    simp only [Backend.setUp, Storage.openDiskBackend, hnew] at hs
    cases ho : fs.opened with
    | false =>
      rw [ho] at hs
      cases hs
    | true =>
      rw [ho] at hs
      obtain rfl := Option.some.inj hs
      refine ⟨keeps_of_none (fun d hd k e hk => ?_) wireMap_empty rfl, rfl⟩
      obtain rfl := Option.some.inj hd
      cases hk

structure Inv (l : Lifetime) : Prop where
  log : WireLog l.file
  store : ∀ c s, l.running = some (c, s) → Keeps l.file s.node.store

theorem getD_map_take (log : Option Bytes) (n : ℕ) :
    (log.map fun bytes => bytes.take n).getD [] = (log.getD []).take n := by
  cases log <;> simp

theorem inv_new : Inv new := ⟨⟨[], [], rfl, isCut_nil, by simp⟩, fun _ _ h => by cases h⟩

variable {l l' : Lifetime} {ev : Event}

/-- No step appends behind a torn record. -/
def Careful (l : Lifetime) (_ : Event) (l' : Lifetime) : Prop :=
  Whole l.file ∨ l'.file.getD [] = l.file.getD []

/-- What the log is grown by when it is closed. -/
theorem Keeps.closed (hk : Keeps log s) (fault : Option (ℕ × ℕ)) : ∃ rs t,
    (closeLog log s fault).getD [] = log.getD [] ++ (encodeAll rs ++ t) ∧ IsCut t
      ∧ ∀ r ∈ rs, r.Wire := by
  rcases hw : s.wal with _ | w
  · refine ⟨[], [], ?_, isCut_nil, by simp⟩
    rw [closeLog, hw]
    simp [encodeAll]
  · obtain ⟨rs, t, hb, ht, hrs⟩ := (hk.pends w hw).close fault
    refine ⟨rs, t, ?_, ht, fun r hr => ?_⟩
    · rw [closeLog, hw, (hk.wal w hw).2]
      exact hb
    · rcases hrs with rfl | ⟨r', hr', -, rfl⟩
      · cases hr
      · rwa [List.mem_singleton.1 hr]

theorem Inv.step (h : Inv l) (hs : Lifetime.step l ev = some l') (hq : Careful l ev l') :
    Inv l' := by
  cases Life.steps_of_step hs with
  | @boot c _ _ _ store hrun hstore =>
    obtain ⟨hkeeps, hlog⟩ := setUp_keeps h.log hstore
    obtain ⟨rs, t, hb, ht, hrs⟩ := h.log
    refine ⟨⟨rs, t, hlog.trans hb, ht, hrs⟩, fun c' s' hs' => ?_⟩
    obtain ⟨rfl, rfl⟩ := Prod.mk.inj (Option.some.inj hs')
    exact hkeeps
  | @serve ev c s s' hrun hl hstep =>
    have hkeeps := h.store c s hrun
    obtain ⟨_, ha⟩ := hkeeps.server hl hstep
    obtain ⟨rs, t, hb, ht, hrs⟩ := ha.bytes hkeeps
    refine ⟨?_, fun c' s'' hs'' => ?_⟩
    · have hgrow := h.log.grow (n := (encodeAll rs ++ t).length) hrs ht rfl
      rw [List.take_length, ← hb] at hgrow
      exact hgrow hq
    · obtain ⟨rfl, rfl⟩ := Prod.mk.inj (Option.some.inj hs'')
      exact ha.keeps
  | @kill ev n c s s' hrun hl hstep =>
    have hkeeps := h.store c s hrun
    obtain ⟨_, ha⟩ := hkeeps.server hl hstep
    obtain ⟨rs, t, hb, ht, hrs⟩ := ha.bytes hkeeps
    have hbytes : ((logAfter l.file s'.node.store).map fun bytes =>
        bytes.take (max (l.file.getD []).length n)).getD []
        = l.file.getD [] ++ (encodeAll rs ++ t).take
          (max (l.file.getD []).length n - (l.file.getD []).length) := by
      rw [getD_map_take, hb, List.take_append, List.take_of_length_le (le_max_left _ _)]
    refine ⟨?_, fun c' s'' hs'' => by cases hs''⟩
    exact h.log.grow hrs ht hbytes hq
  | @stop fault c s hrun =>
    obtain ⟨rs, t, hb, ht, hrs⟩ := (h.store c s hrun).closed fault
    refine ⟨?_, fun c' s' hs' => by cases hs'⟩
    have hgrow := h.log.grow (n := (encodeAll rs ++ t).length) hrs ht rfl
    rw [List.take_length, ← hb] at hgrow
    exact hgrow hq

theorem inv_run : ∀ {evs : List Event} {l l' : Lifetime}, Inv l →
    runActs Lifetime.step l evs = some l' → AllSteps Lifetime.step Careful l evs → Inv l'
  | [], _, _, h, hr, _ => by
    obtain rfl := Option.some.inj hr
    exact h
  | ev :: evs, l, l', h, hr, hq => by
    obtain ⟨l₁, hs, hr⟩ := Option.bind_eq_some_iff.1 hr
    obtain ⟨hcare, hq⟩ := hq l₁ hs
    exact inv_run (h.step hs hcare) hr hq

end Lifetime

/-- The reply to a `GET` is its value, if the key has one, or a text of its own. -/
theorem newline_get {s : Server} {c : ServerConfig} {conn : ℕ} {line : Bytes} {io : LineIo}
    (hm : WireMap s.node.store.toMap) (hv : (verbAndKey line).1 = ascii "GET") :
    10 ∉ (s.answer c conn line io).reply := by
  have hinfo : (verbAndKey line).1 ≠ ascii "INFO" := by
    rw [hv]
    decide
  unfold Server.answer Node.answerLine
  rw [if_neg hinfo]
  rw [verbAndKey_eq] at hv
  have hne : (lineTokens line).1 ≠ [] := by
    intro hnil
    rw [hnil] at hv
    exact absurd hv (by decide)
  rw [executeLine_eq, trim_of_verb hne, if_neg Bool.false_ne_true, executeTokens_read (.inl hv),
    if_pos hv]
  unfold ExecState.executeGet
  split_ifs
  · exact (by decide : 10 ∉ wrongArgs (ascii "get"))
  · change 10 ∉ (s.node.store.get _).1.getD (ascii "(nil)")
    rcases hfound : (s.node.store.get (lineTokens line).2.1).1 with _ | v
    · exact (by decide : 10 ∉ ascii "(nil)")
    · exact (hm _ _ (Storage.lookup_of_get hfound)).2.2.2.1

/-- A line without a newline that makes a change is replicated as one line, which asks for the same
change wherever writes are executed. Over any restarts, if nothing is ever appended to the log
behind a torn record, every stored key is not empty and has no white space, every value is not
empty, has no newline and neither starts nor ends in white space, and the reply to a `GET` is one
line. -/
theorem stored_lines {evs : List Lifetime.Event} {l : Lifetime}
    (hr : runActs Lifetime.step .new evs = some l)
    (hq : AllSteps Lifetime.step Lifetime.Careful .new evs) :
    (∀ e nd link line c r, 10 ∉ line → Node.lineOp e nd link line = .call c → c.write = some r →
      (∃ text, Replicator.replicate r = text ++ [10] ∧ 10 ∉ text
        ∧ ∀ e' nd' link', Writable e' nd' link' → Node.lineOp e' nd' link' text = .call c))
    ∧ ∀ c s, l.running = some (c, s) →
      (∀ k v, s.node.store.toMap.lookup k = some v → k ≠ [] ∧ (∀ b ∈ k, isSpace b = false)
        ∧ v ≠ [] ∧ 10 ∉ v ∧ (∀ b ∈ v.head?, isSpace b = false)
        ∧ ∀ b ∈ v.getLast?, isSpace b = false)
      ∧ ∀ conn line io, (verbAndKey line).1 = ascii "GET" →
        10 ∉ (s.answer c conn line io).reply := by
  refine ⟨fun e nd link line c r hn ho hc => ?_, fun c s hs => ?_⟩
  · have hwire := wire_of_lineOp hn ho hc
    refine ⟨text (some r), replicate_eq r, newline_text fun r' hr' => ?_, fun e' nd' link' hw => ?_⟩
    · obtain rfl := Option.some.inj hr'
      exact hwire
    · exact lineOp_text hwire hc hw
  · have hm := ((Lifetime.inv_run Lifetime.inv_new hr hq).store c s hs).wire
    exact ⟨hm, fun conn line io hv => newline_get hm hv⟩

/-- A server started on a new log that executes one line. -/
def firstLine : List Lifetime.Event :=
  [.boot {} 0 (.log none) ⟨0, 0⟩, .serve (.line 0 (ascii "SET k v") Server.quietIo)]

theorem stored_lines_first : ∃ l c s, runActs Lifetime.step .new firstLine = some l
    ∧ l.running = some (c, s) ∧ s.node.store.toMap.lookup (ascii "k") = some (ascii "v")
    ∧ ∀ conn line io, (verbAndKey line).1 = ascii "GET" →
      10 ∉ (s.answer c conn line io).reply := by
  have hcare : AllSteps Lifetime.step Lifetime.Careful .new firstLine := by
    intro l₁ h₁
    obtain rfl := Option.some.inj h₁
    refine ⟨.inl ⟨[], by simp, rfl⟩, fun l₂ _ => ⟨.inl ⟨[], by simp, rfl⟩, trivial⟩⟩
  refine ⟨_, _, _, rfl, rfl, by decide, ?_⟩
  exact ((stored_lines rfl hcare).2 _ _ rfl).2

/-- A kill in the value of `k`, a server that appends two records behind it, and a restart. -/
def tornValue : List Lifetime.Event :=
  [.boot {} 0 (.log none) ⟨0, 0⟩,
    .kill (.line 0 (ascii "SET k 012345678901234567890") Server.quietIo) 10,
    .boot {} 0 (.log none) ⟨0, 0⟩,
    .serve (.line 0 (ascii "SET b 2") Server.quietIo),
    .serve (.line 0 (ascii "SET c 3") Server.quietIo),
    .stop none,
    .boot {} 0 (.log none) ⟨0, 0⟩]

/-- The value of `k` is then two records, with a newline between them, and so is the reply. -/
theorem newline_stored : ∃ l, runActs Lifetime.step .new tornValue = some l
    ∧ (l.running.map fun p => p.2.node.store.toMap.lookup (ascii "k"))
      = some (some (ascii "SET 1 1 b2\nSET 1 1 c3"))
    ∧ (l.running.map fun p => (p.2.answer p.1 0 (ascii "GET k") Server.quietIo).reply)
      = some (ascii "SET 1 1 b2\nSET 1 1 c3") :=
  exists_run Lifetime.step .new tornValue (fun l =>
    (l.running.map fun p => p.2.node.store.toMap.lookup (ascii "k"))
      = some (some (ascii "SET 1 1 b2\nSET 1 1 c3"))
    ∧ (l.running.map fun p => (p.2.answer p.1 0 (ascii "GET k") Server.quietIo).reply)
      = some (ascii "SET 1 1 b2\nSET 1 1 c3")) (by decide)

end Redon
