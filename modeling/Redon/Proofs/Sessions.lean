import Redon.Proofs.Unbounded

/-!
# Sessions that end in a kill

A kill leaves the log with part of a record at its end, and nothing removes that part before the
next session appends behind it. While no session appends behind a torn record, every session
starts from the effect of all writes so far (`sessions_durable`). A record torn in its header is
never made whole by what follows, so replay then stops in front of it for ever
(`replay_attempted`); one torn in its data takes the next records for its own.
-/

namespace Redon

open Lib Mutation

section Durable

variable {s : Storage} {w : Wal} {file : Option Bytes} {ws : List Mutation} {x : Session}

namespace Storage

theorem Plain.call {m : Map} (h : Plain m s) (c : Call) : (s.call c).1.refused = false
    ∧ Plain (applyAll m c.write.toList) (s.call c).2 := by
  cases c with
  | set k v =>
    obtain ⟨s', hs, hp⟩ := h.set k v
    simp only [Storage.call, hs]
    exact ⟨rfl, hp⟩
  | get k => exact ⟨rfl, (h.get k).2⟩
  | del k =>
    obtain ⟨hd, hp, -⟩ := h.del k
    simp only [Storage.call, hd]
    exact ⟨rfl, hp⟩
  | «exists» k => exact ⟨rfl, h⟩

theorem Plain.run : ∀ (cs : List Call) {m : Map} {s : Storage}, Plain m s →
    Plain (applyAll m (s.acked cs)) (s.run cs)
  | [], _, _, h => h
  | c :: cs, m, s, h => by
    obtain ⟨hack, hp⟩ := h.call c
    rw [acked, hack, if_neg Bool.false_ne_true, applyAll_append]
    exact Plain.run cs hp

/-- A store opened on a log, trimmed or not, is set up to append to it. -/
theorem openLog_eq (c : ℕ) (file : Option Bytes) (fault : Option (ℕ × ℕ)) :
    (openLog c file fault).disk = none ∧ (openLog c file fault).capacity = c
      ∧ (openLog c file fault).wal = some (Wal.openForAppend (file.getD []) fault)
      ∧ (openLog c file fault).items
        = (((replayed (file.getD []) c).setReplaying false)).items := by
  cases file with
  | none => exact ⟨rfl, rfl, rfl, by rfl⟩
  | some bytes =>
    obtain ⟨hr, hcap, -⟩ := replayed_spec bytes c
    unfold openLog
    rw [replayInto_eq]
    simp only [Option.getD_some, attachWal, setReplaying, Bool.false_eq_true, if_false]
    rw [trimLoop_eq]
    exact ⟨hr.disk, hcap, trivial, trivial⟩

theorem openLog_lookup {c : ℕ} {k v : Bytes} {fault : Option (ℕ × ℕ)}
    (h : (openLog c file fault).items.toMap.lookup k = some v) :
    (applyAll ∅ (Wal.records (file.getD []))).lookup k = some v := by
  rw [(openLog_eq c file fault).2.2.2, LinkedMap.lookup_toMap] at h
  rw [← (replayed_spec (file.getD []) c).2.2, LinkedMap.lookup_toMap]
  exact (trimLoop_front _ { replayed (file.getD []) c with replaying := false }).subset h

theorem openLog_fits {c : ℕ} {fault : Option (ℕ × ℕ)}
    (h : c = 0 ∨ (applyAll ∅ (Wal.records (file.getD []))).keys.card ≤ c) :
    (openLog c file fault).items.toMap = applyAll ∅ (Wal.records (file.getD [])) := by
  obtain ⟨-, hcap, hmap⟩ := replayed_spec (file.getD []) c
  rw [(openLog_eq c file fault).2.2.2, ← hmap]
  simp only [setReplaying, Bool.false_eq_true, if_false]
  rw [trimLoop_of_fits (s := { replayed (file.getD []) c with replaying := false })]
  simpa only [hcap, LinkedMap.size_eq_card, hmap] using h

end Storage

/-- The log is complete records that a reader accepts. -/
def Whole (file : Option Bytes) : Prop := ∃ rs, (∀ r ∈ rs, r.Ok) ∧ file.getD [] = encodeAll rs

/-- The complete records of the log have the effect of the writes `ws`. -/
def Durable (file : Option Bytes) (ws : List Mutation) : Prop :=
  ∃ rs t, file.getD [] = encodeAll rs ++ t ∧ (∀ r ∈ rs, r.Ok) ∧ IsCut t
    ∧ applyAll ∅ rs = applyAll ∅ ws

theorem Durable.records (h : Durable file ws) :
    applyAll ∅ (Wal.records (file.getD [])) = applyAll ∅ ws := by
  obtain ⟨rs, t, hf, hok, hcut, he⟩ := h
  rw [hf, records_encodeAll_cut hok hcut, he]

namespace Session

theorem kill_ok (hm : MapOk (x.served file).items.toMap)
    (hd : (x.served file).disk = none) (hok : x.Ok) :
    ∀ r ∈ (x.kill file).records, r.Ok := by
  intro r hr
  obtain ⟨n, he⟩ := Kill.records_eq hr
  obtain ⟨⟨c, n'⟩, hx, hc⟩ := Option.bind_eq_some_iff.1 he
  obtain ⟨r', hr', he'⟩ := Option.map_eq_some_iff.1 hc
  obtain ⟨rfl, rfl⟩ := Prod.mk.inj he'
  cases c with
  | set k v =>
    obtain rfl := Option.some.inj hr'
    exact hok.2 _ hx
  | del k =>
    simp only [Storage.firstRecord, Storage.exists?, hd] at hr'
    split_ifs at hr' with hin
    obtain rfl := Option.some.inj hr'
    refine hm.del_ok ?_
    by_contra hno
    rw [← Storage.index_eq_none_iff] at hno
    rw [hno] at hin
    cases hin
  | get k => cases hr'
  | «exists» k => cases hr'

/-- What a session does to the log and to the effect of the writes. -/
theorem run_spec (h : Durable file ws) (hx : x.Ok) :
    ∃ rs t, x.run file = file.getD [] ++ encodeAll rs ++ t ∧ (∀ r ∈ rs, r.Ok) ∧ IsCut t
      ∧ applyAll (applyAll ∅ ws) rs = applyAll ∅ (ws ++ x.writes file) := by
  obtain ⟨hd, hcap, hw, -⟩ := Storage.openLog_eq 0 file none
  have hmap : (Storage.openLog 0 file none).items.toMap = applyAll ∅ ws := by
    rw [Storage.openLog_fits (.inl rfl), h.records]
  have hkeys : MapOk (Storage.openLog 0 file none).items.toMap := by
    obtain ⟨rs, t, -, hok, -, he⟩ := h
    rw [hmap, ← he]
    exact mapOk_empty.applyAll hok
  obtain ⟨rs, hs, hok, -⟩ := Storage.run_logged x.calls hd hw
  have hrs := hok hkeys hx.1
  obtain ⟨w, w', hw₀, hw', hwrote, hlive⟩ := hs.wal
  obtain rfl := Option.some.inj (hw.symm.trans hw₀)
  have hbytes : (x.served file).logBytes = file.getD [] ++ encodeAll rs := by
    simp only [Storage.logBytes, served, hw', Option.map_some, Option.getD_some]
    exact hwrote.live_bytes (hlive ⟨rfl, rfl⟩)
  obtain ⟨t, ht, hcut, -⟩ := (x.kill file).bytes_eq
  refine ⟨rs ++ (x.kill file).records, t, ?_, ?_, hcut, ?_⟩
  · rw [run, hbytes, ht, encodeAll_append]
    simp only [List.append_assoc]
  · intro r hr
    rcases List.mem_append.1 hr with hr | hr
    · exact hrs r hr
    · refine kill_ok ?_ (hs.disk.trans hd) hx r hr
      rw [served, hs.map]
      exact hkeys.applyAll hrs
  · have hrun := (Storage.Plain.run x.calls ⟨hd, hcap, fun w hw₁ => ?_, hmap⟩).map
    · rw [hs.map, hmap] at hrun
      rw [applyAll_append, hrun, writes]
      simp only [applyAll_append]
    · rw [← Option.some.inj (hw.symm.trans hw₁)]
      exact ⟨rfl, rfl⟩

/-- A session on a log that ends with a complete record, or one that adds nothing to the log,
keeps it durable. -/
theorem run_durable (h : Durable file ws) (hx : x.Ok)
    (hw : Whole file ∨ x.run file = file.getD []) :
    Durable (some (x.run file)) (ws ++ x.writes file) := by
  obtain ⟨rs', t', hrun, hok', hcut', he'⟩ := run_spec h hx
  have hrec := h.records
  obtain ⟨rs, t, hf, hok, hcut, he⟩ := h
  rcases hw with ⟨rs₀, hok₀, hf₀⟩ | hsame
  · rw [hf₀, records_encodeAll hok₀] at hrec
    refine ⟨rs₀ ++ rs', t', ?_, ?_, hcut', ?_⟩
    · rw [Option.getD_some, hrun, hf₀, encodeAll_append]
    · intro r hr
      rcases List.mem_append.1 hr with hr | hr
      · exact hok₀ r hr
      · exact hok' r hr
    · rw [applyAll_append, hrec, he']
  · -- nothing was appended, so no record was logged
    have hnil : encodeAll rs' = [] := by
      rw [hrun, List.append_assoc, List.append_right_eq_self, List.append_eq_nil_iff] at hsame
      exact hsame.1
    have hrs' : rs' = [] := by
      have := length_le_encodeAll rs'
      rw [hnil] at this
      exact List.eq_nil_of_length_eq_zero (Nat.le_zero.1 this)
    refine ⟨rs, t, ?_, hok, hcut, ?_⟩
    · rw [Option.getD_some, hsame, hf]
    · rw [← he', hrs', he]
      rfl

/-- No session appends behind a torn record. -/
def Careful : Option Bytes → List Session → Prop
  | _, [] => True
  | file, x :: xs => (Whole file ∨ x.run file = file.getD []) ∧ Careful (some (x.run file)) xs

theorem foldl_durable : ∀ (xs : List Session) {file : Option Bytes} {ws : List Mutation},
    Durable file ws → (∀ x ∈ xs, x.Ok) → Careful file xs →
    let st := xs.foldl (fun (file, ws) x => (some (x.run file), ws ++ x.writes file)) (file, ws)
    Durable st.1 st.2
  | [], _, _, h, _, _ => h
  | x :: xs, file, ws, h, hok, hc => by
    exact foldl_durable xs (run_durable h (hok x List.mem_cons_self) hc.1)
      (fun x' h' => hok x' (List.mem_cons_of_mem x h')) hc.2

end Session

/-- If no session appends behind a torn record, the next session starts from the effect of all the
writes acknowledged so far, and of those whose record was completed before a kill. -/
theorem sessions_durable (xs : List Session) (fault : Option (ℕ × ℕ)) (hok : ∀ x ∈ xs, x.Ok)
    (hc : Session.Careful none xs) :
    (Storage.openLog 0 (Session.after xs).1 fault).toMap = applyAll ∅ (Session.after xs).2 := by
  have h : Durable none [] := ⟨[], [], rfl, by simp, isCut_nil, rfl⟩
  have hd := Session.foldl_durable xs h hok hc
  rw [Storage.toMap, (Storage.openLog_eq 0 _ fault).1, Storage.openLog_fits (.inl rfl)]
  exact hd.records

/-- A session that ends cleanly, one killed in its last write, and one that only reads. -/
theorem sessions_durable_three : (Storage.openLog 0 (Session.after
      [⟨[.set [97] [49]], none⟩, ⟨[.set [98] [50]], some (.del [97], 5)⟩, ⟨[.get [97]], none⟩]).1
      none).toMap
    = applyAll ∅ (Session.after
      [⟨[.set [97] [49]], none⟩, ⟨[.set [98] [50]], some (.del [97], 5)⟩,
        ⟨[.get [97]], none⟩]).2 := by
  refine sessions_durable _ none (by decide) ⟨.inl ⟨[], by simp, rfl⟩, .inl ?_, .inr (by decide),
    trivial⟩
  exact ⟨[.set [97] [49]], by decide, by decide⟩

/-- A session killed in its first write, and one that acknowledges a write behind the torn record:
the write is not there when the log is opened again. -/
theorem acknowledged_write_lost :
    let xs : List Session := [⟨[], some (.set [97] [49], 5)⟩, ⟨[.set [98] [50]], none⟩]
    (∀ x ∈ xs, x.Ok) ∧ (Session.after xs).2 = [.set [98] [50]]
      ∧ (Storage.openLog 0 (Session.after xs).1 none).toMap ≠ applyAll ∅ (Session.after xs).2 := by
  refine ⟨by decide, by decide, fun he => ?_⟩
  have := congrArg (Finmap.lookup [98]) he
  revert this
  decide

end Durable

section Attempted

namespace AppendSession

variable {x : AppendSession} {file : Bytes} {rs : List Mutation}

def bytes (x : AppendSession) : Bytes := encodeAll x.appends ++ x.kill.bytes

theorem foldl_append : ∀ (rs : List Mutation) {w : Wal}, w.Live →
    (rs.foldl (fun w r => (w.append r).2) w).out.bytes = w.out.bytes ++ encodeAll rs
  | [], w, _ => by simp [encodeAll]
  | r :: rs, w, h => by
    obtain ⟨hr, hl⟩ := Wal.append_live (r := r) h
    rw [List.foldl_cons, foldl_append rs hl, (Wal.append_wrote hr).live_bytes hl, encodeAll_cons]
    simp [encodeAll]

theorem run_eq (x : AppendSession) (file : Bytes) : x.run file = file ++ x.bytes := by
  rw [run, foldl_append _ ⟨rfl, rfl⟩, bytes, List.append_assoc]
  rfl

theorem foldl_run : ∀ (xs : List AppendSession) (file : Bytes),
    xs.foldl (fun file x => x.run file) file = file ++ (xs.map bytes).flatten
  | [], file => by simp
  | x :: xs, file => by
    rw [List.foldl_cons, foldl_run xs, run_eq]
    simp

/-- The first torn record is cut inside its header, or nothing is appended behind it. -/
def Guarded : List AppendSession → Prop
  | [] => True
  | x :: xs =>
    if x.kill.torn then x.kill.inHeader ∨ ∀ y ∈ xs, y.bytes = []
    else Guarded xs

/-- Bytes that are none or start with the letter of an operation. -/
def StartsOp (b : Bytes) : Prop := ∀ c ∈ b.head?, IsOp c

theorem StartsOp.append {a b : Bytes} (ha : StartsOp a) (hb : StartsOp b) : StartsOp (a ++ b) := by
  rcases a with _ | ⟨c, a⟩
  · exact hb
  · exact ha

theorem startsOp_encode (r : Mutation) : StartsOp r.encode := by
  intro c hc
  cases r with
  | set k v =>
    obtain rfl : 83 = c := by simpa [encode, header, ascii] using hc
    exact .inl rfl
  | del k =>
    obtain rfl : 68 = c := by simpa [encode, header, ascii] using hc
    exact .inr rfl

theorem startsOp_flatten : ∀ {bs : List Bytes}, (∀ b ∈ bs, StartsOp b) → StartsOp bs.flatten
  | [], _ => fun _ h => by simp at h
  | b :: _, h => (h b List.mem_cons_self).append
      (startsOp_flatten fun b' h' => h b' (List.mem_cons_of_mem b h'))

theorem startsOp_bytes (x : AppendSession) : StartsOp x.bytes := by
  refine StartsOp.append (startsOp_flatten fun b hb => ?_) ?_
  · obtain ⟨r, -, rfl⟩ := List.mem_map.1 hb
    exact startsOp_encode r
  · intro c hc
    rcases hk : x.kill with _ | ⟨r, n⟩ <;> rw [hk] at hc
    · cases hc
    · refine startsOp_encode r c ?_
      obtain ⟨q, hq⟩ := List.take_prefix n r.encode
      have hc' : (r.encode.take n).head? = some c := hc
      rw [← hq, List.head?_append, hc']
      rfl

/-- What a torn record leaves is unreadable, and stays so behind a header cut short. -/
theorem readRecord_torn {k : Kill} (hk : k.torn = true) {q : Bytes}
    (hq : k.inHeader = true ∧ StartsOp q ∨ q = []) (p : ℕ) :
    Wal.readRecord ⟨k.bytes ++ q, p, false, false⟩ = none := by
  rcases k with _ | ⟨r, n⟩
  · cases hk
  simp only [Kill.torn, Bool.and_eq_true, decide_eq_true_eq] at hk
  have hcut : Wal.readRecord ⟨r.encode.take n, p, false, false⟩ = none := by
    refine readRecord_cut (List.take_prefix n r.encode) fun he => ?_
    have := congrArg List.length he
    rw [List.length_take] at this
    omega
  rcases q with _ | ⟨c, q⟩
  · rw [List.append_nil]
    exact hcut
  · obtain ⟨hh, hop⟩ := hq.resolve_right (by simp)
    simp only [Kill.inHeader, Bool.and_eq_true, decide_eq_true_eq] at hh
    have hbytes : Kill.bytes (some (r, n)) = r.header.take n := by
      rw [Kill.bytes, encode, List.take_append_of_le_length (by omega)]
    have hlen : (r.header.take n).length = n := List.length_take_of_le (by omega)
    rw [hbytes]
    refine readRecord_torn_header (List.take_prefix n _) (fun he => ?_) (fun he => ?_)
      (hop c rfl)
    · rw [he] at hlen
      omega
    · rw [he, List.length_nil] at hlen
      omega

/-- Replay reads none but the records written, if what follows them is unreadable. -/
theorem mem_of_mem_recordsFrom : ∀ {rs : List Mutation} {fuel p : ℕ} {t : Bytes},
    (∀ p, Wal.readRecord ⟨t, p, false, false⟩ = none) →
    ∀ r ∈ Wal.recordsFrom fuel ⟨encodeAll rs ++ t, p, false, false⟩, r ∈ rs
  | _, 0, _, _, _, r, hr => by cases hr
  | [], fuel + 1, p, t, ht, r, hr => by
    rw [encodeAll, List.map_nil, List.flatten_nil, List.nil_append, recordsFrom_none (ht p)] at hr
    cases hr
  | r' :: rs, fuel + 1, p, t, ht, r, hr => by
    rw [encodeAll_cons, List.append_assoc] at hr
    have hread := readRecord_encode_eq (p := p) (q := encodeAll rs ++ t) r'
    split_ifs at hread with hok
    · rw [recordsFrom_some hread] at hr
      rcases List.mem_cons.1 hr with rfl | hr
      · exact List.mem_cons_self
      · exact List.mem_cons_of_mem r' (mem_of_mem_recordsFrom ht r hr)
    · rw [recordsFrom_none hread] at hr
      cases hr

theorem records_attempted : ∀ (xs : List AppendSession) (rs : List Mutation), Guarded xs →
    ∀ r ∈ Wal.records (encodeAll rs ++ (xs.map bytes).flatten), r ∈ rs ++ xs.flatMap attempted
  | [], rs, _, r, hr => by
    simp only [List.map_nil, List.flatten_nil] at hr
    have := mem_of_mem_recordsFrom (fun p => readRecord_cut (List.nil_prefix)
      (encode_ne_nil (.del [])).symm) r hr
    simpa using this
  | x :: xs, rs, hg, r, hr => by
    have hk := x.kill.bytes_eq
    rw [List.map_cons, List.flatten_cons, bytes, List.append_assoc, ← List.append_assoc,
      ← encodeAll_append] at hr
    unfold Guarded at hg
    split_ifs at hg with ht
    · -- the log is never read past this session's torn record
      have hq : x.kill.inHeader = true ∧ StartsOp (xs.map bytes).flatten
          ∨ (xs.map bytes).flatten = [] := by
        rcases hg with hg | hg
        · refine .inl ⟨hg, startsOp_flatten fun b hb => ?_⟩
          obtain ⟨y, -, rfl⟩ := List.mem_map.1 hb
          exact y.startsOp_bytes
        · exact .inr (by simpa using hg)
      have := mem_of_mem_recordsFrom (fun p => readRecord_torn ht hq p) r hr
      simp only [List.flatMap_cons, attempted, List.mem_append] at this ⊢
      tauto
    · obtain ⟨t, hb, -, hnil⟩ := hk
      rw [hb, hnil (by simpa using ht), List.append_nil, ← List.append_assoc,
        ← encodeAll_append] at hr
      have hsub : ∀ r ∈ x.kill.records, r ∈ (x.kill.map Prod.fst).toList := by
        intro r hr
        obtain ⟨n, he⟩ := Kill.records_eq hr
        rw [he]
        simp
      have := records_attempted xs _ hg r hr
      simp only [List.flatMap_cons, attempted, List.mem_append] at this ⊢
      have := hsub r
      tauto

end AppendSession

/-- If the first torn record of the log was cut inside its header, or nothing was appended behind
it, replay passes on only what some session appended or was appending. -/
theorem replay_attempted {σ : Type*} (apply : σ → Mutation → σ) (store : σ)
    (xs : List AppendSession) (hg : AppendSession.Guarded xs) :
    ∃ rs : List Mutation, Wal.replayBytes apply (AppendSession.log xs) store
        = (rs.foldl apply store, rs.length)
      ∧ ∀ r ∈ rs, r ∈ xs.flatMap AppendSession.attempted := by
  refine ⟨_, Wal.replayBytes_eq apply _ store, fun r hr => ?_⟩
  rw [AppendSession.log, AppendSession.foldl_run] at hr
  simpa using AppendSession.records_attempted xs [] hg r hr

/-- A record cut after `SET 1` and one appended behind it. -/
theorem replay_attempted_two :
    ∃ rs, Wal.replayBytes apply (AppendSession.log
        [⟨[], some (.set [97] [49], 5)⟩, ⟨[.set [98] [50]], none⟩]) ∅
        = (applyAll ∅ rs, rs.length)
      ∧ ∀ r ∈ rs, r ∈ [.set [97] [49], .set [98] [50]] :=
  replay_attempted apply ∅ [⟨[], some (.set [97] [49], 5)⟩, ⟨[.set [98] [50]], none⟩]
    (.inl (by decide))

/-- A record cut inside its data takes the record appended behind it for the rest of its value. -/
theorem replay_fabricates :
    let xs : List AppendSession := [⟨[], some (.set [107] (ascii "0123456789"), 10)⟩,
      ⟨[.set [98] [50]], none⟩]
    Wal.replayBytes (fun l r => l ++ [r]) (AppendSession.log xs) []
        = ([.set [107] (ascii "SET 1 1 b2")], 1)
      ∧ .set [107] (ascii "SET 1 1 b2") ∉ xs.flatMap AppendSession.attempted := by
  decide

end Attempted

end Redon
