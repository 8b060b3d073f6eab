import Redon.Compaction
import Redon.Proofs.Recovery

/-!
# Compaction and recovery on any file

A store is faithful when its index points at what the file's complete records leave
(`Faithful`). Compacting such a store keeps every value, and the index it adopts is the one a scan
of the new file makes (`scan_live`). The estimate of the live bytes is never less than half of a
compacted file (`encodeAll_le_liveBytes`), so opening a file a second time finds nothing to do
(`ofFile_idempotent`). A compaction that is killed leaves the old file or the whole new one
(`Compaction.Inv`), so what is opened next has the same map (`compact_atomic`).
-/

namespace Redon

open Lib Lib.IStream Mutation

namespace DiskStore

variable {d : DiskStore} {bytes b : Bytes} {index : Index} {m : Map} {fs : FsCalls}
  {order : IterOrder} {ws : List Bytes} {rs : List Mutation}

section Estimate

theorem length_encode_set (k v : Bytes) :
    (Mutation.set k v).encode.length ≤ 2 * (k.length + v.length + 24) := by
  have hk := length_decimal_le k.length
  have hv := length_decimal_le v.length
  have hset : (ascii "SET ").length = 4 := rfl
  have hspace : (ascii " ").length = 1 := rfl
  have hnl : (ascii "\n").length = 1 := rfl
  simp only [encode, header, body, List.length_append, hset, hspace, hnl]
  omega

theorem liveBytes_insert {k : Bytes} (h : k ∉ index) (e : Entry) :
    liveBytes (index.insert k e) = k.length + e.valueLen + 24 + liveBytes index := by
  rw [liveBytes, AList.entries_insert_of_notMem h, List.map_cons, List.sum_cons]
  rfl

/-- Every record that compaction writes takes at most twice its share of the estimate. -/
theorem encodeAll_le_liveBytes (bytes : Bytes) : ∀ (kvs : List (Σ _ : Bytes, Entry)) (p : ℕ)
    (index : Index),
    (kvs.map Sigma.fst).Nodup → (∀ kv ∈ kvs, kv.1 ∉ index) →
    2 * liveBytes index + (encodeAll (kvs.map (liveRecord bytes))).length
      ≤ 2 * liveBytes (scanIndex p index ((kvs.map (liveRecord bytes)).map encode)
          (kvs.map (liveRecord bytes)))
  | [], _, _, _, _ => le_rfl
  | ⟨k, e⟩ :: kvs, p, index, hnd, hfresh => by
    obtain ⟨hk, hnd⟩ := List.nodup_cons.1 hnd
    obtain ⟨v, hv⟩ : ∃ v, liveRecord bytes ⟨k, e⟩ = .set k v := ⟨_, rfl⟩
    have hnew : k ∉ index := hfresh ⟨k, e⟩ List.mem_cons_self
    simp only [List.map_cons, hv, encodeAll_cons, scanIndex, Scanned.ofRecord, Scanned.applyTo,
      List.length_append]
    have hfresh' : ∀ e', ∀ kv ∈ kvs, kv.1 ∉ index.insert k e' := by
      intro e' kv hkv hmem
      rcases (AList.mem_insert _).1 hmem with he | hmem
      · exact hk (List.mem_map.2 ⟨kv, hkv, he⟩)
      · exact hfresh kv (List.mem_cons_of_mem _ hkv) hmem
    have hrest := encodeAll_le_liveBytes bytes kvs (p + (Mutation.set k v).encode.length) _ hnd
      (hfresh' ⟨p + (Mutation.set k v).encode.length - 1 - v.length, v.length⟩)
    have hrec := length_encode_set k v
    simp only [liveBytes_insert hnew] at hrest
    omega

end Estimate

section Faithful

/-- The store is open, and its index points at the values that the file's complete records
leave. -/
structure Faithful (d : DiskStore) : Prop where
  ok : d.ok = true
  points : Points d.file.bytes d.index (applyAll ∅ (Wal.records d.file.bytes))

theorem Faithful.toMap (h : d.Faithful) : d.toMap = applyAll ∅ (Wal.records d.file.bytes) :=
  h.points.toMap

theorem Faithful.get (h : d.Faithful) (k : Bytes) : d.get k = d.toMap.lookup k := by
  rw [DiskStore.get, if_pos h.ok, lookup_toMap]
  rfl

theorem mapOk_records (bytes : Bytes) : MapOk (applyAll ∅ (Wal.records bytes)) := by
  obtain ⟨ws, rs, t, rfl, hws, hrs, ht⟩ := exists_chunks bytes.length bytes le_rfl
  rw [records_chunks hws ht]
  exact mapOk_empty.applyAll hrs

/-- Opening any file gives the map of its complete records, whatever calls fail after it. -/
theorem ofFile_toMap (ho : fs.opened = true) (order : IterOrder) (bytes : Bytes)
    (fault : Option (ℕ × ℕ)) :
    (ofFile fs order bytes fault).toMap = applyAll ∅ (Wal.records bytes) := by
  obtain ⟨ws, rs, t, rfl, hws, -, ht⟩ := exists_chunks bytes.length bytes le_rfl
  rw [records_chunks hws ht]
  exact (ofFile_points hws ht ho order fault).toMap

/-- A scan of the compacted file reads all of it and makes the index that compaction adopts. -/
theorem scan_live (h : Points bytes index m) (hm : MapOk m) (order : IterOrder) :
    scan (encodeAll ((order.arrange index.entries).map (liveRecord bytes)))
      = (liveIndex bytes (order.arrange index.entries),
          (encodeAll ((order.arrange index.entries).map (liveRecord bytes))).length) :=
  scan_flatten (forall₂_chunk_encode (live_ok h hm order))

theorem records_live (h : Points bytes index m) (hm : MapOk m) (order : IterOrder) :
    applyAll ∅ (Wal.records (encodeAll ((order.arrange index.entries).map (liveRecord bytes))))
      = m := by
  rw [records_encodeAll (live_ok h hm order), applyAll_live h order]

theorem Faithful.compact_toMap (h : d.Faithful) (fs : FsCalls) (order : IterOrder) :
    (d.compact fs order).toMap = d.toMap :=
  (compact_spec h.points fs order).1.toMap.trans h.toMap.symm

theorem Faithful.compact (h : d.Faithful) (order : IterOrder)
    (hok : (d.compact fs order).ok = true) : (d.compact fs order).Faithful := by
  refine ⟨hok, ?_⟩
  obtain ⟨hp, ⟨hb, -⟩ | hb⟩ := compact_spec h.points fs order
  · rw [hb] at hp ⊢
    exact hp
  · rw [hb] at hp ⊢
    rw [records_live h.points (mapOk_records _) order]
    exact hp

/-- The store that recovery makes of a file, before it is compacted. -/
theorem scanned_faithful {t : Bytes} (hws : List.Forall₂ Chunk ws rs) (ht : Unread t)
    (hb : b = ws.flatten ∨ b = ws.flatten ++ t) (fault : Option (ℕ × ℕ)) :
    Faithful ⟨⟨b, fault, []⟩, scanIndex 0 ∅ ws rs, true⟩ := by
  refine ⟨rfl, ?_⟩
  rcases hb with rfl | rfl
  · have hrec := records_chunks hws (unread_cut isCut_nil)
    rw [List.append_nil] at hrec
    simp only [hrec]
    exact scanIndex_points hws
  · simp only [records_chunks hws ht]
    exact (scanIndex_points hws).append t

/-- A store that opens is faithful, whatever other calls fail. -/
theorem ofFile_faithful {fault : Option (ℕ × ℕ)} (hok : (ofFile fs order bytes fault).ok = true) :
    (ofFile fs order bytes fault).Faithful := by
  have ho : fs.opened = true := by
    by_contra ho
    simp [ofFile, ho] at hok
  obtain ⟨ws, rs, t, rfl, hws, -, ht⟩ := exists_chunks bytes.length bytes le_rfl
  obtain ⟨c, hc, ⟨-, hd⟩ | hd⟩ := ofFile_cases hws ht ho order fault
  · rw [hd] at hok
    cases hok
  have hscanned := scanned_faithful hws ht (hc.imp id And.left) fault
  rw [hd] at hok ⊢
  unfold compactIfWasteful at hok ⊢
  split_ifs at hok ⊢
  · exact hscanned.compact order hok
  · exact hscanned

/-- The compacted file is not wasteful. -/
theorem live_thrifty (bytes : Bytes) (index : Index) (order : IterOrder) :
    (encodeAll ((order.arrange index.entries).map (liveRecord bytes))).length
      ≤ 2 * liveBytes (liveIndex bytes (order.arrange index.entries)) := by
  have hnd : ((order.arrange index.entries).map Sigma.fst).Nodup :=
    ((order.perm _).map Sigma.fst).nodup_iff.2 index.keys_nodup
  have hle := encodeAll_le_liveBytes bytes (order.arrange index.entries) 0 ∅ hnd
    fun _ _ => AList.notMem_empty _
  rw [liveIndex]
  omega

end Faithful

section Reopen

/-- A file that is read to its end and not wasteful is opened as it is. -/
theorem ofFile_of_scan (hscan : scan b = (index, b.length))
    (hb : b.length ≤ 2 * liveBytes index + 4096) (ho : fs.opened = true) (order : IterOrder)
    (fault : Option (ℕ × ℕ)) :
    ofFile fs order b fault = ⟨⟨b, fault, []⟩, index, true⟩ := by
  unfold ofFile
  simp only [ho, if_true, recover]
  rw [show recoverLoop b.length (ofBytes b) ∅ 0 = _ from hscan]
  simp only [lt_irrefl, if_false, compactIfWasteful]
  rw [if_neg fun h => absurd h.2 (Nat.not_lt.2 hb)]

/-- What opening a file leaves is read to its end, makes the store's index, and is not wasteful. -/
theorem ofFile_settled (order : IterOrder) (bytes : Bytes) (fault : Option (ℕ × ℕ)) :
    (ofFile .allOk order bytes fault).ok = true
    ∧ scan (ofFile .allOk order bytes fault).file.bytes
      = ((ofFile .allOk order bytes fault).index,
          (ofFile .allOk order bytes fault).file.bytes.length)
    ∧ (ofFile .allOk order bytes fault).file.bytes.length
      ≤ 2 * liveBytes (ofFile .allOk order bytes fault).index + 4096 := by
  obtain ⟨ws, rs, t, rfl, hws, hrs, ht⟩ := exists_chunks bytes.length bytes le_rfl
  obtain ⟨c, hc, ⟨hre, -⟩ | hd⟩ := ofFile_cases hws ht (rfl : FsCalls.allOk.opened = true) order
    fault
  · cases hre
  obtain rfl : c = ws.flatten := hc.elim id nofun
  have hp := scanIndex_points hws
  rw [hd, compactIfWasteful]
  split_ifs with hw
  · have hm : MapOk (applyAll ∅ rs) := mapOk_empty.applyAll hrs
    simp only [compact, FsCalls.allOk, Bool.and_self, if_true, compactLoop_live hp order]
    have hthrift := live_thrifty ws.flatten (scanIndex 0 ∅ ws rs) order
    exact ⟨trivial, scan_live hp hm order, Nat.le_add_right_of_le hthrift⟩
  · refine ⟨rfl, scan_flatten hws, ?_⟩
    change ws.flatten.length ≤ 2 * liveBytes (scanIndex 0 ∅ ws rs) + 4096
    by_contra hlt
    exact hw ⟨by omega, Nat.not_le.1 hlt⟩

end Reopen

/-- Opening is idempotent on any file: what it leaves is read to its end and is opened again as it
is, whatever the calls that cut or compact would do, and the map is the one that the complete
records `rs` at the file's start make. -/
theorem ofFile_idempotent (order order' : IterOrder) (bytes : Bytes)
    (fault fault' : Option (ℕ × ℕ)) :
    let d := ofFile .allOk order bytes fault
    let b := d.file.bytes
    d.ok = true ∧ (scan b).2 = b.length
    ∧ b.length ≤ 2 * liveBytes (scan b).1 + 4096
    ∧ (∀ fs, fs.opened = true → ofFile fs order' b fault' = ⟨⟨b, fault', []⟩, d.index, true⟩)
    ∧ (ofFile .allOk order' b fault').toMap = d.toMap
    ∧ ∃ ws rs t, bytes = ws.flatten ++ t ∧ List.Forall₂ Chunk ws rs ∧ Unread t
      ∧ d.toMap = applyAll ∅ rs := by
  intro d b
  obtain ⟨hok, hscan, hthrift⟩ := ofFile_settled order bytes fault
  have hopen : ∀ fs, fs.opened = true →
      ofFile fs order' b fault' = ⟨⟨b, fault', []⟩, d.index, true⟩ := fun fs ho =>
    ofFile_of_scan hscan hthrift ho order' fault'
  refine ⟨hok, congrArg Prod.snd hscan, ?_, hopen, ?_, ?_⟩
  · rw [show (scan b).1 = d.index from congrArg Prod.fst hscan]
    exact hthrift
  · rw [hopen .allOk rfl]
    rfl
  · obtain ⟨ws, rs, t, rfl, hws, -, ht⟩ := exists_chunks bytes.length bytes le_rfl
    exact ⟨ws, rs, t, rfl, hws, ht, (ofFile_points hws ht rfl order fault).toMap⟩

/-- A file with a stray byte at its end, which the first opening cuts off. -/
theorem ofFile_idempotent_stray :
    let d := ofFile .allOk ⟨id, .refl⟩ (ascii "SET 1 1 a1\nx") none
    d.file.bytes = ascii "SET 1 1 a1\n"
    ∧ ofFile { FsCalls.allOk with reopened := false, compactReopened := false } ⟨id, .refl⟩
        d.file.bytes none = ⟨⟨d.file.bytes, none, []⟩, d.index, true⟩ :=
  ⟨by decide, (ofFile_idempotent ⟨id, .refl⟩ ⟨id, .refl⟩ (ascii "SET 1 1 a1\nx") none none).2.2.2.1
    _ rfl⟩

namespace Compaction

variable {s s' : Compaction}

/-- The copy of the live records, made in one go. -/
def copied (d : DiskStore) (order : IterOrder) : Option (Bytes × Index) :=
  compactLoop d.file.bytes (order.arrange d.index.entries) [] ∅

/-- What holds of a compaction of `d` at each point. While it copies, the rest of the loop would
complete the copy. -/
def Inv (d : DiskStore) (order : IterOrder) (s : Compaction) : Prop :=
  match s.phase with
  | .opening => s.store d.file = d ∧ s.todo = order.arrange d.index.entries
    ∧ s.newIndex = ∅ ∧ s.buffer = []
  | .copying => s.store d.file = d ∧ (s.good = true → ∃ t, s.tmp = some t
    ∧ compactLoop d.file.bytes s.todo (t ++ s.buffer) s.newIndex = copied d order)
  | .renaming => s.store d.file = d ∧ ∃ t, s.tmp = some t
    ∧ copied d order = some (t, s.newIndex)
  | .removing closed => s.store d.file = d ∧ (closed = true → (copied d order).isSome)
  | .reopening => (s.store d.file = d ∧ (copied d order).isSome)
    ∨ copied d order = some (s.data, s.index)
  | .done => ∃ fs, s.store d.file = d.compact fs order

theorem inv_start (d : DiskStore) (order : IterOrder) (tmp : Option Bytes) :
    Inv d order (start d order tmp) := ⟨rfl, rfl, rfl, rfl⟩

section Step

@[simp] theorem put_phase (s : Compaction) (k v : Bytes) : (s.put k v).phase = s.phase := by
  unfold put
  split_ifs <;> rfl

@[simp] theorem put_good (s : Compaction) (k v : Bytes) : (s.put k v).good = s.good := by
  unfold put
  split_ifs <;> rfl

@[simp] theorem put_tmp (s : Compaction) (k v : Bytes) : (s.put k v).tmp = s.tmp := by
  unfold put
  split_ifs <;> rfl

@[simp] theorem put_store (s : Compaction) (k v : Bytes) (file : AppendFile) :
    (s.put k v).store file = s.store file := by
  unfold put
  split_ifs <;> rfl

@[simp] theorem put_failed (s : Compaction) (k v : Bytes) : (s.put k v).failed = s.failed := by
  unfold put
  split_ifs <;> rfl

theorem compact_of_copied {t : Bytes} {i : Index} (h : copied d order = some (t, i))
    (fs : FsCalls) : d.compact fs order = if fs.tmpOpened && fs.copied then
      if fs.renamed then ⟨{ d.file with bytes := t }, i, fs.compactReopened⟩
      else { d with ok := fs.compactReopened }
    else d := by
  unfold compact
  rw [show compactLoop d.file.bytes (order.arrange d.index.entries) [] ∅ = _ from h]

/-- One turn of the copy. -/
theorem Inv.copy {key value : Bytes} {e : Entry} {todo : List (Σ _ : Bytes, Entry)}
    (h : Inv d order s) (hp : s.phase = .copying) (htodo : s.todo = ⟨key, e⟩ :: todo)
    (hread : readAt s.data e = some value) :
    Inv d order { s.put key value with todo := todo } := by
  simp only [Inv, hp] at h
  simp only [Inv, put_phase, hp]
  obtain ⟨hst, hloop⟩ := h
  refine ⟨(put_store s key value _).trans hst, fun hg => ?_⟩
  rw [put_good] at hg
  obtain ⟨t, ht, hl⟩ := hloop hg
  have hdata : s.data = d.file.bytes := congrArg (fun d => d.file.bytes) hst
  rw [htodo, compactLoop, ← hdata, hread] at hl
  refine ⟨t, (put_tmp s key value).trans ht, ?_⟩
  simp only [put, hg, if_true, ht, Option.getD_some, ← List.append_assoc, ← hl, ← hdata,
    List.length_append]

theorem Inv.write {n : ℕ} {written : Bool} (h : Inv d order s) (hp : s.phase = .copying)
    (hg : s.good = true) : Inv d order { s.drain n with good := written } := by
  simp only [Inv, hp] at h
  obtain ⟨hst, hloop⟩ := h
  obtain ⟨t, ht, hl⟩ := hloop hg
  simp only [Inv, drain, hp]
  refine ⟨hst, fun _ => ⟨t ++ s.buffer.take n, by rw [ht]; rfl, ?_⟩⟩
  rw [List.append_assoc, List.take_append_drop]
  exact hl

/-- The last write: what is left in the buffer. -/
theorem Inv.flush (h : Inv d order s) (hp : s.phase = .copying) (htodo : s.todo = [])
    (hg : s.good = true) : Inv d order { s.drain s.buffer.length with phase := .renaming } := by
  simp only [Inv, hp] at h
  obtain ⟨hst, hloop⟩ := h
  obtain ⟨t, ht, hl⟩ := hloop hg
  rw [htodo, compactLoop] at hl
  refine ⟨hst, t ++ s.buffer, ?_, hl.symm⟩
  simp only [drain, ht, Option.map_some, List.take_length]

theorem Inv.reopen (h : Inv d order s) (hp : s.phase = .reopening) (reopened : Bool) :
    Inv d order { s with ok := reopened, phase := .done } := by
  simp only [Inv, hp] at h
  rcases h with ⟨hst, hsome⟩ | hcop
  · obtain ⟨⟨t, i⟩, hcop⟩ := Option.isSome_iff_exists.1 hsome
    refine ⟨{ FsCalls.allOk with renamed := false, compactReopened := reopened }, ?_⟩
    rw [compact_of_copied hcop]
    exact congrArg (fun d => { d with ok := reopened }) hst
  · refine ⟨{ FsCalls.allOk with compactReopened := reopened }, ?_⟩
    rw [compact_of_copied hcop]
    rfl

theorem Inv.step {a : Action} (h : Inv d order s) (hs : s.step a = some s') :
    Inv d order s' := by
  cases a with
  | openTmp opened =>
    obtain ⟨hp, hs⟩ := Option.ite_none_right_eq_some.1 hs
    obtain rfl := Option.some.inj hs
    simp only [Inv, hp] at h
    obtain ⟨hst, htodo, hnew, hbuf⟩ := h
    cases opened with
    | true =>
      refine ⟨hst, fun _ => ⟨[], rfl, ?_⟩⟩
      simp only [if_true, htodo, hnew, hbuf]
      rfl
    | false => exact ⟨{ FsCalls.allOk with tmpOpened := false }, hst⟩
  | copy readable =>
    rcases htodo : s.todo with _ | ⟨⟨key, e⟩, todo⟩ <;> simp only [Compaction.step, htodo] at hs
    · cases hs
    obtain ⟨⟨hp, -⟩, hs⟩ := Option.ite_none_right_eq_some.1 hs
    rcases hread : (if readable then readAt s.data e else none) with _ | value <;> rw [hread] at hs
    · obtain rfl := Option.some.inj hs
      simp only [Inv, hp, htodo] at h ⊢
      exact h
    · obtain rfl := Option.some.inj hs
      exact h.copy hp htodo (Option.ite_none_right_eq_some.1 hread).2
  | write n written =>
    obtain ⟨⟨hp, hg⟩, hs⟩ := Option.ite_none_right_eq_some.1 hs
    obtain rfl := Option.some.inj hs
    exact h.write hp hg
  | flush =>
    obtain ⟨⟨hp, hend⟩, hs⟩ := Option.ite_none_right_eq_some.1 hs
    obtain rfl := Option.some.inj hs
    have hst : s.store d.file = d := by
      simp only [Inv, hp] at h
      exact h.1
    rcases hg : s.good with _ | _
    · simp only [Bool.false_eq_true, if_false, if_true, Inv]
      exact ⟨hst, nofun⟩
    · rcases hf : s.failed with _ | _
      · rw [hf, Bool.or_false, List.isEmpty_iff] at hend
        simp only [if_true, drain, hf, Bool.false_eq_true, if_false]
        exact h.flush hp hend hg
      · simp only [if_true, drain, hf, Inv]
        exact ⟨hst, nofun⟩
  | rename renamed =>
    obtain ⟨hp, hs⟩ := Option.ite_none_right_eq_some.1 hs
    simp only [Inv, hp] at h
    obtain ⟨hst, t, ht, hcop⟩ := h
    rw [ht] at hs
    cases renamed with
    | true =>
      obtain rfl := Option.some.inj hs
      exact .inr hcop
    | false =>
      obtain rfl := Option.some.inj hs
      exact ⟨hst, fun _ => by rw [hcop]; rfl⟩
  | remove removed =>
    rcases hp : s.phase with _ | _ | _ | closed | _ | _ <;> simp only [Compaction.step, hp] at hs
    case removing =>
      obtain rfl := Option.some.inj hs
      simp only [Inv, hp] at h
      cases closed with
      | true => exact .inl ⟨h.1, h.2 rfl⟩
      | false => exact ⟨{ FsCalls.allOk with copied := false }, h.1⟩
    all_goals cases hs
  | reopen reopened =>
    obtain ⟨hp, hs⟩ := Option.ite_none_right_eq_some.1 hs
    obtain rfl := Option.some.inj hs
    exact h.reopen hp reopened

theorem inv_reaches {tmp : Option Bytes} (hr : Reaches step (start d order tmp) s) :
    Inv d order s := hr.inv (Inv d order) (fun _ _ _ h hs => h.step hs) (inv_start d order tmp)

/-- At each point the data file is the old one or the whole copy. -/
theorem Inv.data (h : Inv d order s) :
    s.data = d.file.bytes ∨ ∃ i, copied d order = some (s.data, i) := by
  have hold : s.store d.file = d → s.data = d.file.bytes :=
    fun hst => congrArg (fun d => d.file.bytes) hst
  unfold Inv at h
  split at h
  · exact .inl (hold h.1)
  · exact .inl (hold h.1)
  · exact .inl (hold h.1)
  · exact .inl (hold h.1)
  · exact h.imp (fun h => hold h.1) fun h => ⟨s.index, h⟩
  · obtain ⟨fs, hst⟩ := h
    have hdata : s.data = (d.compact fs order).file.bytes := congrArg (fun d => d.file.bytes) hst
    rw [hdata]
    rcases hcop : copied d order with _ | ⟨t, i⟩
    · refine .inl ?_
      unfold compact
      rw [show compactLoop d.file.bytes (order.arrange d.index.entries) [] ∅ = none from hcop]
      split_ifs <;> rfl
    · rw [compact_of_copied hcop]
      split_ifs
      · exact .inr ⟨i, rfl⟩
      · exact .inl rfl
      · exact .inl rfl

/-- A copy in which every value can be read gets to its end. -/
theorem copy_all : ∀ (kvs : List (Σ _ : Bytes, Entry)) {s : Compaction}, s.todo = kvs →
    s.phase = .copying → s.failed = false → s.good = true →
    (∀ kv ∈ kvs, kv.2.valuePos + kv.2.valueLen ≤ s.data.length) →
    ∃ s', Reaches step s s' ∧ s'.phase = .copying ∧ s'.failed = false ∧ s'.good = true
      ∧ s'.todo = []
  | [], s, htodo, hp, hf, hg, _ => ⟨s, .refl, hp, hf, hg, htodo⟩
  | ⟨k, e⟩ :: kvs, s, htodo, hp, hf, hg, hin => by
    have hread := readAt_inside (hin ⟨k, e⟩ List.mem_cons_self)
    set v := (s.data.drop e.valuePos).take e.valueLen
    have hstep : s.step (.copy true) = some { s.put k v with todo := kvs } := by
      simp only [step, htodo, hp, hf, hread, if_true, and_self]
    have hdata : (s.put k v).data = s.data :=
      congrArg (fun d => d.file.bytes) (put_store s k v ⟨[], none, []⟩)
    obtain ⟨s', hr, hs'⟩ := copy_all kvs (s := { s.put k v with todo := kvs }) rfl
      ((put_phase s k v).trans hp) ((put_failed s k v).trans hf) ((put_good s k v).trans hg)
      fun kv hkv => hdata ▸ hin kv (List.mem_cons_of_mem _ hkv)
    exact ⟨s', .head ⟨_, hstep⟩ hr, hs'⟩

end Step

end Compaction

theorem Faithful.copied (h : d.Faithful) (order : IterOrder) : Compaction.copied d order
    = some (encodeAll ((order.arrange d.index.entries).map (liveRecord d.file.bytes)),
        liveIndex d.file.bytes (order.arrange d.index.entries)) :=
  compactLoop_live h.points order

/-- Every outcome of `compact` is one that a compaction ends with. -/
theorem Faithful.compact_reached (h : d.Faithful) (order : IterOrder) (tmp : Option Bytes)
    (fs : FsCalls) : ∃ s, Reaches Compaction.step (Compaction.start d order tmp) s
      ∧ s.phase = .done ∧ s.store d.file = d.compact fs order := by
  rcases htmp : fs.tmpOpened with _ | _
  · refine ⟨_, .single ⟨.openTmp false, rfl⟩, rfl, ?_⟩
    rw [Compaction.compact_of_copied (h.copied order), htmp]
    rfl
  obtain ⟨s, hrun, hp, hf, hg, htodo⟩ := Compaction.copy_all _
    (s := { Compaction.start d order tmp with tmp := some [], phase := .copying }) rfl rfl rfl rfl
    fun kv hkv => h.points.inside _ _ (mem_arrange order hkv)
  have hr : Reaches Compaction.step (Compaction.start d order tmp) s :=
    .head ⟨.openTmp true, rfl⟩ hrun
  have hinv := Compaction.inv_reaches hr
  simp only [Compaction.Inv, hp] at hinv
  obtain ⟨hst, hloop⟩ := hinv
  obtain ⟨t, ht, hcop⟩ := hloop hg
  rw [htodo, compactLoop] at hcop
  rw [Compaction.compact_of_copied hcop.symm, htmp]
  obtain ⟨data, _, buffer, _, _, _, newIndex, index, ok, _⟩ := s
  subst hp hf hg htodo ht
  rcases fs.copied with _ | _
  · refine ⟨⟨data, none, buffer, false, true, [], newIndex, index, ok, .done⟩, hr.trans ?_, rfl,
      hst⟩
    exact reaches_of_runActs (rfl : runActs _ _ [.write 0 false, .flush, .remove true] = some _)
  rcases fs.renamed with _ | _
  · refine ⟨⟨data, none, buffer.drop buffer.length, true, false, [], newIndex, index,
      fs.compactReopened, .done⟩, hr.trans ?_, rfl, ?_⟩
    · exact reaches_of_runActs (rfl : runActs _ _
        [.flush, .rename false, .remove true, .reopen fs.compactReopened] = some _)
    · exact congrArg (fun d => { d with ok := fs.compactReopened }) hst
  · refine ⟨⟨t ++ buffer.take buffer.length, none, buffer.drop buffer.length, true, false, [],
      newIndex, newIndex, fs.compactReopened, .done⟩, hr.trans ?_, rfl, ?_⟩
    · exact reaches_of_runActs
        (rfl : runActs _ _ [.flush, .rename true, .reopen fs.compactReopened] = some _)
    · rw [List.take_length]
      rfl

/-- Compacting a faithful store changes no `get`, whatever calls of it fail, if the file is open
after it; the index adopted is the one a scan of the new file makes. If it is killed at any point,
the data file opens with the same map; if it ends, it ends as `compact` does. -/
theorem compact_atomic (h : d.Faithful) (order : IterOrder) :
    (∀ fs k, fs.compactReopened = true → (d.compact fs order).get k = d.get k)
    ∧ (∀ fs, (fs.tmpOpened && fs.copied && fs.renamed) = true →
      scan (d.compact fs order).file.bytes
        = ((d.compact fs order).index, (d.compact fs order).file.bytes.length))
    ∧ ∀ tmp s, Reaches Compaction.step (Compaction.start d order tmp) s →
      (∀ order' fault, (ofFile .allOk order' s.data fault).ok = true
        ∧ (ofFile .allOk order' s.data fault).toMap = d.toMap)
      ∧ (s.phase = .done → ∃ fs, s.store d.file = d.compact fs order) := by
  have hm := mapOk_records d.file.bytes
  refine ⟨fun fs k hc => ?_, fun fs hfs => ?_, fun tmp s hr => ⟨fun order' fault => ⟨?_, ?_⟩, ?_⟩⟩
  · rw [(h.compact order (compact_ok h.ok hc order)).get, h.compact_toMap, h.get]
  · rw [Bool.and_eq_true] at hfs
    rw [Compaction.compact_of_copied (h.copied order), if_pos hfs.1, if_pos hfs.2]
    exact scan_live h.points hm order
  · exact (ofFile_settled order' s.data fault).1
  · rw [ofFile_toMap rfl, h.toMap]
    rcases (Compaction.inv_reaches hr).data with hdata | ⟨i, hcop⟩
    · rw [hdata]
    · rw [h.copied order, Option.some.injEq, Prod.mk.injEq] at hcop
      rw [← hcop.1]
      exact records_live h.points hm order
  · intro hdone
    have hinv := Compaction.inv_reaches hr
    simp only [Compaction.Inv, hdone] at hinv
    exact hinv

/-- An overwritten value, and a compaction killed when three bytes of the copy are on disk. -/
theorem compact_atomic_killed :
    let d := ofFile .allOk ⟨id, .refl⟩ (ascii "SET 1 1 a1\nSET 1 1 a2\n") none
    ∃ s, Reaches Compaction.step (Compaction.start d ⟨id, .refl⟩ none) s
      ∧ s.tmp = some (ascii "SET") ∧ (ofFile .allOk ⟨id, .refl⟩ s.data none).toMap = d.toMap := by
  intro d
  obtain ⟨s, hr, ht⟩ := exists_reaches Compaction.step (Compaction.start d ⟨id, .refl⟩ none)
    [.openTmp true, .copy true, .write 3 true] (fun s => s.tmp = some (ascii "SET")) (by decide)
  have hd : d.Faithful := ofFile_faithful (by decide)
  exact ⟨s, hr, ht, (((compact_atomic hd ⟨id, .refl⟩).2.2 none s hr).1 ⟨id, .refl⟩ none).2⟩

end DiskStore

end Redon
