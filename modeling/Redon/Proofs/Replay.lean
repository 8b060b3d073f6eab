import Redon.Proofs.Record

/-!
# Replaying a log

Replay applies the records it reads in order (`replayLoop_eq`), and from records followed by
something it cannot read it reads exactly those (`recordsFrom_takes`). A log cut anywhere ends
in a record cut short (`encodeAll_take`), so replaying it applies the records that end before the
cut (`replay_cut`).
-/

namespace Redon

open Lib Lib.IStream

namespace Wal

/-- The records the replay loop reads, in order. -/
def recordsFrom : ℕ → IStream → List Mutation
  | 0, _ => []
  | fuel + 1, s =>
    match readRecord s with
    | none => []
    | some (r, s) => r :: recordsFrom fuel s

def records (file : Bytes) : List Mutation := recordsFrom file.length (.ofBytes file)

variable {σ : Type*} (apply : σ → Mutation → σ)

theorem replayLoop_eq : ∀ (fuel : ℕ) (s : IStream) (store : σ) (n : ℕ),
    replayLoop apply fuel s store n
      = ((recordsFrom fuel s).foldl apply store, n + (recordsFrom fuel s).length)
  | 0, _, _, _ => rfl
  | fuel + 1, s, store, n => by
    unfold replayLoop recordsFrom
    rcases readRecord s with _ | ⟨r, s'⟩
    · rfl
    · simp only [replayLoop_eq fuel, List.foldl_cons, List.length_cons]
      rw [Nat.add_assoc, Nat.add_comm 1]

theorem replayBytes_eq (file : Bytes) (store : σ) : replayBytes apply file store
    = ((records file).foldl apply store, (records file).length) := by
  unfold replayBytes records
  rw [replayLoop_eq, Nat.zero_add]

end Wal

namespace Mutation

theorem encode_ne_nil (r : Mutation) : r.encode ≠ [] := by
  cases r <;> simp [encode, body, ascii]

theorem encodeAll_cons (r : Mutation) (rs : List Mutation) :
    encodeAll (r :: rs) = r.encode ++ encodeAll rs := rfl

theorem encodeAll_append (rs rs' : List Mutation) :
    encodeAll (rs ++ rs') = encodeAll rs ++ encodeAll rs' := by
  simp [encodeAll]

theorem length_le_encodeAll : ∀ rs : List Mutation, rs.length ≤ (encodeAll rs).length
  | [] => Nat.zero_le _
  | r :: rs => by
    have h1 := length_le_encodeAll rs
    have h2 := List.length_pos_iff.2 r.encode_ne_nil
    rw [encodeAll_cons, List.length_append, List.length_cons]
    omega

/-- What is left of a record cut short. -/
def IsCut (t : Bytes) : Prop := ∃ r : Mutation, t <+: r.encode ∧ t ≠ r.encode

theorem isCut_nil : IsCut [] := ⟨.del [], List.nil_prefix, fun h => encode_ne_nil _ h.symm⟩

/-- The first `n` bytes of a log are its records that end by then and part of the next. -/
theorem encodeAll_take : ∀ (rs : List Mutation) (n : ℕ), ∃ k t,
    k ≤ rs.length ∧ (encodeAll rs).take n = encodeAll (rs.take k) ++ t ∧ IsCut t
      ∧ ∀ i < rs.length, i < k ↔ (encodeAll (rs.take (i + 1))).length ≤ n
  | [], n => ⟨0, [], le_rfl, by simp [encodeAll], isCut_nil, by simp⟩
  | r :: rs, n => by
    by_cases hn : r.encode.length ≤ n
    · obtain ⟨k, t, hk, ht, hcut, hi⟩ := encodeAll_take rs (n - r.encode.length)
      refine ⟨k + 1, t, by simpa using hk, ?_, hcut, ?_⟩
      · rw [List.take_succ_cons, encodeAll_cons, encodeAll_cons, List.take_append, ht,
          List.take_of_length_le hn, List.append_assoc]
      · intro i hlt
        rw [List.take_succ_cons, encodeAll_cons, List.length_append]
        rcases i with _ | i
        · simp [encodeAll, hn]
        · rw [List.length_cons] at hlt
          have := hi i (by omega)
          omega
    · refine ⟨0, r.encode.take n, Nat.zero_le _, ?_, ⟨r, List.take_prefix _ _, ?_⟩, ?_⟩
      · rw [encodeAll_cons, List.take_append_of_le_length (by omega)]
        rfl
      · intro he
        have := congrArg List.length he
        rw [List.length_take] at this
        omega
      · intro i _
        rw [List.take_succ_cons, encodeAll_cons, List.length_append]
        omega

theorem applyAll_append (m : Map) (rs rs' : List Mutation) :
    applyAll m (rs ++ rs') = applyAll (applyAll m rs) rs' := by
  simp [applyAll]

section Lookup

variable {m l : Map} {k : Bytes}

def key : Mutation → Bytes
  | .set k _ => k
  | .del k => k

theorem lookup_apply_of_ne {r : Mutation} (h : r.key ≠ k) : (r.apply m).lookup k = m.lookup k := by
  cases r with
  | set k' v => exact Finmap.lookup_insert_of_ne _ h.symm
  | del k' => exact Finmap.lookup_erase_ne h.symm

theorem lookup_applyAll_of_ne : ∀ {rs : List Mutation} {m : Map}, (∀ r ∈ rs, r.key ≠ k) →
    (applyAll m rs).lookup k = m.lookup k
  | [], _, _ => rfl
  | r :: rs, m, h => by
    have ih := lookup_applyAll_of_ne (m := r.apply m) fun r' h' => h r' (List.mem_cons_of_mem r h')
    exact ih.trans (lookup_apply_of_ne (h r List.mem_cons_self))

theorem lookup_apply_congr (h : m.lookup k = l.lookup k) (r : Mutation) :
    (r.apply m).lookup k = (r.apply l).lookup k := by
  cases r with
  | set k' v =>
    rcases eq_or_ne k k' with rfl | hk
    · simp [apply]
    · simp [apply, Finmap.lookup_insert_of_ne _ hk, h]
  | del k' =>
    rcases eq_or_ne k k' with rfl | hk
    · simp [apply]
    · simp [apply, Finmap.lookup_erase_ne hk, h]

theorem lookup_applyAll_congr : ∀ (rs : List Mutation) {m l : Map}, m.lookup k = l.lookup k →
    (applyAll m rs).lookup k = (applyAll l rs).lookup k
  | [], _, _, h => h
  | r :: rs, _, _, h => lookup_applyAll_congr rs (lookup_apply_congr h r)

/-- What a key holds after it was set does not depend on what it held before. -/
theorem lookup_applyAll_of_set {v : Bytes} : ∀ {rs : List Mutation} {m l : Map}, .set k v ∈ rs →
    (applyAll m rs).lookup k = (applyAll l rs).lookup k
  | r :: rs, m, l, h => by
    rcases List.mem_cons.1 h with rfl | h
    · refine lookup_applyAll_congr rs ?_
      simp [apply]
    · exact lookup_applyAll_of_set (m := r.apply m) (l := r.apply l) h

theorem lookup_applyAll_sets : ∀ {es : List (Bytes × Bytes)} {m : Map}, (es.map Prod.fst).Nodup →
    ∀ k, (applyAll m (es.map fun p => .set p.1 p.2)).lookup k
      = ((mapOf es).lookup k).or (m.lookup k)
  | [], m, _, k => by simp [applyAll]
  | (k', v') :: es, m, h, k => by
    rw [List.map_cons, List.nodup_cons] at h
    rw [List.map_cons, applyAll, List.foldl_cons]
    change (applyAll _ (es.map fun p => .set p.1 p.2)).lookup k = _
    rw [lookup_applyAll_sets h.2 k, mapOf_cons]
    by_cases hk : k = k'
    · subst hk
      have hnone : (mapOf es).lookup k = none := by
        rw [Finmap.lookup_eq_none, mem_mapOf]
        exact h.1
      simp [hnone, apply]
    · simp only [apply, Finmap.lookup_insert_of_ne _ hk]

theorem applyAll_sets {es : List (Bytes × Bytes)} (h : (es.map Prod.fst).Nodup) :
    applyAll ∅ (es.map fun p => .set p.1 p.2) = mapOf es := by
  refine Finmap.ext_lookup fun k => ?_
  rw [lookup_applyAll_sets h, Finmap.lookup_empty, Option.or_none]

end Lookup

/-- Every key and value is one a reader accepts. -/
def MapOk (m : Map) : Prop := ∀ k v, m.lookup k = some v → (Mutation.set k v).Ok

theorem mapOk_empty : MapOk ∅ := fun k v h => by simp at h

theorem MapOk.del_ok {m : Map} {k : Bytes} (h : MapOk m) (hk : k ∈ m) : (Mutation.del k).Ok := by
  obtain ⟨v, hv⟩ := Finmap.mem_iff.1 hk
  exact (h k v hv).1

/-- What holds of the entries of a map and of a change holds of the entries behind it. -/
theorem forall_apply {P : Mutation → Prop} {m : Map} {r : Mutation}
    (h : ∀ k v, m.lookup k = some v → P (.set k v)) (hr : P r) (k v : Bytes)
    (hv : (r.apply m).lookup k = some v) : P (.set k v) := by
  cases r with
  | set k' v' =>
    rcases lookup_insert_iff.1 hv with ⟨rfl, rfl⟩ | ⟨-, hv⟩
    · exact hr
    · exact h k v hv
  | del k' => exact h k v (lookup_erase_iff.1 hv).2

theorem forall_applyAll {P : Mutation → Prop} : ∀ {rs : List Mutation} {m : Map},
    (∀ k v, m.lookup k = some v → P (.set k v)) → (∀ r ∈ rs, P r) →
    ∀ k v, (applyAll m rs).lookup k = some v → P (.set k v)
  | [], _, h, _ => h
  | r :: _, m, h, hr => forall_applyAll (m := r.apply m)
      (forall_apply h (hr r List.mem_cons_self)) fun r' h' => hr r' (List.mem_cons_of_mem r h')

theorem mem_applyAll {rs : List Mutation} {m : Map} {k : Bytes} (h : k ∈ applyAll m rs) :
    k ∈ m ∨ ∃ v, .set k v ∈ rs := by
  obtain ⟨v, hv⟩ := Finmap.mem_iff.1 h
  refine forall_applyAll (P := fun r => ∀ k v, r = .set k v → k ∈ m ∨ ∃ v, .set k v ∈ rs)
    (fun k v hk k' v' he => ?_) (fun r hr k v he => .inr ⟨v, he ▸ hr⟩) k v hv k v rfl
  obtain ⟨rfl, rfl⟩ := Mutation.set.inj he
  exact .inl (Finmap.mem_of_lookup_eq_some hk)

theorem MapOk.applyAll {rs : List Mutation} {m : Map} (h : MapOk m) (hrs : ∀ r ∈ rs, r.Ok) :
    MapOk (applyAll m rs) := forall_applyAll h hrs

end Mutation

open Mutation

namespace Kill

variable {k : Kill}

/-- What a kill leaves: the record if it was completed, or part of it. -/
theorem bytes_eq (k : Kill) : ∃ t, k.bytes = encodeAll k.records ++ t ∧ IsCut t
    ∧ (k.torn = false → t = []) := by
  rcases k with _ | ⟨r, n⟩
  · exact ⟨[], rfl, isCut_nil, fun _ => rfl⟩
  · simp only [bytes, records, torn]
    by_cases hn : r.encode.length ≤ n
    · rw [if_pos hn]
      exact ⟨[], by simp [encodeAll, List.take_of_length_le hn], isCut_nil, fun _ => rfl⟩
    · rw [if_neg hn]
      refine ⟨r.encode.take n, rfl, ⟨r, List.take_prefix _ _, fun he => ?_⟩, fun ht => ?_⟩
      · have := congrArg List.length he
        rw [List.length_take] at this
        omega
      · have hn0 : n = 0 := by
          simp only [Bool.and_eq_false_iff, decide_eq_false_iff_not] at ht
          omega
        rw [hn0, List.take_zero]

theorem records_eq {r : Mutation} (h : r ∈ k.records) : ∃ n, k = some (r, n) := by
  rcases k with _ | ⟨r', n⟩
  · cases h
  · simp only [records] at h
    split_ifs at h
    · rw [List.mem_singleton.1 h]
      exact ⟨n, rfl⟩
    · cases h

end Kill

section Read

variable {p : ℕ}

theorem recordsFrom_some {s s' : IStream} {r : Mutation} (h : Wal.readRecord s = some (r, s'))
    (fuel : ℕ) : Wal.recordsFrom (fuel + 1) s = r :: Wal.recordsFrom fuel s' := by
  simp [Wal.recordsFrom, h]

theorem recordsFrom_none {s : IStream} (h : Wal.readRecord s = none) (fuel : ℕ) :
    Wal.recordsFrom fuel s = [] := by
  cases fuel with
  | zero => rfl
  | succ fuel => simp [Wal.recordsFrom, h]

theorem recordsFrom_takes {ws : List Bytes} {rs : List Mutation} {t : Bytes}
    (hws : List.Forall₂ (fun w r => Takes Wal.readRecord r w) ws rs)
    (ht : ∀ p, Wal.readRecord ⟨t, p, false, false⟩ = none) : ∀ {fuel p : ℕ}, rs.length ≤ fuel →
    Wal.recordsFrom fuel ⟨ws.flatten ++ t, p, false, false⟩ = rs := by
  induction hws with
  | nil =>
    intro fuel p _
    exact recordsFrom_none (ht p) fuel
  | @cons w r ws rs hw _ ih =>
    intro fuel p hf
    cases fuel with
    | zero => simp at hf
    | succ fuel =>
      rw [List.flatten_cons, List.append_assoc, recordsFrom_some (hw _ p) fuel,
        ih (Nat.le_of_succ_le_succ hf)]

theorem takes_encode {rs : List Mutation} (hok : ∀ r ∈ rs, r.Ok) :
    List.Forall₂ (fun w r => Takes Wal.readRecord r w) (rs.map encode) rs :=
  List.forall₂_map_left_iff.2 (List.forall₂_same.2 fun r hr _ _ => readRecord_encode (hok r hr))

theorem records_encodeAll_append {rs : List Mutation} {t : Bytes} (hok : ∀ r ∈ rs, r.Ok)
    (ht : ∀ p, Wal.readRecord ⟨t, p, false, false⟩ = none) :
    Wal.records (encodeAll rs ++ t) = rs := by
  have hlen := length_le_encodeAll rs
  exact recordsFrom_takes (takes_encode hok) ht (by rw [List.length_append]; omega)

theorem records_encodeAll_cut {rs : List Mutation} {t : Bytes} (hok : ∀ r ∈ rs, r.Ok)
    (ht : IsCut t) : Wal.records (encodeAll rs ++ t) = rs := by
  obtain ⟨r, hpre, hne⟩ := ht
  exact records_encodeAll_append hok fun p => readRecord_cut hpre hne

theorem records_encodeAll {rs : List Mutation} (hok : ∀ r ∈ rs, r.Ok) :
    Wal.records (encodeAll rs) = rs := by
  simpa using records_encodeAll_cut hok isCut_nil

end Read

/-- The replay loop on the first `n` bytes of a log applies exactly the records that end by then,
in order, and counts them; on the whole log it applies them all. -/
theorem replay_cut {σ : Type*} (apply : σ → Mutation → σ) (store : σ) (rs : List Mutation)
    (hok : ∀ r ∈ rs, r.Ok) :
    (∀ n, ∃ k ≤ rs.length, (∀ i < rs.length, i < k ↔ (encodeAll (rs.take (i + 1))).length ≤ n)
      ∧ Wal.replayBytes apply ((encodeAll rs).take n) store = ((rs.take k).foldl apply store, k))
    ∧ Wal.replayBytes apply (encodeAll rs) store = (rs.foldl apply store, rs.length) := by
  refine ⟨fun n => ?_, ?_⟩
  · obtain ⟨k, t, hk, ht, hcut, hi⟩ := encodeAll_take rs n
    refine ⟨k, hk, hi, ?_⟩
    rw [Wal.replayBytes_eq, ht,
      records_encodeAll_cut (fun r hr => hok r (List.mem_of_mem_take hr)) hcut,
      List.length_take_of_le hk]
  · rw [Wal.replayBytes_eq, records_encodeAll hok]

/-- A log of three records, the second value holding what looks like a record, cut inside the
third. -/
theorem replay_cut_three :
    ∃ k ≤ 3, (∀ i < 3, i < k ↔ (encodeAll ([.set [97] [49], .set [98] (ascii "DEL 1 a\n"),
        .del [97]].take (i + 1))).length ≤ 35)
      ∧ Wal.replayBytes apply ((encodeAll [.set [97] [49], .set [98] (ascii "DEL 1 a\n"),
          .del [97]]).take 35) ∅
        = (applyAll ∅ ([.set [97] [49], .set [98] (ascii "DEL 1 a\n"), .del [97]].take k), k) :=
  (replay_cut apply ∅ [.set [97] [49], .set [98] (ascii "DEL 1 a\n"), .del [97]] (by decide)).1 35

end Redon
