import Redon.Proofs.Replay
import Redon.Storage

/-!
# What a store's operations do

For the in-memory engine, what `set`, `get`, `del` and the two eviction loops can do, one lemma
each, and what they do to the key-value map. Evicting takes the last key out of the map; everything
else a call does to the map is the change it was asked for.
-/

namespace Redon

open Lib Mutation

namespace Storage

variable {s s' : Storage} {k v : Bytes} {r : Mutation}

section Log

theorem logRecord_none (h : s.wal = none) : s.logRecord r = (true, s) := by
  simp [logRecord, h]

theorem logRecord_some {w : Wal} (h : s.wal = some w) :
    s.logRecord r = ((w.append r).1, { s with wal := some (w.append r).2 }) := by
  cases r <;> simp [logRecord, h, Wal.appendSet, Wal.appendDel]

theorem logRecord_eq {b : Bool} (h : s.logRecord r = (b, s')) : s' = { s with wal := s'.wal } := by
  unfold logRecord at h
  split at h <;> simp only [Prod.mk.injEq] at h <;> rw [← h.2]

theorem disk_logRecord {b : Bool} (h : s.logRecord r = (b, s')) : s'.disk = s.disk := by
  rw [logRecord_eq h]

end Log

section Evict

theorem evict_unlogged (h : s.items.back? = some (k, v)) :
    s.evictLruLocked false = (true, { s with items := s.items.popBack }, []) := by
  simp [evictLruLocked, h]

theorem evict_logged {b : Bool} (h : s.items.back? = some (k, v))
    (hl : s.logRecord (.del k) = (b, s')) : s.evictLruLocked true
      = if b then (true, { s' with items := s.items.popBack },
          [(.del k, { s' with items := s.items.popBack })])
        else (false, s', []) := by
  have hs := logRecord_eq hl
  have hi : s'.items = s.items := by rw [hs]
  unfold evictLruLocked
  rw [h]
  simp only [if_true, hl, hi]

theorem trimLoop_succ (n : ℕ) (s : Storage) : trimLoop (n + 1) s
    = if 0 < s.capacity ∧ s.capacity < s.items.size then
        trimLoop n { s with items := s.items.popBack }
      else s := by
  rw [trimLoop]
  by_cases hc : 0 < s.capacity ∧ s.capacity < s.items.size
  · obtain ⟨⟨k, v⟩, hb⟩ := LinkedMap.back?_isSome (m := s.items) (by omega)
    rw [if_pos (by simpa using hc), if_pos hc, evict_unlogged hb]
  · rw [if_neg (by simpa using hc), if_neg hc]

theorem trimLoop_eq : ∀ (n : ℕ) (s : Storage),
    trimLoop n s = { s with items := (trimLoop n s).items }
  | 0, _ => rfl
  | n + 1, s => by
    rw [trimLoop_succ]
    split_ifs
    · exact trimLoop_eq n _
    · rfl

theorem trimLoop_front : ∀ (n : ℕ) (s : Storage), (trimLoop n s).items.entries <+: s.items.entries
  | 0, _ => List.prefix_rfl
  | n + 1, s => by
    rw [trimLoop_succ]
    split_ifs
    · refine (trimLoop_front n _).trans ?_
      rw [LinkedMap.entries_popBack]
      exact List.dropLast_prefix _
    · exact List.prefix_rfl

theorem trimLoop_le : ∀ (n : ℕ) (s : Storage), s.items.size ≤ n → 0 < s.capacity →
    (trimLoop n s).items.size ≤ s.capacity
  | 0, s, h, _ => h.trans (Nat.zero_le _)
  | n + 1, s, h, hc => by
    rw [trimLoop_succ]
    split_ifs with hlt
    · refine trimLoop_le n _ ?_ hc
      have := s.items.size_popBack
      simp only [] at this ⊢
      omega
    · omega

theorem trimLoop_of_fits (n : ℕ) (h : s.capacity = 0 ∨ s.items.size ≤ s.capacity) :
    trimLoop n s = s := by
  cases n with
  | zero => rfl
  | succ n =>
    rw [trimLoop_succ, if_neg]
    omega

theorem trimLoop_enough : ∀ (n m : ℕ) (s : Storage), s.items.size ≤ n → s.items.size ≤ m →
    trimLoop n s = trimLoop m s
  | 0, m, s, h, _ => (trimLoop_of_fits m (.inr (h.trans (Nat.zero_le _)))).symm
  | n + 1, 0, s, _, h => trimLoop_of_fits (n + 1) (.inr (h.trans (Nat.zero_le _)))
  | n + 1, m + 1, s, hn, hm => by
    rw [trimLoop_succ, trimLoop_succ]
    split_ifs
    · have hpop := s.items.size_popBack
      refine trimLoop_enough n m _ ?_ ?_ <;> simp only [hpop] <;> omega
    · rfl

/-- Trimming leaves the entries at the front. -/
theorem trimLoop_entries : ∀ (n : ℕ) (s : Storage), s.items.size ≤ n → 0 < s.capacity →
    (trimLoop n s).items.entries = s.items.entries.take s.capacity
  | 0, s, h, _ => by
    rw [LinkedMap.size_eq_length] at h
    rw [trimLoop, List.length_eq_zero_iff.1 (Nat.le_zero.1 h), List.take_nil]
  | n + 1, s, h, hc => by
    have hlen := s.items.size_eq_length
    rw [trimLoop_succ]
    split_ifs with hlt
    · have hpop := s.items.size_popBack
      have hle : s.items.popBack.size ≤ n := by omega
      refine (trimLoop_entries n { s with items := s.items.popBack } hle hc).trans ?_
      simp only [LinkedMap.entries_popBack, List.dropLast_eq_take, List.take_take]
      rw [min_eq_left (by omega)]
    · rw [List.take_of_length_le (by omega)]

/-- When replay ends, the entries at the front that fit stay. -/
theorem setReplaying_entries (s : Storage) : (s.setReplaying false).items.entries
    = if s.capacity = 0 then s.items.entries else s.items.entries.take s.capacity := by
  have htrim : s.setReplaying false = trimLoop s.items.size { s with replaying := false } := rfl
  rw [htrim]
  split_ifs with hc
  · rw [trimLoop_of_fits (s := { s with replaying := false }) _ (.inl hc)]
  · exact trimLoop_entries _ { s with replaying := false } le_rfl (Nat.pos_of_ne_zero hc)

theorem evictLoop_fits (n : ℕ) (h : 0 < s.capacity → s.items.size ≤ s.capacity) :
    evictLoop n s = (s, []) := by
  cases n with
  | zero => rfl
  | succ n =>
    rw [evictLoop, if_neg]
    simp only [Bool.and_eq_true, decide_eq_true_eq, not_and, not_lt]
    exact fun hc => h hc.2

/-- One key over capacity is one eviction, if it can be logged. -/
theorem evictLoop_over (n : ℕ) (hr : s.replaying = false) (hc : 0 < s.capacity)
    (hs : s.items.size = s.capacity + 1) :
    ∃ k b s₁, s.logRecord (.del k) = (b, s₁) ∧ (evictLoop (n + 1) s).1
      = if b then { s₁ with items := s.items.popBack } else s₁ := by
  obtain ⟨⟨k, v⟩, hb⟩ := LinkedMap.back?_isSome (m := s.items) (by omega)
  rcases hl : s.logRecord (.del k) with ⟨b, s₁⟩
  refine ⟨k, b, s₁, hl, ?_⟩
  rw [evictLoop, if_pos (by simp [hr, hc, hs]), evict_logged hb hl]
  cases b with
  | false => rfl
  | true =>
    have hcap : s₁.capacity = s.capacity := by rw [logRecord_eq hl]
    have hfits : 0 < s₁.capacity → s.items.popBack.size ≤ s₁.capacity := fun _ => by
      rw [LinkedMap.size_popBack, hcap]
      omega
    simp only [if_true]
    rw [evictLoop_fits (s := { s₁ with items := s.items.popBack }) n hfits]

end Evict

section Cases

/-- What `set` can do: be refused by the log, overwrite and move to the front, or insert at the
front and evict. -/
theorem set_cases (hd : s.disk = none) (k v : Bytes) :
    (∃ s₁, s.logRecord (.set k v) = (false, s₁) ∧ s.set k v = (false, s₁, [])) ∨
    (∃ s₁ i, s.logRecord (.set k v) = (true, s₁) ∧ s.items.index.lookup k = some i
      ∧ ∃ s₂, s₂ = { s₁ with items := (s.items.setVal i v).splice i }
        ∧ s.set k v = (true, s₂, [(.set k v, s₂)])) ∨
    (∃ s₁, ∃ h : s.items.index.lookup k = none, s.logRecord (.set k v) = (true, s₁)
      ∧ ∃ s₂, s₂ = { s₁ with items := s.items.emplaceFront k v h }
        ∧ s.set k v = (true, (s₂.evictLoop s₂.items.size).1,
          (.set k v, s₂) :: (s₂.evictLoop s₂.items.size).2)) := by
  unfold set
  rw [hd]
  rcases hl : s.logRecord (.set k v) with ⟨b, s₁⟩
  cases b with
  | false => exact .inl ⟨s₁, rfl, rfl⟩
  | true =>
    right
    simp only []
    split
    · rename_i i h
      exact .inl ⟨s₁, i, rfl, h, _, rfl, rfl⟩
    · rename_i h
      exact .inr ⟨s₁, h, rfl, _, rfl, rfl⟩

theorem del_cases (hd : s.disk = none) (k : Bytes) :
    (s.items.index.lookup k = none ∧ s.del k = (⟨0, true⟩, s, [])) ∨
    (∃ i s₁, s.items.index.lookup k = some i ∧ s.logRecord (.del k) = (false, s₁)
      ∧ s.del k = (⟨0, false⟩, s₁, [])) ∨
    (∃ i s₁, ∃ h : s.items.index.lookup k = some i, s.logRecord (.del k) = (true, s₁)
      ∧ ∃ s₂, s₂ = { s₁ with items := s.items.eraseAt k i h }
        ∧ s.del k = (⟨1, true⟩, s₂, [(.del k, s₂)])) := by
  unfold del
  rw [hd]
  simp only []
  split
  · rename_i h
    exact .inl ⟨h, rfl⟩
  · rename_i i h
    right
    rcases hl : s.logRecord (.del k) with ⟨b, s₁⟩
    cases b with
    | false => exact .inl ⟨i, s₁, h, rfl, rfl⟩
    | true => exact .inr ⟨i, s₁, h, rfl, _, rfl, rfl⟩

theorem get_cases (hd : s.disk = none) (k : Bytes) :
    (s.items.index.lookup k = none ∧ s.get k = (none, s)) ∨
    (∃ i v, s.items.index.lookup k = some i ∧ s.items.get? k = some v
      ∧ s.get k = (some v, { s with items := s.items.splice i })) := by
  unfold get
  rw [hd]
  simp only []
  rcases h : s.items.index.lookup k with _ | i
  · exact .inl ⟨rfl, rfl⟩
  · obtain ⟨n, hn, hk, hi⟩ := (s.items.index_iff k i).1 h
    have hv : s.items.get? k = some n.val := by
      rw [LinkedMap.get?_eq_some, LinkedMap.mem_entries]
      exact ⟨n, hn, hk, rfl⟩
    exact .inr ⟨i, n.val, rfl, hv, by rw [hv]⟩

/-- One turn of the eviction loop. -/
theorem evictLoop_cases (n : ℕ) (s : Storage) :
    evictLoop (n + 1) s = (s, []) ∨
    (∃ k v s₁, s.items.back? = some (k, v) ∧ s.logRecord (.del k) = (false, s₁)
      ∧ evictLoop (n + 1) s = (s₁, [])) ∨
    (∃ k v s₁, s.items.back? = some (k, v) ∧ s.logRecord (.del k) = (true, s₁)
      ∧ ∃ s₂, s₂ = { s₁ with items := s.items.popBack }
        ∧ evictLoop (n + 1) s = ((evictLoop n s₂).1, (.del k, s₂) :: (evictLoop n s₂).2)) := by
  by_cases hc : (!s.replaying && 0 < s.capacity && s.capacity < s.items.size) = true
  · have hpos : 0 < s.items.size := by
      simp only [Bool.and_eq_true, decide_eq_true_eq] at hc
      omega
    obtain ⟨⟨k, v⟩, hb⟩ := LinkedMap.back?_isSome hpos
    rcases hl : s.logRecord (.del k) with ⟨b, s₁⟩
    have he := evict_logged hb hl
    cases b with
    | false =>
      refine .inr (.inl ⟨k, v, s₁, hb, hl, ?_⟩)
      rw [evictLoop, if_pos hc, he]
      rfl
    | true =>
      refine .inr (.inr ⟨k, v, s₁, hb, hl, _, rfl, ?_⟩)
      rw [evictLoop, if_pos hc, he]
      rfl
  · left
    rw [evictLoop, if_neg hc]

end Cases

section Replay

/-- A store being replayed into: no engine, no log, no eviction. -/
structure Replaying (s : Storage) : Prop where
  disk : s.disk = none
  wal : s.wal = none
  replaying : s.replaying = true

theorem evictLoop_replaying (h : s.replaying = true) (n : ℕ) : evictLoop n s = (s, []) := by
  cases n with
  | zero => rfl
  | succ n => simp [evictLoop, h]

/-- What a record does to the entries of a store being replayed into, the latest set first. -/
def relist (es : List (Bytes × Bytes)) : Mutation → List (Bytes × Bytes)
  | .set k v => (k, v) :: es.filter fun p => p.1 ≠ k
  | .del k => es.filter fun p => p.1 ≠ k

theorem relist_spec {es : List (Bytes × Bytes)} (h : (es.map Prod.fst).Nodup) (r : Mutation) :
    ((relist es r).map Prod.fst).Nodup ∧ mapOf (relist es r) = r.apply (mapOf es) := by
  have hfilter : ∀ k : Bytes, ((es.filter fun p => p.1 ≠ k).map Prod.fst).Nodup := fun _ =>
    h.sublist (List.filter_sublist.map _)
  cases r with
  | set k v =>
    refine ⟨?_, ?_⟩
    · rw [relist, List.map_cons, List.nodup_cons]
      exact ⟨by simp, hfilter k⟩
    · rw [relist, mapOf_cons, mapOf_filter_ne h]
      refine fmap_ext fun k' v' => ?_
      simp only [apply, lookup_insert_iff, lookup_erase_iff]
      tauto
  | del k => exact ⟨hfilter k, mapOf_filter_ne h k⟩

theorem foldl_relist_spec : ∀ (rs : List Mutation) {es : List (Bytes × Bytes)},
    (es.map Prod.fst).Nodup → ((rs.foldl relist es).map Prod.fst).Nodup
      ∧ mapOf (rs.foldl relist es) = applyAll (mapOf es) rs
  | [], _, h => ⟨h, rfl⟩
  | r :: rs, es, h => by
    obtain ⟨h₁, h₂⟩ := relist_spec h r
    obtain ⟨h₃, h₄⟩ := foldl_relist_spec rs h₁
    exact ⟨h₃, h₄.trans (by rw [h₂]; rfl)⟩

theorem foldl_relist_nil (rs : List Mutation) : ((rs.foldl relist []).map Prod.fst).Nodup
    ∧ mapOf (rs.foldl relist []) = applyAll ∅ rs :=
  foldl_relist_spec rs List.nodup_nil

theorem filter_of_index (h : s.items.index.lookup k = none) :
    (s.items.entries.filter fun p => p.1 ≠ k) = s.items.entries := by
  refine List.filter_eq_self.2 fun p hp => ?_
  rw [LinkedMap.index_eq_none] at h
  simpa using fun he : p.1 = k => h (he ▸ List.mem_map_of_mem hp)

theorem replayRecord_spec (h : Replaying s) (r : Mutation) : Replaying (s.replayRecord r)
    ∧ (s.replayRecord r).capacity = s.capacity
    ∧ (s.replayRecord r).items.entries = relist s.items.entries r := by
  cases r with
  | set k v =>
    simp only [replayRecord]
    rcases set_cases h.disk k v with ⟨s₁, hl, -⟩ | ⟨s₁, i, hl, hi, s₂, rfl, he⟩
      | ⟨s₁, hi, hl, s₂, rfl, he⟩ <;> rw [logRecord_none h.wal, Prod.mk.injEq] at hl
    · cases hl.1
    · obtain ⟨-, rfl⟩ := hl
      rw [he]
      exact ⟨⟨h.disk, h.wal, h.replaying⟩, rfl, LinkedMap.entries_setVal_splice hi⟩
    · obtain ⟨-, rfl⟩ := hl
      have hr := evictLoop_replaying (s := { s with items := s.items.emplaceFront k v hi })
        h.replaying
      rw [he, hr]
      refine ⟨⟨h.disk, h.wal, h.replaying⟩, rfl, ?_⟩
      rw [relist, filter_of_index hi]
      exact LinkedMap.entries_emplaceFront hi
  | del k =>
    simp only [replayRecord]
    rcases del_cases h.disk k with ⟨hi, he⟩ | ⟨i, s₁, hi, hl, -⟩ | ⟨i, s₁, hi, hl, s₂, rfl, he⟩
    · rw [he]
      exact ⟨h, rfl, (filter_of_index hi).symm⟩
    · rw [logRecord_none h.wal] at hl
      cases hl
    · rw [logRecord_none h.wal, Prod.mk.injEq] at hl
      obtain ⟨-, rfl⟩ := hl
      rw [he]
      exact ⟨⟨h.disk, h.wal, h.replaying⟩, rfl, LinkedMap.entries_eraseAt hi⟩

theorem replayRecords_spec : ∀ (rs : List Mutation) {s : Storage}, Replaying s →
    Replaying (rs.foldl replayRecord s) ∧ (rs.foldl replayRecord s).capacity = s.capacity
      ∧ (rs.foldl replayRecord s).items.entries = rs.foldl relist s.items.entries
  | [], _, h => ⟨h, rfl, rfl⟩
  | r :: rs, s, h => by
    obtain ⟨h1, h2, h3⟩ := replayRecord_spec h r
    obtain ⟨h4, h5, h6⟩ := replayRecords_spec rs h1
    refine ⟨h4, h5.trans h2, ?_⟩
    rw [List.foldl_cons, h6, h3, List.foldl_cons]

/-- A fresh store rebuilt from a log, before it is trimmed to its capacity. -/
def replayed (bytes : Bytes) (capacity : ℕ) : Storage :=
  (Wal.records bytes).foldl replayRecord ((empty capacity).setReplaying true)

theorem replayed_entries (bytes : Bytes) (c : ℕ) :
    (replayed bytes c).items.entries = (Wal.records bytes).foldl relist [] :=
  (replayRecords_spec (Wal.records bytes) ⟨rfl, rfl, rfl⟩).2.2

theorem replayed_spec (bytes : Bytes) (c : ℕ) : Replaying (replayed bytes c)
    ∧ (replayed bytes c).capacity = c
    ∧ (replayed bytes c).items.toMap = applyAll ∅ (Wal.records bytes) := by
  obtain ⟨h, hcap, -⟩ := replayRecords_spec (Wal.records bytes)
    (s := (empty c).setReplaying true) ⟨rfl, rfl, rfl⟩
  refine ⟨h, hcap, ?_⟩
  rw [LinkedMap.toMap, replayed_entries]
  exact (foldl_relist_nil _).2

theorem replayInto_eq (bytes : Bytes) (c : ℕ) : Wal.replayInto (some bytes) (empty c)
    = ((replayed bytes c).setReplaying false, (Wal.records bytes).length) := by
  simp only [Wal.replayInto, Wal.replayBytes_eq]
  rfl

end Replay

end Storage

end Redon
