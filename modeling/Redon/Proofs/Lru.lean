import Redon.Lib.Lru
import Redon.Lib.Machine
import Redon.Proofs.Storage
import Redon.Session

/-!
# The store is a least-recently-used cache

An in-memory store without a log answers as the map that keeps last uses does. The list order is the
order of the last uses, newest first: the times that go with the entries fall along the list
(`Ranked`), so the entry `evict_lru_locked` pops is the one with the oldest use.
-/

namespace Redon

open Lib

/-- The answers of the map that keeps last uses, without a log every write is done. -/
noncomputable def lruCall (r : Lru Bytes Bytes) : Call → Answer × Lru Bytes Bytes
  | .set key value => (.stored true, r.set key value)
  | .get key => (.value (r.get key).1, (r.get key).2)
  | .del key => (.deleted ⟨if r.has key then 1 else 0, true⟩, r.del key)
  | .exists key => (.present (r.has key), r)

namespace Storage

variable {s : Storage} {r : Lru Bytes Bytes} {l : List (Bytes × Bytes × ℕ)} {k v : Bytes} {i : ℕ}

/-- The times `l` adds to the entries are those of `r`, newest first. -/
structure Ranked (s : Storage) (r : Lru Bytes Bytes) (l : List (Bytes × Bytes × ℕ)) : Prop where
  disk : s.disk = none
  wal : s.wal = none
  replaying : s.replaying = false
  capacity : s.capacity = r.capacity
  fits : 0 < s.capacity → s.items.size ≤ s.capacity
  lists : Lists r l
  entries : s.items.entries = l.map fun e => (e.1, e.2.1)

namespace Ranked

theorem size_eq (h : Ranked s r l) : s.items.size = l.length := by
  rw [LinkedMap.size_eq_length, h.entries, List.length_map]

theorem keys (h : Ranked s r l) : s.items.entries.map Prod.fst = l.map Prod.fst := by
  rw [h.entries, List.map_map]
  rfl

theorem lookup_none (h : Ranked s r l) :
    s.items.index.lookup k = none ↔ r.map.lookup k = none := by
  rw [LinkedMap.index_eq_none, h.keys, h.lists.lookup_none]

theorem has_eq (h : Ranked s r l) (k : Bytes) : (s.items.index.lookup k).isSome = r.has k := by
  rw [Bool.eq_iff_iff, Lru.has, Option.isSome_iff_ne_none, Option.isSome_iff_ne_none]
  exact not_congr h.lookup_none

theorem lookup_iff (h : Ranked s r l) :
    s.items.get? k = some v ↔ ∃ t, r.map.lookup k = some (v, t) := by
  rw [LinkedMap.get?_eq_some, h.entries, List.mem_map]
  constructor
  · rintro ⟨⟨k', v', t⟩, he, heq⟩
    obtain ⟨rfl, rfl⟩ := Prod.mk.inj heq
    exact ⟨t, h.lists.lookup.2 he⟩
  · rintro ⟨t, ht⟩
    exact ⟨(k, v, t), h.lists.lookup.1 ht, rfl⟩

theorem filter_entries (h : Ranked s r l) (k : Bytes) :
    s.items.entries.filter (fun p => p.1 ≠ k)
      = (l.filter fun e => e.1 ≠ k).map fun e => (e.1, e.2.1) := by
  rw [h.entries, List.filter_map]
  rfl

/-- A use of a key that is there. -/
theorem use (h : Ranked s r l) {items : LinkedMap Bytes Bytes}
    (hi : s.items.index.lookup k = some i)
    (he : items.entries = (k, v) :: s.items.entries.filter fun p => p.1 ≠ k) :
    Ranked { s with items := items } (r.use k v)
      ((k, v, r.clock) :: l.filter fun e => e.1 ≠ k) := by
  refine ⟨h.disk, h.wal, h.replaying, h.capacity, fun hc => ?_, h.lists.use k v, ?_⟩
  · refine le_trans ?_ (h.fits hc)
    obtain ⟨n, hn, rfl, -⟩ := (s.items.index_iff k i).1 hi
    have hmem : (n.key, n.val) ∈ s.items.entries := LinkedMap.mem_entries.2 ⟨n, hn, rfl, rfl⟩
    have hlt := List.length_filter_lt_length_iff_exists (p := fun p : Bytes × Bytes => p.1 ≠ n.key)
      |>.2 ⟨_, hmem, by simp⟩
    rw [LinkedMap.size_eq_length, LinkedMap.size_eq_length, he]
    exact hlt
  · rw [he, h.filter_entries k]
    rfl

/-- A new key. -/
theorem insert (h : Ranked s r l) (hi : s.items.index.lookup k = none) :
    ∃ l', Ranked (evictLoop (s.items.emplaceFront k v hi).size
      { s with items := s.items.emplaceFront k v hi }).1 (r.set k v) l' := by
  have hmap := h.lookup_none.1 hi
  have hkeys := h.lists.lookup_none.1 hmap
  have hl : (l.filter fun e => e.1 ≠ k) = l := by
    refine List.filter_eq_self.2 fun e he => ?_
    simpa using fun hk : e.1 = k => hkeys (hk ▸ List.mem_map_of_mem he)
  have huse := h.lists.use k v
  rw [hl] at huse
  have hsize : (s.items.emplaceFront k v hi).size = l.length + 1 := by
    rw [LinkedMap.size_emplaceFront, h.size_eq]
  have hcard : (r.use k v).map.keys.card = l.length + 1 := by
    rw [huse.map_eq, card_keys_mapOf huse.nodup]
    rfl
  have hentries : (s.items.emplaceFront k v hi).entries
      = ((k, v, r.clock) :: l).map fun e => (e.1, e.2.1) := by
    rw [LinkedMap.entries_emplaceFront, h.entries]
    rfl
  unfold Lru.set
  rw [hcard]
  split_ifs with hover
  · obtain ⟨-, hc, hlt⟩ := hover
    rw [← h.capacity] at hc hlt
    have hfull : l.length = s.capacity := by
      have := h.fits hc
      rw [h.size_eq] at this
      omega
    obtain ⟨k', b, s₁, hlog, hover⟩ := evictLoop_over l.length
      (s := { s with items := s.items.emplaceFront k v hi }) h.replaying hc
      (hsize.trans (by rw [hfull]))
    rw [logRecord_none (s := { s with items := s.items.emplaceFront k v hi }) h.wal,
      Prod.mk.injEq] at hlog
    obtain ⟨rfl, rfl⟩ := hlog
    rw [hsize, hover, if_pos rfl]
    have hne : (k, v, r.clock) :: l ≠ [] := List.cons_ne_nil _ _
    rw [← List.dropLast_append_getLast hne] at huse
    refine ⟨_, h.disk, h.wal, h.replaying, h.capacity, fun _ => ?_, huse.evictOldest, ?_⟩
    · show (s.items.emplaceFront k v hi).popBack.size ≤ s.capacity
      rw [LinkedMap.size_popBack, hsize, hfull]
      exact le_rfl
    · rw [LinkedMap.entries_popBack, hentries, List.map_dropLast]
  · have hfits : 0 < s.capacity → (s.items.emplaceFront k v hi).size ≤ s.capacity := by
      intro hc
      rw [hsize]
      refine not_lt.1 fun hlt => hover ⟨Finmap.lookup_eq_none.1 hmap, ?_, ?_⟩
      · rwa [← h.capacity]
      · rwa [← h.capacity]
    rw [evictLoop_fits (s := { s with items := s.items.emplaceFront k v hi }) _ hfits]
    exact ⟨_, h.disk, h.wal, h.replaying, h.capacity, hfits, huse, hentries⟩

theorem set (h : Ranked s r l) (k v : Bytes) :
    (s.set k v).1 = true ∧ ∃ l', Ranked (s.set k v).2.1 (r.set k v) l' := by
  have hlog := logRecord_none (r := .set k v) h.wal
  rcases set_cases h.disk k v with ⟨s₁, hl, -⟩ | ⟨s₁, i, hl, hi, s₂, rfl, he⟩
    | ⟨s₁, hi, hl, s₂, rfl, he⟩ <;> rw [hlog, Prod.mk.injEq] at hl <;> obtain ⟨hb, rfl⟩ := hl
  · cases hb
  · have hmem : k ∈ r.map := by
      by_contra hk
      rw [h.lookup_none.2 (Finmap.lookup_eq_none.2 hk)] at hi
      cases hi
    rw [he, Lru.set, if_neg fun hc => hc.1 hmem]
    exact ⟨rfl, _, h.use hi (LinkedMap.entries_setVal_splice hi)⟩
  · rw [he]
    exact ⟨rfl, h.insert hi⟩

theorem get (h : Ranked s r l) (k : Bytes) :
    (s.get k).1 = (r.get k).1 ∧ ∃ l', Ranked (s.get k).2 (r.get k).2 l' := by
  rcases get_cases h.disk k with ⟨hi, he⟩ | ⟨i, v, hi, hv, he⟩
  · rw [he, Lru.get, h.lookup_none.1 hi]
    exact ⟨rfl, l, h⟩
  · obtain ⟨t, ht⟩ := h.lookup_iff.1 hv
    rw [he, Lru.get, ht]
    exact ⟨rfl, _, h.use hi (LinkedMap.entries_splice hi hv)⟩

theorem del (h : Ranked s r l) (k : Bytes) :
    (s.del k).1 = ⟨if r.has k then 1 else 0, true⟩ ∧ ∃ l', Ranked (s.del k).2.1 (r.del k) l' := by
  rw [← h.has_eq k]
  rcases del_cases h.disk k with ⟨hi, he⟩ | ⟨i, s₁, hi, hl, -⟩ | ⟨i, s₁, hi, hl, s₂, rfl, he⟩
  · rw [he, hi]
    refine ⟨rfl, l, ?_⟩
    rwa [Lru.del, erase_of_lookup_none (h.lookup_none.1 hi)]
  · rw [logRecord_none h.wal] at hl
    cases hl
  · rw [logRecord_none h.wal, Prod.mk.injEq] at hl
    obtain ⟨-, rfl⟩ := hl
    rw [he, hi]
    refine ⟨rfl, _, h.disk, h.wal, h.replaying, h.capacity, fun hc => ?_, h.lists.del k, ?_⟩
    · exact (LinkedMap.size_eraseAt_le hi).trans (h.fits hc)
    · rw [LinkedMap.entries_eraseAt, h.filter_entries k]

theorem call (h : Ranked s r l) (c : Call) :
    (s.call c).1 = (lruCall r c).1 ∧ ∃ l', Ranked (s.call c).2 (lruCall r c).2 l' := by
  cases c with
  | set k v =>
    obtain ⟨ha, hr⟩ := h.set k v
    exact ⟨congrArg Answer.stored ha, hr⟩
  | get k =>
    obtain ⟨ha, hr⟩ := h.get k
    exact ⟨congrArg Answer.value ha, hr⟩
  | del k =>
    obtain ⟨ha, hr⟩ := h.del k
    exact ⟨congrArg Answer.deleted ha, hr⟩
  | «exists» k =>
    refine ⟨congrArg Answer.present ?_, l, h⟩
    rw [exists?, h.disk]
    exact h.has_eq k

end Ranked

theorem lruCall_capacity (r : Lru Bytes Bytes) (c : Call) :
    (lruCall r c).2.capacity = r.capacity := by
  cases c with
  | set k v =>
    simp only [lruCall, Lru.set]
    split_ifs <;> rfl
  | get k =>
    simp only [lruCall, Lru.get]
    split <;> rfl
  | _ => rfl

/-- Over every list of calls an in-memory store without a log answers as the map of last uses, and
ends with the same values. The keys in its list are distinct, its index names exactly their nodes,
and a positive capacity is kept. -/
theorem lru_refines (capacity : ℕ) (cs : List Call) :
    (runOut Storage.call (empty capacity) cs).1 = (runOut lruCall (Lru.empty capacity) cs).1
    ∧ (∀ k v, (runOut Storage.call (empty capacity) cs).2.items.get? k = some v
      ↔ ∃ t, (runOut lruCall (Lru.empty capacity) cs).2.map.lookup k = some (v, t))
    ∧ ((runOut Storage.call (empty capacity) cs).2.items.entries.map Prod.fst).Nodup
    ∧ (∀ k i, (runOut Storage.call (empty capacity) cs).2.items.index.lookup k = some i
      ↔ ∃ n ∈ (runOut Storage.call (empty capacity) cs).2.items.nodes, n.key = k ∧ n.id = i)
    ∧ (0 < capacity → (runOut Storage.call (empty capacity) cs).2.size ≤ capacity) := by
  have hinit : ∃ l, Ranked (empty capacity) (Lru.empty capacity) l :=
    ⟨[], rfl, rfl, rfl, rfl, fun _ => Nat.zero_le _, .empty capacity, rfl⟩
  obtain ⟨hans, ⟨l, h⟩, hcap⟩ := runOut_sim (P := fun _ => True)
    (R := fun s r => (∃ l, Ranked s r l) ∧ r.capacity = capacity)
    (fun s r c ⟨⟨l, h⟩, hc⟩ _ =>
      ⟨(h.call c).1, (h.call c).2, (lruCall_capacity r c).trans hc⟩)
    cs ⟨hinit, rfl⟩ fun _ _ => trivial
  refine ⟨hans, fun k v => h.lookup_iff, LinkedMap.nodup_keys _, LinkedMap.index_iff _,
    fun hc => ?_⟩
  have hfits := h.fits
  rw [h.capacity, hcap] at hfits
  rw [size, h.disk]
  exact hfits hc

end Storage

end Redon
