import Redon.Command
import Redon.Proofs.WriteAhead

/-!
# An unbounded store is a map

A store in memory with no bound, whose log, if it has one, works, answers as a map does: nothing is
evicted and nothing is refused. So do the commands executed on it.
-/

namespace Redon

open Lib Mutation

namespace Storage

/-- The store is unbounded, in memory, with no log or a working one, and holds `m`. -/
structure Plain (m : Map) (s : Storage) : Prop where
  disk : s.disk = none
  capacity : s.capacity = 0
  live : ∀ w, s.wal = some w → w.Live
  map : s.items.toMap = m

variable {m : Map} {s : Storage}

theorem plain_empty : Plain ∅ (empty 0) := ⟨rfl, rfl, nofun, rfl⟩

theorem Plain.toMap (h : Plain m s) : s.toMap = m := by
  rw [Storage.toMap, h.disk]
  exact h.map

theorem Plain.logRecord (h : Plain m s) (r : Mutation) :
    ∃ w', s.logRecord r = (true, { s with wal := w' }) ∧ ∀ w, w' = some w → w.Live := by
  rcases hw : s.wal with _ | w
  · refine ⟨none, ?_, nofun⟩
    rw [logRecord_none hw, ← hw]
  · obtain ⟨ht, hl⟩ := Wal.append_live (r := r) (h.live w hw)
    refine ⟨some (w.append r).2, by rw [logRecord_some hw, ht], fun w' hw' => ?_⟩
    rw [← Option.some.inj hw']
    exact hl

theorem evictLoop_unbounded (h : s.capacity = 0) (n : ℕ) : evictLoop n s = (s, []) := by
  cases n with
  | zero => rfl
  | succ n => simp [evictLoop, h]

theorem Plain.set (h : Plain m s) (k v : Bytes) :
    ∃ s', s.set k v = (true, s', [(.set k v, s')]) ∧ Plain (m.insert k v) s' := by
  obtain ⟨w', hl, hlive⟩ := h.logRecord (.set k v)
  rcases set_cases h.disk k v with ⟨s₁, he, -⟩ | ⟨s₁, i, he, hi, s₂, rfl, hset⟩
    | ⟨s₁, hi, he, s₂, hs₂, hset⟩ <;> rw [hl, Prod.mk.injEq] at he
  · cases he.1
  · obtain ⟨-, rfl⟩ := he
    refine ⟨_, hset, h.disk, h.capacity, hlive, ?_⟩
    rw [← h.map]
    exact LinkedMap.toMap_setVal_splice hi
  · obtain ⟨-, rfl⟩ := he
    rw [evictLoop_unbounded (by rw [hs₂]; exact h.capacity)] at hset
    refine ⟨s₂, hset, ?_⟩
    rw [hs₂]
    refine ⟨h.disk, h.capacity, hlive, ?_⟩
    rw [← h.map]
    exact LinkedMap.toMap_emplaceFront hi

theorem Plain.get (h : Plain m s) (k : Bytes) :
    (s.get k).1 = m.lookup k ∧ Plain m (s.get k).2 := by
  rw [← h.map, ← LinkedMap.get?_eq_lookup]
  rcases get_cases h.disk k with ⟨hi, he⟩ | ⟨i, v, hi, hv, he⟩ <;> rw [he]
  · refine ⟨?_, h.disk, h.capacity, h.live, rfl⟩
    rw [LinkedMap.get?, hi]
    rfl
  · exact ⟨hv.symm, h.disk, h.capacity, h.live, LinkedMap.toMap_splice _ _⟩

theorem Plain.lookup_isSome (h : Plain m s) (k : Bytes) :
    (s.items.index.lookup k).isSome = (m.lookup k).isSome := by
  rw [Bool.eq_iff_iff, Option.isSome_iff_ne_none, Option.isSome_iff_ne_none, Ne, Ne,
    index_eq_none_iff, h.map, Finmap.lookup_eq_none]

theorem Plain.del (h : Plain m s) (k : Bytes) :
    (s.del k).1 = ⟨if (m.lookup k).isSome then 1 else 0, true⟩
      ∧ Plain (m.erase k) (s.del k).2.1
      ∧ (s.del k).2.2 = if (m.lookup k).isSome then [(.del k, (s.del k).2.1)] else [] := by
  have hsome := h.lookup_isSome k
  obtain ⟨w', hl, hlive⟩ := h.logRecord (.del k)
  rcases del_cases h.disk k with ⟨hi, he⟩ | ⟨i, s₁, -, he, -⟩ | ⟨i, s₁, hi, hl', s₂, rfl, he⟩
  · rw [hi] at hsome
    rw [he, ← hsome]
    refine ⟨rfl, ?_, rfl⟩
    rw [erase_of_lookup_none (by simpa using hsome.symm)]
    exact h
  · rw [hl] at he
    cases he
  · rw [hi] at hsome
    rw [hl, Prod.mk.injEq] at hl'
    obtain ⟨-, rfl⟩ := hl'
    rw [he, ← hsome]
    refine ⟨rfl, ⟨h.disk, h.capacity, hlive, ?_⟩, rfl⟩
    rw [← h.map]
    exact LinkedMap.toMap_eraseAt hi

theorem Plain.exists? (h : Plain m s) (k : Bytes) : s.exists? k = (m.lookup k).isSome := by
  rw [Storage.exists?, h.disk]
  exact h.lookup_isSome k

theorem Plain.clear (h : Plain m s) (truncated reopened : Bool) :
    ∃ s', s.clear truncated reopened = (true, s') ∧ Plain ∅ s' := by
  refine ⟨{ s with items := .empty }, ?_, h.disk, h.capacity, h.live, rfl⟩
  rw [Storage.clear, h.disk]

end Storage

namespace ExecState

open Storage

/-- The line was answered with `reply`, left the store holding `m` and nothing else changed. -/
structure Answers (x : ExecState) (m : Map) (reply : Bytes) (r : Executed) : Prop where
  reply : r.reply = reply
  store : Plain m r.store
  raft : r.raft = x.raft
  link : r.isReplicaLink = x.isReplicaLink
  stays : r.shouldClose = false

variable {m : Map} {x : ExecState} {key rest : Bytes}

theorem answers_answer (hs : Plain m x.store) (reply : Bytes) :
    x.Answers m reply (x.answer reply) := ⟨rfl, hs, rfl, rfl, rfl⟩

theorem executeSet_plain (hs : Plain m x.store) (hk : key ≠ []) (hr : rest ≠ []) :
    x.Answers (m.insert key rest) (ascii "OK") (x.executeSet key rest) := by
  obtain ⟨s', he, hp⟩ := hs.set key rest
  have hc : (key.isEmpty || rest.isEmpty) = false := by simp [hk, hr]
  simp only [executeSet, hc, he, Bool.false_eq_true, if_false, if_true]
  exact ⟨rfl, hp, rfl, rfl, rfl⟩

theorem executeGet_plain (hs : Plain m x.store) (hk : key ≠ []) :
    x.Answers m ((m.lookup key).getD (ascii "(nil)")) (x.executeGet key []) := by
  obtain ⟨hg, hp⟩ := hs.get key
  have hc : (key.isEmpty || !([] : Bytes).isEmpty) = false := by simp [hk]
  simp only [executeGet, hc, Bool.false_eq_true, if_false]
  exact ⟨by rw [← hg]; rfl, hp, rfl, rfl, rfl⟩

theorem executeDel_plain (hs : Plain m x.store) (hk : key ≠ []) :
    x.Answers (m.erase key) (ascii "(integer) " ++ decimal (if (m.lookup key).isSome then 1 else 0))
      (x.executeDel key []) := by
  obtain ⟨hd, hp, -⟩ := hs.del key
  have hc : (key.isEmpty || !([] : Bytes).isEmpty) = false := by simp [hk]
  simp only [executeDel, hc, hd, Bool.false_eq_true, if_false]
  exact ⟨rfl, hp, rfl, rfl, rfl⟩

theorem executeExists_plain (hs : Plain m x.store) (hk : key ≠ []) :
    x.Answers m (ascii "(integer) " ++ decimal (if (m.lookup key).isSome then 1 else 0))
      (x.executeExists key []) := by
  have hc : (key.isEmpty || !([] : Bytes).isEmpty) = false := by simp [hk]
  simp only [executeExists, hc, hs.exists? key, Bool.false_eq_true, if_false]
  exact answers_answer hs _

end ExecState

end Redon
