import Redon.Proofs.WriteAhead

/-!
# The capacity is exceeded by one key at most

A key is inserted only after its record was logged, so only into a store that fits its capacity: one
that does not has lost its log (`Bounded`). The insert then leads to one eviction, and if the log
fails there the key over capacity stays, with a log that takes no record any more.
-/

namespace Redon

open Lib

namespace Storage

variable {s s₁ : Storage} {r : Mutation} {k v : Bytes} {c : ℕ}

/-- The attached log has failed. -/
def LogFailed (s : Storage) : Prop := ∃ w, s.wal = some w ∧ w.ok = false

theorem logFailed_of_false (hl : s.logRecord r = (false, s₁)) : s₁.LogFailed := by
  rcases hw : s.wal with _ | w
  · rw [logRecord_none hw] at hl
    cases hl
  · rw [logRecord_some hw, Prod.mk.injEq] at hl
    obtain ⟨hf, rfl⟩ := hl
    exact ⟨_, rfl, (Wal.append_failed hf).2.1⟩

theorem not_logFailed_of_true (hl : s.logRecord r = (true, s₁)) : ¬ s.LogFailed := by
  rintro ⟨w, hw, hok⟩
  rw [logRecord_some hw, Wal.append, if_neg (by rw [hok]; exact Bool.false_ne_true)] at hl
  cases hl

/-- An in-memory store outside replay that fits its capacity, but for a key that could not be
evicted. -/
structure Bounded (c : ℕ) (s : Storage) : Prop where
  disk : s.disk = none
  replaying : s.replaying = false
  capacity : s.capacity = c
  positive : 0 < c
  fits : s.items.size ≤ c ∨ s.items.size = c + 1 ∧ s.LogFailed

namespace Bounded

theorem fits_of_true (h : Bounded c s) (hl : s.logRecord r = (true, s₁)) :
    s.items.size ≤ c :=
  h.fits.resolve_right fun hover => not_logFailed_of_true hl hover.2

/-- A record that was not logged leaves the items. -/
theorem of_false (h : Bounded c s) (hl : s.logRecord r = (false, s₁)) : Bounded c s₁ := by
  have hfailed := logFailed_of_false hl
  obtain ⟨wal, rfl⟩ : ∃ wal, s₁ = { s with wal := wal } := ⟨_, logRecord_eq hl⟩
  exact ⟨h.disk, h.replaying, h.capacity, h.positive,
    h.fits.imp_right fun hover => ⟨hover.1, hfailed⟩⟩

/-- One that was logged may be followed by any change that fits. -/
theorem of_true (h : Bounded c s) (hl : s.logRecord r = (true, s₁)) {items : LinkedMap Bytes Bytes}
    (hi : items.size ≤ c) : Bounded c { s₁ with items := items } := by
  obtain ⟨wal, rfl⟩ : ∃ wal, s₁ = { s with wal := wal } := ⟨_, logRecord_eq hl⟩
  exact ⟨h.disk, h.replaying, h.capacity, h.positive, .inl hi⟩

theorem insert (h : Bounded c s) (hl : s.logRecord r = (true, s₁))
    (hi : s.items.index.lookup k = none) (n : ℕ) :
    Bounded c (evictLoop (n + 1) { s₁ with items := s.items.emplaceFront k v hi }).1 := by
  have hfits := h.fits_of_true hl
  have hsize := LinkedMap.size_emplaceFront (v := v) hi
  obtain ⟨wal, rfl⟩ : ∃ wal, s₁ = { s with wal := wal } := ⟨_, logRecord_eq hl⟩
  rcases Nat.lt_or_eq_of_le hfits with hlt | hfull
  · have hle : (s.items.emplaceFront k v hi).size ≤ c := by omega
    rw [evictLoop_fits (s := { s with wal := wal, items := s.items.emplaceFront k v hi }) _
      fun _ => hle.trans_eq h.capacity.symm]
    exact ⟨h.disk, h.replaying, h.capacity, h.positive, .inl hle⟩
  · -- the insert made it one key too many
    obtain ⟨k', b, s₂, hl', he⟩ := evictLoop_over n
      (s := { s with wal := wal, items := s.items.emplaceFront k v hi }) h.replaying
      (h.positive.trans_eq h.capacity.symm) (by rw [hsize, hfull, h.capacity])
    have hs₂ := logRecord_eq hl'
    rw [he]
    cases b with
    | false =>
      have hfailed := logFailed_of_false hl'
      obtain ⟨wal', rfl⟩ : ∃ wal', s₂ = { s with wal := wal', items := _ } := ⟨_, hs₂⟩
      refine ⟨h.disk, h.replaying, h.capacity, h.positive, .inr ⟨?_, hfailed⟩⟩
      exact hsize.trans (congrArg (· + 1) hfull)
    | true =>
      obtain ⟨wal', rfl⟩ : ∃ wal', s₂ = { s with wal := wal', items := _ } := ⟨_, hs₂⟩
      refine ⟨h.disk, h.replaying, h.capacity, h.positive, .inl ?_⟩
      show (s.items.emplaceFront k v hi).popBack.size ≤ c
      rw [LinkedMap.size_popBack, hsize, hfull]
      exact le_rfl

theorem set (h : Bounded c s) (k v : Bytes) : Bounded c (s.set k v).2.1 := by
  rcases set_cases h.disk k v with ⟨s₁, hl, he⟩ | ⟨s₁, i, hl, hi, s₂, rfl, he⟩
    | ⟨s₁, hi, hl, s₂, rfl, he⟩ <;> rw [he]
  · exact h.of_false hl
  · refine h.of_true hl ?_
    rw [LinkedMap.size_splice, LinkedMap.size_setVal]
    exact h.fits_of_true hl
  · have hsize := LinkedMap.size_emplaceFront (v := v) hi
    simp only [hsize]
    exact h.insert hl hi s.items.size

theorem get (h : Bounded c s) (k : Bytes) : Bounded c (s.get k).2 := by
  rcases get_cases h.disk k with ⟨-, he⟩ | ⟨i, v, -, -, he⟩ <;> rw [he]
  · exact h
  · exact ⟨h.disk, h.replaying, h.capacity, h.positive, h.fits⟩

theorem del (h : Bounded c s) (k : Bytes) : Bounded c (s.del k).2.1 := by
  rcases del_cases h.disk k with ⟨-, he⟩ | ⟨i, s₁, -, hl, he⟩ | ⟨i, s₁, hi, hl, s₂, rfl, he⟩ <;>
    rw [he]
  · exact h
  · exact h.of_false hl
  · exact h.of_true hl ((LinkedMap.size_eraseAt_le hi).trans (h.fits_of_true hl))

theorem call (h : Bounded c s) : ∀ x : Call, Bounded c (s.call x).2
  | .set k v => h.set k v
  | .get k => h.get k
  | .del k => h.del k
  | .exists _ => h

theorem run : ∀ (xs : List Call) {s : Storage}, Bounded c s → Bounded c (s.run xs)
  | [], _, h => h
  | x :: xs, _, h => run xs (h.call x)

end Bounded

theorem setReplaying_false_le (hc : 0 < s.capacity) :
    (s.setReplaying false).items.size ≤ s.capacity :=
  trimLoop_le _ { s with replaying := false } le_rfl hc

theorem bounded_openLog (hc : 0 < c) (file : Option Bytes) (fault : Option (ℕ × ℕ)) :
    Bounded c (openLog c file fault) := by
  cases file with
  | none => exact ⟨rfl, rfl, rfl, hc, .inl (Nat.zero_le _)⟩
  | some bytes =>
    obtain ⟨hr, hcap, -⟩ := replayed_spec bytes c
    have hfits := setReplaying_false_le (s := replayed bytes c) (by rwa [hcap])
    have heq : (replayed bytes c).setReplaying false = { replayed bytes c with
        replaying := false, items := ((replayed bytes c).setReplaying false).items } :=
      trimLoop_eq _ _
    rw [hcap] at hfits
    unfold openLog
    rw [replayInto_eq]
    rw [heq] at hfits ⊢
    exact ⟨hr.disk, rfl, hcap, hc, .inl hfits⟩

/-- Whatever the log, the calls and the append that fails first, a store holds at most one key more
than its capacity, and that only with a failed log. The loop that trims it after the replay ends,
and ends within the capacity. -/
theorem capacity_kept (capacity : ℕ) (hc : 0 < capacity) (file : Option Bytes)
    (fault : Option (ℕ × ℕ)) (cs : List Call) :
    ((openLog capacity file fault).run cs).size ≤ capacity + 1
    ∧ (((openLog capacity file fault).run cs).size = capacity + 1 →
      ((openLog capacity file fault).run cs).LogFailed)
    ∧ ∀ s : Storage, s.capacity = capacity → ∀ n, s.items.size ≤ n →
      trimLoop n { s with replaying := false } = s.setReplaying false
      ∧ (s.setReplaying false).items.size ≤ capacity := by
  have h := (bounded_openLog hc file fault).run cs
  have hsize : ((openLog capacity file fault).run cs).size
      = ((openLog capacity file fault).run cs).items.size := by rw [size, h.disk]
  rw [hsize]
  refine ⟨?_, fun hover => ?_, fun s hs n hn => ?_⟩
  · rcases h.fits with hle | ⟨heq, -⟩ <;> omega
  · rcases h.fits with hle | ⟨-, hfailed⟩
    · omega
    · exact hfailed
  · subst hs
    exact ⟨trimLoop_enough n _ { s with replaying := false } hn le_rfl, setReplaying_false_le hc⟩

/-- The record of the eviction is the third, which fails. -/
theorem capacity_kept_over :
    ((openLog 1 none (some (2, 0))).run [.set [97] [1], .set [98] [2]]).size = 2
    ∧ ((openLog 1 none (some (2, 0))).run [.set [97] [1], .set [98] [2]]).LogFailed := by
  have hsize : ((openLog 1 none (some (2, 0))).run [.set [97] [1], .set [98] [2]]).size = 2 := by
    decide
  exact ⟨hsize, (capacity_kept 1 Nat.one_pos none (some (2, 0)) _).2.1 hsize⟩

end Storage

end Redon
