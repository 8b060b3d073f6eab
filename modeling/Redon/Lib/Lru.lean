import Redon.Lib.FMap

/-!
# Least recently used, by times of use

A bounded map that keeps with every key the time it was last used. A write and a read that finds its
key are uses; a key inserted beyond the capacity makes room by the removal of the key whose last use
is the oldest.

A list of the entries from the latest use to the oldest stands for such a map (`Lists`): a use puts
the entry in front, and the last entry is the one to remove (`Lists.evictOldest`).
-/

namespace Lib

variable {κ ν : Type*} [DecidableEq κ]

/-- Among the keys of `m` no use is older than that of `k`. -/
def IsOldest (m : FMap κ (ν × ℕ)) (k : κ) : Prop :=
  ∃ v t, m.lookup k = some (v, t) ∧ ∀ k' v' t', m.lookup k' = some (v', t') → t ≤ t'

open scoped Classical in
noncomputable def evictOldest (m : FMap κ (ν × ℕ)) : FMap κ (ν × ℕ) :=
  if h : ∃ k, IsOldest m k then m.erase h.choose else m

structure Lru (κ ν : Type*) where
  /-- 0 is unbounded. -/
  capacity : ℕ
  clock : ℕ
  /-- The value of a key and its last use. -/
  map : FMap κ (ν × ℕ)

namespace Lru

def empty (capacity : ℕ) : Lru κ ν := ⟨capacity, 0, ∅⟩

/-- Maps `k` to `v`, used now. -/
def use (r : Lru κ ν) (k : κ) (v : ν) : Lru κ ν :=
  { r with clock := r.clock + 1, map := r.map.insert k (v, r.clock) }

open scoped Classical in
noncomputable def set (r : Lru κ ν) (k : κ) (v : ν) : Lru κ ν :=
  if k ∉ r.map ∧ 0 < r.capacity ∧ r.capacity < (r.use k v).map.keys.card then
    { r.use k v with map := evictOldest (r.use k v).map }
  else r.use k v

def get (r : Lru κ ν) (k : κ) : Option ν × Lru κ ν :=
  match r.map.lookup k with
  | some (v, _) => (some v, r.use k v)
  | none => (none, r)

def del (r : Lru κ ν) (k : κ) : Lru κ ν := { r with map := r.map.erase k }

def has (r : Lru κ ν) (k : κ) : Bool := (r.map.lookup k).isSome

end Lru

/-- The entries of `r` with their times, from the latest use to the oldest. -/
structure Lists (r : Lru κ ν) (l : List (κ × ν × ℕ)) : Prop where
  nodup : (l.map Prod.fst).Nodup
  falling : l.Pairwise fun e e' => e'.2.2 < e.2.2
  past : ∀ e ∈ l, e.2.2 < r.clock
  map_eq : r.map = mapOf l

namespace Lists

variable {r : Lru κ ν} {l : List (κ × ν × ℕ)}

theorem empty (capacity : ℕ) : Lists (Lru.empty capacity : Lru κ ν) [] :=
  ⟨List.nodup_nil, .nil, nofun, rfl⟩

theorem lookup (h : Lists r l) {k : κ} {v : ν} {t : ℕ} :
    r.map.lookup k = some (v, t) ↔ (k, v, t) ∈ l := by
  rw [h.map_eq, lookup_mapOf h.nodup]

theorem lookup_none (h : Lists r l) {k : κ} : r.map.lookup k = none ↔ k ∉ l.map Prod.fst := by
  rw [h.map_eq, Finmap.lookup_eq_none, mem_mapOf]

theorem del (h : Lists r l) (k : κ) : Lists (r.del k) (l.filter fun e => e.1 ≠ k) where
  nodup := h.nodup.sublist (List.filter_sublist.map _)
  falling := h.falling.sublist List.filter_sublist
  past := fun e he => h.past e (List.mem_of_mem_filter he)
  map_eq := by
    rw [mapOf_filter_ne h.nodup, ← h.map_eq]
    rfl

/-- A use puts the entry in front. -/
theorem use (h : Lists r l) (k : κ) (v : ν) :
    Lists (r.use k v) ((k, v, r.clock) :: l.filter fun e => e.1 ≠ k) where
  nodup := by
    rw [List.map_cons, List.nodup_cons]
    refine ⟨fun hk => ?_, (h.del k).nodup⟩
    obtain ⟨e, he, rfl⟩ := List.mem_map.1 hk
    simp at he
  falling := List.pairwise_cons.2 ⟨(h.del k).past, (h.del k).falling⟩
  past := by
    intro e he
    rcases List.mem_cons.1 he with rfl | he
    · exact Nat.lt_succ_self _
    · exact Nat.lt_succ_of_lt ((h.del k).past e he)
  map_eq := by
    rw [mapOf_cons, ← (h.del k).map_eq]
    refine fmap_ext fun k' x => ?_
    simp only [Lru.use, Lru.del, lookup_insert_iff, lookup_erase_iff]
    tauto

theorem isOldest_iff {e : κ × ν × ℕ} (h : Lists r (l ++ [e])) {k : κ} :
    IsOldest r.map k ↔ k = e.1 := by
  have hmem : e ∈ l ++ [e] := by simp
  have hlater : ∀ e' ∈ l, e.2.2 < e'.2.2 := fun e' he' =>
    (List.pairwise_append.1 h.falling).2.2 e' he' e (List.mem_singleton_self e)
  constructor
  · rintro ⟨v, t, hk, hall⟩
    have hle : t ≤ e.2.2 := hall e.1 e.2.1 e.2.2 (h.lookup.2 hmem)
    rcases List.mem_append.1 (h.lookup.1 hk) with hl | hl
    · exact absurd (hlater _ hl) (not_lt.2 hle)
    · rw [← List.mem_singleton.1 hl]
  · rintro rfl
    refine ⟨e.2.1, e.2.2, h.lookup.2 hmem, fun k' v' t' hk' => ?_⟩
    rcases List.mem_append.1 (h.lookup.1 hk') with hl | hl
    · exact (hlater _ hl).le
    · rw [← List.mem_singleton.1 hl]

/-- The last entry is the one that is removed. -/
theorem evictOldest {e : κ × ν × ℕ} (h : Lists r (l ++ [e])) :
    Lists { r with map := evictOldest r.map } l where
  nodup := h.nodup.sublist ((List.sublist_append_left l [e]).map _)
  falling := (List.pairwise_append.1 h.falling).1
  past := fun e' he' => h.past e' (List.mem_append_left _ he')
  map_eq := by
    have hex : ∃ k, IsOldest r.map k := ⟨e.1, h.isOldest_iff.2 rfl⟩
    have hnd := h.nodup
    rw [List.map_append, List.nodup_append] at hnd
    rw [Lib.evictOldest, dif_pos hex, h.isOldest_iff.1 hex.choose_spec, h.map_eq,
      ← mapOf_filter_ne h.nodup, List.filter_append, List.filter_eq_self.2 fun e' he' => ?_]
    · simp
    · simpa using hnd.2.2 _ (List.mem_map_of_mem he') e.1 (by simp)

end Lists

end Lib
