import Mathlib.Data.Finmap

/-!
# Finite maps from lists of entries

`FMap κ ν` is Mathlib's `Finmap` with one type of values. `mapOf l` is the map a list of entries
stands for; when no key repeats, a key is mapped to a value exactly if the pair is in the list
(`lookup_mapOf`).
-/

namespace Lib

variable {κ ν : Type*}

abbrev FMap (κ ν : Type*) := Finmap fun _ : κ => ν

variable [DecidableEq κ]

/-- The map of a list of entries, the first of a key's entries counting. -/
def mapOf (l : List (κ × ν)) : FMap κ ν := (l.map fun p => (⟨p.1, p.2⟩ : Σ _ : κ, ν)).toFinmap

@[simp] theorem mapOf_nil : mapOf ([] : List (κ × ν)) = ∅ := rfl

@[simp] theorem mapOf_cons (k : κ) (v : ν) (l : List (κ × ν)) :
    mapOf ((k, v) :: l) = (mapOf l).insert k v := by
  simp [mapOf, Finmap.toFinmap_cons]

theorem fmap_ext {m m' : FMap κ ν} (h : ∀ k v, m.lookup k = some v ↔ m'.lookup k = some v) :
    m = m' :=
  Finmap.ext_lookup fun k => Option.ext fun v => h k v

theorem lookup_insert_iff {m : FMap κ ν} {k k' : κ} {v v' : ν} :
    (m.insert k v).lookup k' = some v'
      ↔ (k' = k ∧ v' = v) ∨ (k' ≠ k ∧ m.lookup k' = some v') := by
  by_cases h : k' = k
  · subst h
    simp [Finmap.lookup_insert, eq_comm]
  · simp [Finmap.lookup_insert_of_ne m h, h]

theorem lookup_erase_iff {m : FMap κ ν} {k k' : κ} {v : ν} :
    (m.erase k).lookup k' = some v ↔ k' ≠ k ∧ m.lookup k' = some v := by
  by_cases h : k' = k
  · subst h
    simp [Finmap.lookup_erase]
  · simp [Finmap.lookup_erase_ne h, h]

theorem erase_of_lookup_none {m : FMap κ ν} {k : κ} (h : m.lookup k = none) : m.erase k = m := by
  refine fmap_ext fun k' v => ?_
  rw [lookup_erase_iff, and_iff_right_iff_imp]
  rintro hv rfl
  rw [h] at hv
  cases hv

theorem lookup_mapOf : ∀ {l : List (κ × ν)}, (l.map Prod.fst).Nodup → ∀ {k : κ} {v : ν},
    (mapOf l).lookup k = some v ↔ (k, v) ∈ l
  | [], _, k, v => by simp
  | (k', v') :: l, h, k, v => by
    rw [List.map_cons, List.nodup_cons] at h
    rw [mapOf_cons, lookup_insert_iff, lookup_mapOf h.2, List.mem_cons, Prod.mk.injEq]
    constructor
    · rintro (hk | ⟨-, hm⟩)
      · exact .inl hk
      · exact .inr hm
    · rintro (hk | hm)
      · exact .inl hk
      · refine .inr ⟨?_, hm⟩
        rintro rfl
        exact h.1 (List.mem_map.2 ⟨_, hm, rfl⟩)

theorem mem_mapOf {l : List (κ × ν)} {k : κ} : k ∈ mapOf l ↔ k ∈ l.map Prod.fst := by
  induction l with
  | nil => simp [Finmap.notMem_empty]
  | cons p l ih =>
    obtain ⟨k', v'⟩ := p
    simp [Finmap.mem_insert, ih]

theorem card_keys_mapOf {l : List (κ × ν)} (h : (l.map Prod.fst).Nodup) :
    (mapOf l).keys.card = l.length := by
  have hk : (mapOf l).keys = (l.map Prod.fst).toFinset := by
    ext k
    rw [Finmap.mem_keys, mem_mapOf, List.mem_toFinset]
  rw [hk, List.toFinset_card_of_nodup h, List.length_map]

theorem mapOf_filter_ne {l : List (κ × ν)} (h : (l.map Prod.fst).Nodup) (k : κ) :
    mapOf (l.filter fun p => p.1 ≠ k) = (mapOf l).erase k := by
  have hf : ((l.filter fun p => p.1 ≠ k).map Prod.fst).Nodup :=
    h.sublist (List.filter_sublist.map _)
  refine fmap_ext fun k' v => ?_
  rw [lookup_mapOf hf, lookup_erase_iff, lookup_mapOf h, List.mem_filter]
  simp [and_comm]

end Lib
