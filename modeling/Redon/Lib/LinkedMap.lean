import Redon.Lib.FMap

/-!
# A list of nodes with an index

A list of key-value nodes in an order its user chooses, and an index from each key to the handle of
its node, as in a linked list of entries with a hash table of iterators. Nodes are found, moved,
rewritten and removed through their handles; `LinkedMap` carries the proof that the index names
exactly the nodes in the list.

Seen as a list of entries (`entries`), moving a node to the front takes its entry out and puts it
first, and the entries' keys never repeat (`nodup_keys`).
-/

namespace Lib

variable {κ ν : Type*}

/-- A node of the list, with its handle. -/
structure Node (κ ν : Type*) where
  id : ℕ
  key : κ
  val : ν
  deriving DecidableEq, Repr

/-- A list of nodes and the index of their keys. -/
structure LinkedMap (κ ν : Type*) [DecidableEq κ] where
  nodes : List (Node κ ν)
  index : AList fun _ : κ => ℕ
  /-- The next handle. -/
  next : ℕ
  nodup_ids : (nodes.map Node.id).Nodup
  id_lt_next : ∀ n ∈ nodes, n.id < next
  index_iff : ∀ k i, index.lookup k = some i ↔ ∃ n ∈ nodes, n.key = k ∧ n.id = i

namespace LinkedMap

variable [DecidableEq κ]

def empty : LinkedMap κ ν where
  nodes := []
  index := ∅
  next := 0
  nodup_ids := List.nodup_nil
  id_lt_next := by simp
  index_iff := by simp

def entries (m : LinkedMap κ ν) : List (κ × ν) := m.nodes.map fun n => (n.key, n.val)

def toMap (m : LinkedMap κ ν) : FMap κ ν := mapOf m.entries

def size (m : LinkedMap κ ν) : ℕ := m.index.keys.length

def nodeAt (m : LinkedMap κ ν) (i : ℕ) : Option (Node κ ν) := m.nodes.find? fun n => n.id == i

/-- The value `k` is mapped to, found through the index. -/
def get? (m : LinkedMap κ ν) (k : κ) : Option ν :=
  (m.index.lookup k).bind fun i => (m.nodeAt i).map Node.val

/-- Moves the node `i` names to the front. -/
def splice (m : LinkedMap κ ν) (i : ℕ) : LinkedMap κ ν where
  nodes := m.nodes.filter (fun n => n.id == i) ++ m.nodes.filter (fun n => !(n.id == i))
  index := m.index
  next := m.next
  nodup_ids := ((List.filter_append_perm _ _).map _).nodup_iff.2 m.nodup_ids
  id_lt_next := fun n hn => m.id_lt_next n ((List.filter_append_perm _ _).mem_iff.1 hn)
  index_iff := fun k i => (m.index_iff k i).trans
    (exists_congr fun _ => and_congr_left fun _ => (List.filter_append_perm _ _).mem_iff.symm)

/-- Rewrites the value of the node `i` names. -/
def setVal (m : LinkedMap κ ν) (i : ℕ) (v : ν) : LinkedMap κ ν where
  nodes := m.nodes.map fun n => if n.id == i then { n with val := v } else n
  index := m.index
  next := m.next
  nodup_ids := by
    rw [List.map_map]
    have : (Node.id ∘ fun n : Node κ ν => if n.id == i then { n with val := v } else n)
        = Node.id := by
      funext n
      simp only [Function.comp]
      split <;> rfl
    rw [this]
    exact m.nodup_ids
  id_lt_next := by
    intro n hn
    obtain ⟨n', hn', rfl⟩ := List.mem_map.1 hn
    split <;> exact m.id_lt_next n' hn'
  index_iff := by
    intro k j
    rw [m.index_iff]
    constructor
    · rintro ⟨n, hn, hk, hj⟩
      refine ⟨_, List.mem_map_of_mem hn, ?_⟩
      split <;> exact ⟨hk, hj⟩
    · rintro ⟨n, hn, hk, hj⟩
      obtain ⟨n', hn', rfl⟩ := List.mem_map.1 hn
      refine ⟨n', hn', ?_⟩
      split at hk <;> split at hj <;> exact ⟨hk, hj⟩

/-- Puts a node for `k`, not in the index yet, at the front. -/
def emplaceFront (m : LinkedMap κ ν) (k : κ) (v : ν) (h : m.index.lookup k = none) :
    LinkedMap κ ν where
  nodes := ⟨m.next, k, v⟩ :: m.nodes
  index := m.index.insert k m.next
  next := m.next + 1
  nodup_ids := by
    rw [List.map_cons, List.nodup_cons]
    refine ⟨fun hm => ?_, m.nodup_ids⟩
    obtain ⟨n, hn, hid⟩ := List.mem_map.1 hm
    exact absurd (m.id_lt_next n hn) (by rw [hid]; exact lt_irrefl _)
  id_lt_next := by
    intro n hn
    rcases List.mem_cons.1 hn with rfl | hn
    · exact Nat.lt_succ_self _
    · exact Nat.lt_succ_of_lt (m.id_lt_next n hn)
  index_iff := by
    intro k' i
    by_cases hk : k' = k
    · subst hk
      rw [AList.lookup_insert, Option.some.injEq]
      constructor
      · rintro rfl
        exact ⟨_, List.mem_cons_self, rfl, rfl⟩
      · rintro ⟨n, hn, hkey, hid⟩
        rcases List.mem_cons.1 hn with rfl | hn
        · exact hid
        · have := (m.index_iff k' i).2 ⟨n, hn, hkey, hid⟩
          rw [h] at this
          cases this
    · rw [AList.lookup_insert_ne hk, m.index_iff]
      constructor
      · rintro ⟨n, hn, hn'⟩
        exact ⟨n, List.mem_cons_of_mem _ hn, hn'⟩
      · rintro ⟨n, hn, hkey, hid⟩
        rcases List.mem_cons.1 hn with rfl | hn
        · exact absurd hkey.symm hk
        · exact ⟨n, hn, hkey, hid⟩

theorem eq_of_id_eq (m : LinkedMap κ ν) {n n' : Node κ ν} (hn : n ∈ m.nodes) (hn' : n' ∈ m.nodes)
    (h : n.id = n'.id) : n = n' :=
  List.inj_on_of_nodup_map m.nodup_ids hn hn' h

/-- Removes `k` and the node `i` its index entry names. -/
def eraseAt (m : LinkedMap κ ν) (k : κ) (i : ℕ) (h : m.index.lookup k = some i) :
    LinkedMap κ ν where
  nodes := m.nodes.filter fun n => !(n.id == i)
  index := m.index.erase k
  next := m.next
  nodup_ids := m.nodup_ids.sublist (List.filter_sublist.map _)
  id_lt_next := fun n hn => m.id_lt_next n (List.mem_of_mem_filter hn)
  index_iff := by
    intro k' j
    obtain ⟨n₀, hn₀, hk₀, hi₀⟩ := (m.index_iff k i).1 h
    by_cases hk : k' = k
    · subst hk
      rw [AList.lookup_erase]
      constructor
      · intro hc
        cases hc
      · rintro ⟨n, hn, hkey, hid⟩
        have hn' := List.mem_filter.1 hn
        have := (m.index_iff k' j).2 ⟨n, hn'.1, hkey, hid⟩
        rw [h, Option.some.injEq] at this
        simp [hid, this] at hn'
    · rw [AList.lookup_erase_ne hk, m.index_iff]
      constructor
      · rintro ⟨n, hn, hkey, hid⟩
        refine ⟨n, List.mem_filter.2 ⟨hn, ?_⟩, hkey, hid⟩
        have : n.id ≠ i := by
          rintro rfl
          have := m.eq_of_id_eq hn hn₀ hi₀.symm
          rw [this] at hkey
          exact hk (hkey.symm.trans hk₀)
        simpa using this
      · rintro ⟨n, hn, hn'⟩
        exact ⟨n, List.mem_of_mem_filter hn, hn'⟩

def back? (m : LinkedMap κ ν) : Option (κ × ν) := m.entries.getLast?

theorem lookup_of_mem (m : LinkedMap κ ν) {n : Node κ ν} (h : n ∈ m.nodes) :
    m.index.lookup n.key = some n.id :=
  (m.index_iff n.key n.id).2 ⟨n, h, rfl, rfl⟩

/-- Drops the last node and its key's index entry. -/
def popBack (m : LinkedMap κ ν) : LinkedMap κ ν :=
  match h : m.nodes.getLast? with
  | none => m
  | some n =>
    { nodes := m.nodes.dropLast
      index := m.index.erase n.key
      next := m.next
      nodup_ids := m.nodup_ids.sublist ((List.dropLast_sublist _).map _)
      id_lt_next := fun n hn => m.id_lt_next n (List.mem_of_mem_dropLast hn)
      index_iff := by
        have hsplit : m.nodes.dropLast ++ [n] = m.nodes := List.dropLast_append_getLast? n h
        intro k j
        have hn : n ∈ m.nodes := List.mem_of_getLast? h
        by_cases hk : k = n.key
        · subst hk
          rw [AList.lookup_erase]
          constructor
          · intro hc
            cases hc
          · rintro ⟨n', hn', hkey, hid⟩
            have h1 := m.lookup_of_mem (List.mem_of_mem_dropLast hn')
            rw [hkey, m.lookup_of_mem hn, Option.some.injEq] at h1
            have h2 := m.eq_of_id_eq hn (List.mem_of_mem_dropLast hn') h1
            have h3 := m.nodup_ids
            rw [← hsplit, List.map_append, List.nodup_append] at h3
            exact absurd h1.symm (h3.2.2 _ (List.mem_map_of_mem hn') _ (by simp))
        · rw [AList.lookup_erase_ne hk, m.index_iff]
          constructor
          · rintro ⟨n', hn', hkey, hid⟩
            rw [← hsplit, List.mem_append, List.mem_singleton] at hn'
            rcases hn' with hn' | rfl
            · exact ⟨n', hn', hkey, hid⟩
            · exact absurd hkey.symm hk
          · rintro ⟨n', hn', hr⟩
            exact ⟨n', List.mem_of_mem_dropLast hn', hr⟩ }

/-! ## The entries -/

section Entries

variable {m : LinkedMap κ ν} {k : κ} {i : ℕ} {v w : ν}

theorem nodup_keys (m : LinkedMap κ ν) : (m.entries.map Prod.fst).Nodup := by
  have hkey : (m.nodes.map Node.key).Nodup := by
    refine List.Nodup.map_on (fun n hn n' hn' h => ?_) m.nodup_ids.of_map
    have h1 := m.lookup_of_mem hn
    rw [h, m.lookup_of_mem hn', Option.some.injEq] at h1
    exact m.eq_of_id_eq hn hn' h1.symm
  simpa [entries, Function.comp_def] using hkey

theorem mem_entries : (k, v) ∈ m.entries ↔ ∃ n ∈ m.nodes, n.key = k ∧ n.val = v := by
  simp [entries]

theorem lookup_toMap : m.toMap.lookup k = some v ↔ (k, v) ∈ m.entries :=
  lookup_mapOf m.nodup_keys

theorem index_eq_none : m.index.lookup k = none ↔ k ∉ m.entries.map Prod.fst := by
  rw [Option.eq_none_iff_forall_ne_some]
  constructor
  · intro h hk
    simp only [entries, List.map_map, List.mem_map, Function.comp] at hk
    obtain ⟨n, hn, rfl⟩ := hk
    exact h n.id (m.lookup_of_mem hn)
  · intro h i hi
    obtain ⟨n, hn, rfl, -⟩ := (m.index_iff k i).1 hi
    refine h ?_
    simp only [entries, List.map_map, List.mem_map, Function.comp]
    exact ⟨n, hn, rfl⟩

theorem nodeAt_of_mem {n : Node κ ν} (h : n ∈ m.nodes) : m.nodeAt n.id = some n := by
  unfold nodeAt
  rw [List.find?_eq_some_iff_append]
  obtain ⟨l, r, hlr⟩ := List.append_of_mem h
  refine ⟨by simp, l, r, hlr, fun n' hn' => ?_⟩
  have hnd := m.nodup_ids
  rw [hlr, List.map_append, List.nodup_append] at hnd
  simpa using hnd.2.2 _ (List.mem_map_of_mem hn') _ (by simp)

theorem get?_eq_some : m.get? k = some v ↔ (k, v) ∈ m.entries := by
  rw [mem_entries]
  unfold get?
  constructor
  · intro h
    obtain ⟨i, hi, hv⟩ := Option.bind_eq_some_iff.1 h
    obtain ⟨n, hn, rfl, rfl⟩ := (m.index_iff k i).1 hi
    rw [nodeAt_of_mem hn] at hv
    exact ⟨n, hn, rfl, Option.some.inj hv⟩
  · rintro ⟨n, hn, rfl, rfl⟩
    rw [m.lookup_of_mem hn]
    simp [nodeAt_of_mem hn]

theorem get?_eq_lookup (m : LinkedMap κ ν) (k : κ) : m.get? k = m.toMap.lookup k :=
  Option.ext fun v => by rw [get?_eq_some, lookup_toMap]

theorem size_eq_length (m : LinkedMap κ ν) : m.size = m.entries.length := by
  have hperm : m.index.keys.Perm (m.entries.map Prod.fst) := by
    refine (List.perm_ext_iff_of_nodup m.index.keys_nodup m.nodup_keys).2 fun k => ?_
    rw [← AList.mem_keys, ← not_iff_not, ← AList.lookup_eq_none, index_eq_none]
  unfold size
  rw [hperm.length_eq, List.length_map]

theorem size_eq_card (m : LinkedMap κ ν) : m.size = m.toMap.keys.card := by
  rw [size_eq_length, toMap, card_keys_mapOf m.nodup_keys]

@[simp] theorem entries_empty : (empty : LinkedMap κ ν).entries = [] := rfl

@[simp] theorem toMap_empty : (empty : LinkedMap κ ν).toMap = ∅ := rfl

@[simp] theorem entries_emplaceFront (h : m.index.lookup k = none) :
    (m.emplaceFront k v h).entries = (k, v) :: m.entries := rfl

@[simp] theorem toMap_emplaceFront (h : m.index.lookup k = none) :
    (m.emplaceFront k v h).toMap = m.toMap.insert k v :=
  mapOf_cons k v m.entries

/-- The node a key's index entry names is the only one with that handle, and with that key. -/
theorem id_beq_iff (h : m.index.lookup k = some i) {n : Node κ ν} (hn : n ∈ m.nodes) :
    n.id = i ↔ n.key = k := by
  obtain ⟨n₀, hn₀, rfl, rfl⟩ := (m.index_iff k i).1 h
  constructor
  · intro hid
    rw [m.eq_of_id_eq hn hn₀ hid]
  · intro hk
    have h1 := m.lookup_of_mem hn
    rw [hk, h, Option.some.injEq] at h1
    exact h1.symm

theorem map_filter_id (h : m.index.lookup k = some i) :
    (m.nodes.filter fun n => !(n.id == i)).map (fun n => (n.key, n.val))
      = m.entries.filter fun p => p.1 ≠ k := by
  unfold entries
  rw [List.filter_map]
  refine congrArg _ (List.filter_congr fun n hn => ?_)
  rw [Bool.eq_iff_iff]
  simp [id_beq_iff h hn]

theorem filter_id {n : Node κ ν} (hn : n ∈ m.nodes) (hi : n.id = i) :
    (m.nodes.filter fun n => n.id == i) = [n] := by
  obtain ⟨l, r, hlr⟩ := List.append_of_mem hn
  have hnd := m.nodup_ids
  rw [hlr, List.map_append, List.map_cons, List.nodup_append, List.nodup_cons] at hnd
  have hl : ∀ n' ∈ l, ¬ n'.id = i := fun n' hn' he =>
    hnd.2.2 _ (List.mem_map_of_mem hn') _ List.mem_cons_self (he.trans hi.symm)
  have hr : ∀ n' ∈ r, ¬ n'.id = i := fun n' hn' he =>
    hnd.2.1.1 (List.mem_map.2 ⟨n', hn', he.trans hi.symm⟩)
  rw [hlr, List.filter_append, List.filter_cons_of_pos (by simpa using hi),
    List.filter_eq_nil_iff.2 (by simpa using hl), List.filter_eq_nil_iff.2 (by simpa using hr)]
  rfl

theorem entries_splice (h : m.index.lookup k = some i) (hv : m.get? k = some v) :
    (m.splice i).entries = (k, v) :: m.entries.filter fun p => p.1 ≠ k := by
  obtain ⟨n, hn, rfl, rfl⟩ := mem_entries.1 (get?_eq_some.1 hv)
  have hi : n.id = i := (id_beq_iff h hn).2 rfl
  rw [← map_filter_id h]
  simp [entries, splice, filter_id hn hi]

theorem toMap_splice (m : LinkedMap κ ν) (i : ℕ) : (m.splice i).toMap = m.toMap := by
  refine fmap_ext fun k v => ?_
  rw [lookup_toMap, lookup_toMap, mem_entries, mem_entries]
  refine exists_congr fun n => and_congr_left fun _ => ?_
  exact (List.filter_append_perm _ _).mem_iff

@[simp] theorem index_setVal (m : LinkedMap κ ν) (i : ℕ) (v : ν) :
    (m.setVal i v).index = m.index := rfl

theorem get?_setVal (h : m.index.lookup k = some i) : (m.setVal i w).get? k = some w := by
  obtain ⟨n, hn, rfl, rfl⟩ := (m.index_iff k i).1 h
  rw [get?_eq_some, mem_entries]
  exact ⟨{ n with val := w }, List.mem_map.2 ⟨n, hn, by simp⟩, rfl, rfl⟩

theorem filter_setVal (h : m.index.lookup k = some i) :
    (m.setVal i w).entries.filter (fun p => p.1 ≠ k) = m.entries.filter fun p => p.1 ≠ k := by
  rw [← map_filter_id h, ← map_filter_id (m := m.setVal i w) h]
  simp only [setVal, List.filter_map, List.map_map]
  have hid : ((fun n : Node κ ν => !(n.id == i)) ∘
      fun n => if n.id == i then { n with val := w } else n) = fun n => !(n.id == i) := by
    funext n
    simp only [Function.comp]
    split <;> simp_all
  rw [hid]
  refine List.map_congr_left fun n hn => ?_
  have : n.id ≠ i := by simpa using (List.mem_filter.1 hn).2
  simp [this]

theorem entries_setVal_splice (h : m.index.lookup k = some i) :
    ((m.setVal i w).splice i).entries = (k, w) :: m.entries.filter fun p => p.1 ≠ k := by
  rw [entries_splice (m := m.setVal i w) h (get?_setVal h), filter_setVal h]

theorem toMap_setVal_splice (h : m.index.lookup k = some i) :
    ((m.setVal i w).splice i).toMap = m.toMap.insert k w := by
  unfold toMap
  rw [entries_setVal_splice h, mapOf_cons, mapOf_filter_ne m.nodup_keys]
  refine fmap_ext fun k' v => ?_
  simp only [lookup_insert_iff, lookup_erase_iff]
  tauto

@[simp] theorem entries_eraseAt (h : m.index.lookup k = some i) :
    (m.eraseAt k i h).entries = m.entries.filter fun p => p.1 ≠ k :=
  map_filter_id h

@[simp] theorem toMap_eraseAt (h : m.index.lookup k = some i) :
    (m.eraseAt k i h).toMap = m.toMap.erase k := by
  unfold toMap
  rw [entries_eraseAt, mapOf_filter_ne m.nodup_keys]

@[simp] theorem entries_popBack (m : LinkedMap κ ν) : m.popBack.entries = m.entries.dropLast := by
  unfold popBack entries
  split
  · rename_i h
    rw [List.getLast?_eq_none_iff] at h
    simp [h]
  · simp

theorem entries_eq_of_back {p : κ × ν} (h : m.back? = some p) :
    m.entries = m.popBack.entries ++ [p] := by
  rw [entries_popBack, List.dropLast_append_getLast? p h]

theorem toMap_popBack (h : m.back? = some (k, v)) : m.popBack.toMap = m.toMap.erase k := by
  have hnd := m.nodup_keys
  rw [entries_eq_of_back h, List.map_append, List.nodup_append] at hnd
  refine fmap_ext fun k' v' => ?_
  rw [lookup_toMap, lookup_erase_iff, lookup_toMap, entries_eq_of_back h, List.mem_append,
    List.mem_singleton, Prod.mk.injEq]
  constructor
  · intro hm
    exact ⟨hnd.2.2 k' (List.mem_map_of_mem hm) k (by simp), .inl hm⟩
  · rintro ⟨hne, hm | ⟨rfl, -⟩⟩
    · exact hm
    · exact absurd rfl hne

theorem back?_isSome (h : 0 < m.size) : ∃ p, m.back? = some p := by
  rw [size_eq_length] at h
  exact ⟨_, List.getLast?_eq_some_getLast (List.ne_nil_of_length_pos h)⟩

theorem size_popBack (m : LinkedMap κ ν) : m.popBack.size = m.size - 1 := by
  rw [size_eq_length, size_eq_length, entries_popBack, List.length_dropLast]

theorem size_splice (m : LinkedMap κ ν) (i : ℕ) : (m.splice i).size = m.size := rfl

theorem size_setVal (m : LinkedMap κ ν) (i : ℕ) (v : ν) : (m.setVal i v).size = m.size := rfl

theorem size_emplaceFront (h : m.index.lookup k = none) :
    (m.emplaceFront k v h).size = m.size + 1 := by
  rw [size_eq_length, size_eq_length, entries_emplaceFront, List.length_cons]

theorem size_eraseAt_le (h : m.index.lookup k = some i) : (m.eraseAt k i h).size ≤ m.size := by
  rw [size_eq_length, size_eq_length, entries_eraseAt]
  exact List.length_filter_le _ _

end Entries

end LinkedMap

end Lib
