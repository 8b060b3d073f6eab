import Redon.DiskStore
import Redon.Proofs.Scan

/-!
# What the on-disk engine's operations do

The recovery scan reads what the log's replay reads (`scanRecord_eq`): skipping over a value and
reading it end at the same byte or both fail. So a scan of any file rebuilds an index that points at
every key's latest value (`scanIndex_points`), and what follows the complete records is cut off.
`Rep m d` says that `d` is in working order and stands for the map `m`; opening a file of complete
records and part of one more gives such a store, compacted or not, and every operation keeps it so.
-/

namespace Redon

open Lib Lib.IStream Mutation

namespace DiskStore

section Scan

/-- What the scan makes of a record that ends before offset `stop`. -/
def Scanned.ofRecord (stop : ℕ) : Mutation → Scanned
  | .set k v => .set k ⟨stop - 1 - v.length, v.length⟩
  | .del k => .del k

theorem scan_value {s : IStream} (hg : s.good = true) (key : Bytes) (n : ℕ) :
    (if (s.seekCur n).failbit then none
      else if (s.seekCur n).get.1 = some 10 then
        some (Scanned.set key ⟨s.pos, n⟩, (s.seekCur n).get.2) else none)
    = (if (s.read n).2.failbit then none
      else if (s.read n).2.get.1 = some 10 then
        some (Mutation.set key (s.read n).1, (s.read n).2.get.2) else none).map
          fun x => (Scanned.ofRecord x.2.pos x.1, x.2) := by
  obtain ⟨r, p, e, f⟩ := s
  obtain ⟨rfl, rfl⟩ := good_iff.1 hg
  by_cases hn : r.length < n
  · have hd : r.drop n = [] := List.drop_eq_nil_of_le (by omega)
    simp [seekCur, advance, IStream.read, hn, hd, IStream.get, good]
  · have hlen : min n r.length = n := by omega
    rcases hr : r.drop n with _ | ⟨c, q⟩ <;>
      simp only [seekCur, advance, IStream.read, hn, hr, IStream.get, good, Bool.not_false,
        Bool.and_self, if_true, if_false, Bool.false_eq_true]
    · rfl
    · split_ifs with hc
      · simp only [Option.map_some, Scanned.ofRecord, List.length_take, hlen]
        rw [show p + n + 1 - 1 - n = p by omega]
      · rfl

/-- The scan and the replay read the same records. -/
theorem scanRecord_eq (s : IStream) : scanRecord s
    = (Wal.readRecord s).map fun x => (Scanned.ofRecord x.2.pos x.1, x.2) := by
  unfold scanRecord Wal.readRecord
  simp only []
  by_cases h1 : s.getToken.2.failbit = true
  · rw [if_pos h1, if_pos h1]
    rfl
  rw [if_neg h1, if_neg h1]
  by_cases h2 : s.getToken.1 = ascii "SET"
  · rw [if_pos h2, if_pos h2]
    rcases hh : readSetHeader s.getToken.2 with _ | ⟨⟨kl, vl⟩, t⟩
    · rfl
    · simp only []
      by_cases h3 : (t.read kl).2.failbit = true
      · rw [if_pos h3, if_pos (read_of_failbit h3 vl)]
        rfl
      · rw [if_neg h3]
        exact scan_value (good_of_read h3) _ vl
  rw [if_neg h2, if_neg h2]
  by_cases h3 : s.getToken.1 = ascii "DEL"
  · rw [if_pos h3, if_pos h3]
    rcases hh : readDelHeader s.getToken.2 with _ | ⟨kl, t⟩
    · rfl
    · simp only []
      split_ifs <;> rfl
  · rw [if_neg h3, if_neg h3]
    rfl

end Scan

section Points

/-- Every entry of the index lies inside the file, and what is there are the values of `m`. -/
structure Points (bytes : Bytes) (index : Index) (m : Map) : Prop where
  inside : ∀ k e, index.lookup k = some e → e.valuePos + e.valueLen ≤ bytes.length
  read : ∀ k, m.lookup k = (index.lookup k).bind (readAt bytes)

variable {bytes : Bytes} {index : Index} {m : Map} {k v : Bytes} {e : Entry}

theorem readAt_inside (h : e.valuePos + e.valueLen ≤ bytes.length) :
    readAt bytes e = some ((bytes.drop e.valuePos).take e.valueLen) := by
  rw [readAt, if_pos (.inr h)]

theorem readAt_append (h : e.valuePos + e.valueLen ≤ bytes.length) (t : Bytes) :
    readAt (bytes ++ t) e = readAt bytes e := by
  have h' : e.valuePos + e.valueLen ≤ (bytes ++ t).length := by
    rw [List.length_append]
    omega
  rw [readAt_inside h, readAt_inside h', List.drop_append_of_le_length (by omega),
    List.take_append_of_le_length (by rw [List.length_drop]; omega)]

theorem readAt_value (b hd k v : Bytes) :
    readAt (b ++ (hd ++ (Mutation.set k v).body)) ⟨b.length + hd.length + k.length, v.length⟩
      = some v := by
  have hsplit : b ++ (hd ++ (Mutation.set k v).body) = (b ++ hd ++ k) ++ (v ++ ascii "\n") := by
    simp [body]
  have hlen : b.length + hd.length + k.length = (b ++ hd ++ k).length := by
    simp [Nat.add_assoc]
  rw [hsplit, hlen, readAt_inside, List.drop_left, List.take_left]
  simp only [List.length_append]
  omega

/-- Where the value of a `SET` record appended to `bytes` is. -/
def valueAt (bytes k v : Bytes) : Entry :=
  ⟨bytes.length + (Mutation.set k v).header.length + k.length, v.length⟩

theorem Points.append (h : Points bytes index m) (t : Bytes) : Points (bytes ++ t) index m := by
  refine ⟨fun k e he => ?_, fun k => ?_⟩
  · rw [List.length_append]
    have := h.inside k e he
    omega
  · rw [h.read k]
    rcases he : index.lookup k with _ | e
    · rfl
    · exact (readAt_append (h.inside k e he) t).symm

theorem Points.insert (h : Points bytes index m) (hd k v : Bytes) :
    Points (bytes ++ (hd ++ (Mutation.set k v).body))
      (index.insert k ⟨bytes.length + hd.length + k.length, v.length⟩) (m.insert k v) := by
  have h' := h.append (hd ++ (Mutation.set k v).body)
  refine ⟨fun k' e he => ?_, fun k' => ?_⟩
  · by_cases hk : k' = k
    · subst hk
      rw [AList.lookup_insert, Option.some.injEq] at he
      rw [← he]
      simp only [body, List.length_append]
      omega
    · rw [AList.lookup_insert_ne hk] at he
      exact h'.inside k' e he
  · by_cases hk : k' = k
    · subst hk
      rw [AList.lookup_insert, Finmap.lookup_insert]
      exact (readAt_value bytes hd k' v).symm
    · rw [AList.lookup_insert_ne hk, Finmap.lookup_insert_of_ne _ hk]
      exact h'.read k'

theorem Points.set (h : Points bytes index m) (k v : Bytes) :
    Points (bytes ++ (Mutation.set k v).encode) (index.insert k (valueAt bytes k v))
      (m.insert k v) :=
  h.insert (Mutation.set k v).header k v

theorem Points.del (h : Points bytes index m) (k t : Bytes) :
    Points (bytes ++ t) (index.erase k) (m.erase k) := by
  have h' := h.append t
  refine ⟨fun k' e he => ?_, fun k' => ?_⟩
  · by_cases hk : k' = k
    · subst hk
      rw [AList.lookup_erase] at he
      cases he
    · rw [AList.lookup_erase_ne hk] at he
      exact h'.inside k' e he
  · by_cases hk : k' = k
    · subst hk
      rw [AList.lookup_erase, Finmap.lookup_erase]
      rfl
    · rw [AList.lookup_erase_ne hk, Finmap.lookup_erase_ne hk]
      exact h'.read k'

theorem points_empty : Points [] ∅ ∅ := ⟨fun k e h => by simp at h, fun k => by simp⟩

theorem Points.lookup_eq_none (h : Points bytes index m) :
    index.lookup k = none ↔ m.lookup k = none := by
  rw [h.read k]
  rcases he : index.lookup k with _ | e
  · simp
  · simp [readAt_inside (h.inside k e he)]

end Points

section Recover

theorem value_pos (bytes hd k v : Bytes) :
    (bytes ++ (hd ++ (Mutation.set k v).body)).length - 1 - v.length
      = bytes.length + hd.length + k.length := by
  have hnl : (ascii "\n").length = 1 := rfl
  simp only [body, List.length_append, hnl]
  omega

theorem Points.scanned {bytes w : Bytes} {index : Index} {m : Map} {r : Mutation}
    (h : Points bytes index m) (hw : r.body <:+ w) : Points (bytes ++ w)
      ((Scanned.ofRecord (bytes ++ w).length r).applyTo index) (r.apply m) := by
  obtain ⟨hd, rfl⟩ := hw
  cases r with
  | set k v =>
    have := h.insert hd k v
    rw [← value_pos] at this
    exact this
  | del k => exact h.del k _

/-- The index after the scan of the records `rs`, in the pieces `ws` of a file from offset `p`
on. -/
def scanIndex : ℕ → Index → List Bytes → List Mutation → Index
  | p, index, w :: ws, r :: rs =>
    scanIndex (p + w.length) ((Scanned.ofRecord (p + w.length) r).applyTo index) ws rs
  | _, index, _, _ => index

variable {t : Bytes} {ws : List Bytes} {rs : List Mutation}

theorem Points.scanIndex (hws : List.Forall₂ (fun w r => Mutation.body r <:+ w) ws rs) :
    ∀ {bytes : Bytes} {index : Index} {m : Map}, Points bytes index m →
      Points (bytes ++ ws.flatten) (scanIndex bytes.length index ws rs) (applyAll m rs) := by
  induction hws with
  | nil =>
    intro bytes index m h
    rw [List.flatten_nil, List.append_nil]
    exact h
  | @cons w r ws rs hw hws ih =>
    intro bytes index m h
    have hnext := ih (h.scanned hw)
    rw [List.append_assoc, List.length_append] at hnext
    exact hnext

theorem recoverLoop_chunks (ht : Unread t) (hws : List.Forall₂ Chunk ws rs) :
    ∀ (fuel p : ℕ) (index : Index), rs.length ≤ fuel →
      recoverLoop fuel ⟨ws.flatten ++ t, p, false, false⟩ index p
        = (scanIndex p index ws rs, p + ws.flatten.length) := by
  induction hws with
  | nil =>
    intro fuel p index _
    cases fuel with
    | zero => rfl
    | succ fuel => simp [recoverLoop, scanRecord_eq, ht p, scanIndex]
  | @cons w r ws rs hw hws ih =>
    intro fuel p index hf
    cases fuel with
    | zero => simp at hf
    | succ fuel =>
      have hscan : scanRecord ⟨w ++ (ws.flatten ++ t), p, false, false⟩
          = some (Scanned.ofRecord (p + w.length) r,
            ⟨ws.flatten ++ t, p + w.length, false, false⟩) := by
        rw [scanRecord_eq, hw.takes]
        rfl
      rw [List.flatten_cons, List.append_assoc, recoverLoop, hscan]
      simp only [ih fuel _ _ (Nat.le_of_succ_le_succ hf), scanIndex, List.length_append,
        Nat.add_assoc]

/-- The scan of a file, as the constructor makes it. -/
def scan (bytes : Bytes) : Index × ℕ := recoverLoop bytes.length (.ofBytes bytes) ∅ 0

theorem scan_chunks (hws : List.Forall₂ Chunk ws rs) (ht : Unread t) :
    scan (ws.flatten ++ t) = (scanIndex 0 ∅ ws rs, ws.flatten.length) := by
  have hlen : rs.length ≤ (ws.flatten ++ t).length := by
    rw [List.length_append]
    exact Nat.le_add_right_of_le (length_le_flatten hws)
  have hloop := recoverLoop_chunks ht hws _ 0 ∅ hlen
  rw [Nat.zero_add] at hloop
  exact hloop

theorem scan_flatten (hws : List.Forall₂ Chunk ws rs) :
    scan ws.flatten = (scanIndex 0 ∅ ws rs, ws.flatten.length) := by
  have hscan := scan_chunks hws (unread_cut isCut_nil)
  rw [List.append_nil] at hscan
  exact hscan

theorem scanIndex_points (hws : List.Forall₂ Chunk ws rs) :
    Points ws.flatten (scanIndex 0 ∅ ws rs) (applyAll ∅ rs) := by
  have hbody : List.Forall₂ (fun w r => Mutation.body r <:+ w) ws rs :=
    hws.imp fun w r hw => hw.body.imp fun hd h => h.symm
  exact points_empty.scanIndex hbody

/-- What the constructor makes of a file: it is left unusable, or compacted if wasteful. What the
scan did not read is gone, unless the resize failed. -/
theorem ofFile_cases (hws : List.Forall₂ Chunk ws rs) (ht : Unread t) {fs : FsCalls}
    (ho : fs.opened = true) (order : IterOrder) (fault : Option (ℕ × ℕ)) : ∃ b,
    (b = ws.flatten ∨ (b = ws.flatten ++ t ∧ fs.resized = false))
    ∧ ((fs.reopened = false ∧ ofFile fs order (ws.flatten ++ t) fault
        = ⟨⟨b, fault, []⟩, scanIndex 0 ∅ ws rs, false⟩)
      ∨ ofFile fs order (ws.flatten ++ t) fault
        = compactIfWasteful ⟨⟨b, fault, []⟩, scanIndex 0 ∅ ws rs, true⟩ fs order
            ws.flatten.length) := by
  unfold ofFile
  simp only [ho, if_true, recover]
  rw [show recoverLoop _ (ofBytes (ws.flatten ++ t)) ∅ 0 = _ from scan_chunks hws ht]
  simp only []
  by_cases hlt : ws.flatten.length < (ws.flatten ++ t).length
  · rw [if_pos hlt, List.take_left]
    rcases hres : fs.resized <;> rcases hre : fs.reopened
    · exact ⟨_, .inr ⟨rfl, rfl⟩, .inl ⟨rfl, rfl⟩⟩
    · exact ⟨_, .inr ⟨rfl, rfl⟩, .inr rfl⟩
    · exact ⟨_, .inl rfl, .inl ⟨rfl, rfl⟩⟩
    · exact ⟨_, .inl rfl, .inr rfl⟩
  · have hnil : t = [] := by
      rw [List.length_append] at hlt
      exact List.eq_nil_of_length_eq_zero (by omega)
    rw [if_neg hlt, hnil, List.append_nil]
    exact ⟨ws.flatten, .inl rfl, .inr rfl⟩

end Recover

section Compact

variable {bytes : Bytes} {index : Index} {m : Map} {kvs : List (Σ _ : Bytes, Entry)}

/-- The record that compaction writes for an entry. -/
def liveRecord (bytes : Bytes) (kv : Σ _ : Bytes, Entry) : Mutation :=
  .set kv.1 ((bytes.drop kv.2.valuePos).take kv.2.valueLen)

theorem body_suffix_encode (rs : List Mutation) :
    List.Forall₂ (fun w r => Mutation.body r <:+ w) (rs.map encode) rs :=
  List.forall₂_map_left_iff.2 (List.forall₂_same.2 fun r _ => ⟨r.header, rfl⟩)

/-- The copy's index is the one a scan of what it wrote makes. -/
theorem compactLoop_eq : ∀ (kvs : List (Σ _ : Bytes, Entry)) {tmp : Bytes} {index : Index},
    (∀ kv ∈ kvs, kv.2.valuePos + kv.2.valueLen ≤ bytes.length) →
    compactLoop bytes kvs tmp index
      = some (tmp ++ encodeAll (kvs.map (liveRecord bytes)),
          scanIndex tmp.length index ((kvs.map (liveRecord bytes)).map encode)
            (kvs.map (liveRecord bytes)))
  | [], tmp, index, _ => by simp [compactLoop, encodeAll, scanIndex]
  | ⟨k, e⟩ :: kvs, tmp, index, hin => by
    have hread := readAt_inside (hin ⟨k, e⟩ List.mem_cons_self)
    have hrest := fun kv hkv => hin kv (List.mem_cons_of_mem _ hkv)
    rw [compactLoop, hread]
    simp only [compactLoop_eq kvs hrest, List.map_cons, encodeAll_cons, scanIndex, liveRecord,
      Scanned.ofRecord, Scanned.applyTo, List.append_assoc, List.length_append]
    rw [← value_pos, ← encode, List.length_append]

theorem mem_arrange (order : IterOrder) {kv : Σ _ : Bytes, Entry}
    (hkv : kv ∈ order.arrange index.entries) : index.lookup kv.1 = some kv.2 :=
  List.mem_dlookup index.nodupKeys ((order.perm _).mem_iff.1 hkv)

/-- The entry an offset stands for. -/
def liveEntry (bytes : Bytes) (kv : Σ _ : Bytes, Entry) : Bytes × Bytes :=
  (kv.1, (bytes.drop kv.2.valuePos).take kv.2.valueLen)

theorem nodup_live (bytes : Bytes) (order : IterOrder) (index : Index) :
    (((order.arrange index.entries).map (liveEntry bytes)).map Prod.fst).Nodup := by
  rw [List.map_map]
  exact ((order.perm _).map Sigma.fst).nodup_iff.2 index.keys_nodup

theorem mapOf_live (h : Points bytes index m) (order : IterOrder) :
    mapOf ((order.arrange index.entries).map (liveEntry bytes)) = m := by
  refine fmap_ext fun k v => ?_
  rw [lookup_mapOf (nodup_live bytes order index), h.read k, List.mem_map, Option.bind_eq_some_iff]
  constructor
  · rintro ⟨kv, hkv, he⟩
    obtain ⟨rfl, rfl⟩ := Prod.mk.inj he
    have hlook := mem_arrange order hkv
    exact ⟨kv.2, hlook, readAt_inside (h.inside _ _ hlook)⟩
  · rintro ⟨e, he, hv⟩
    refine ⟨⟨k, e⟩, (order.perm _).mem_iff.2 (List.of_mem_dlookup he), ?_⟩
    rw [readAt_inside (h.inside _ _ he)] at hv
    exact congrArg (Prod.mk k) (Option.some.inj hv)

theorem live_ok (h : Points bytes index m) (hm : MapOk m) (order : IterOrder) :
    ∀ r ∈ (order.arrange index.entries).map (liveRecord bytes), r.Ok := by
  intro r hr
  obtain ⟨⟨k, e⟩, hkv, rfl⟩ := List.mem_map.1 hr
  have hk := mem_arrange order hkv
  refine hm k _ ?_
  rw [h.read k, hk]
  exact readAt_inside (h.inside k e hk)

/-- Copying the live records in any order keeps the map. -/
theorem applyAll_live (h : Points bytes index m) (order : IterOrder) :
    applyAll ∅ ((order.arrange index.entries).map (liveRecord bytes)) = m := by
  have hrec : (order.arrange index.entries).map (liveRecord bytes)
      = ((order.arrange index.entries).map (liveEntry bytes)).map fun p => .set p.1 p.2 := by
    rw [List.map_map]
    rfl
  rw [hrec, applyAll_sets (nodup_live bytes order index), mapOf_live h order]

/-- The index of the file that compaction writes. -/
def liveIndex (bytes : Bytes) (kvs : List (Σ _ : Bytes, Entry)) : Index :=
  scanIndex 0 ∅ ((kvs.map (liveRecord bytes)).map encode) (kvs.map (liveRecord bytes))

theorem compactLoop_live (h : Points bytes index m) (order : IterOrder) :
    compactLoop bytes (order.arrange index.entries) [] ∅
      = some (encodeAll ((order.arrange index.entries).map (liveRecord bytes)),
          liveIndex bytes (order.arrange index.entries)) := by
  rw [compactLoop_eq _ fun kv hkv => h.inside _ _ (mem_arrange order hkv)]
  rfl

theorem liveIndex_points (h : Points bytes index m) (order : IterOrder) :
    Points (encodeAll ((order.arrange index.entries).map (liveRecord bytes)))
      (liveIndex bytes (order.arrange index.entries)) m := by
  have hp := points_empty.scanIndex
    (body_suffix_encode ((order.arrange index.entries).map (liveRecord bytes)))
  rw [applyAll_live h order] at hp
  exact hp

end Compact

section Faults

/-! Writes may fail here: the file then gets part of a record, and the index stays as it was. -/

theorem keys_filterMap_sublist (f : Bytes → Entry → Option Bytes) :
    ∀ l : List (Σ _ : Bytes, Entry),
      ((l.filterMap fun kv => (f kv.1 kv.2).map fun v => (kv.1, v)).map Prod.fst).Sublist l.keys
  | [] => by simp
  | kv :: l => by
    rw [List.filterMap_cons, List.keys_cons]
    rcases f kv.1 kv.2 with _ | v
    · exact (keys_filterMap_sublist f l).cons _
    · exact (keys_filterMap_sublist f l).cons_cons _

theorem lookup_toMap (d : DiskStore) (k : Bytes) :
    d.toMap.lookup k = (d.index.lookup k).bind (readAt d.file.bytes) := by
  have hnd := (keys_filterMap_sublist (fun _ => d.readValue) d.index.entries).nodup
    d.index.keys_nodup
  refine Option.ext fun v => ?_
  rw [toMap, lookup_mapOf hnd, List.mem_filterMap, Option.bind_eq_some_iff]
  constructor
  · rintro ⟨⟨k', e⟩, hmem, he⟩
    obtain ⟨v', hv, hp⟩ := Option.map_eq_some_iff.1 he
    obtain ⟨rfl, rfl⟩ := Prod.mk.inj hp
    exact ⟨e, List.mem_dlookup d.index.nodupKeys hmem, hv⟩
  · rintro ⟨e, he, hv⟩
    exact ⟨⟨k, e⟩, List.of_mem_dlookup he, by rw [show d.readValue e = some v from hv]; rfl⟩

theorem Points.toMap {d : DiskStore} {m : Map} (h : Points d.file.bytes d.index m) : d.toMap = m :=
  Finmap.ext_lookup fun k => (lookup_toMap d k).trans (h.read k).symm

theorem append_cases (f : AppendFile) (r : Mutation) :
    (∃ f', f'.bytes = f.bytes ++ r.encode ∧ f.append r.encode = (true, f')) ∨
    (∃ f' t, IsCut t ∧ f'.bytes = f.bytes ++ t ∧ f.append r.encode = (false, f')) := by
  rcases ha : f.append r.encode with ⟨b, f'⟩
  cases b with
  | true =>
    have hb := AppendFile.append_true (f := f) (b := r.encode) (by rw [ha])
    rw [ha] at hb
    exact .inl ⟨f', hb, rfl⟩
  | false =>
    obtain ⟨t, hpre, hne, hb⟩ := AppendFile.append_false (f := f) (by rw [ha]) r.encode_ne_nil
    rw [ha] at hb
    exact .inr ⟨f', t, ⟨r, hpre, hne⟩, hb, rfl⟩

/-- What `set` can do: be refused, append the record and point at its value, or append part of it
and break the store. -/
theorem set_cases (d : DiskStore) (k v : Bytes) :
    d.set k v = (false, d) ∨
    (∃ f, d.ok = true ∧ k ≠ [] ∧ v ≠ [] ∧ f.bytes = d.file.bytes ++ (Mutation.set k v).encode
      ∧ d.set k v = (true, ⟨f, d.index.insert k (valueAt d.file.bytes k v), true⟩)) ∨
    (∃ f t, d.ok = true ∧ IsCut t ∧ f.bytes = d.file.bytes ++ t
      ∧ d.set k v = (false, ⟨f, d.index, false⟩)) := by
  unfold DiskStore.set
  split_ifs with href
  · exact .inl rfl
  · simp only [Bool.or_eq_true, not_or, Bool.not_eq_true', Bool.not_eq_false, List.isEmpty_iff]
      at href
    right
    rcases append_cases d.file (.set k v) with ⟨f, hf, ha⟩ | ⟨f, t, ht, hf, ha⟩ <;> rw [ha]
    · exact .inl ⟨f, href.1.1, href.1.2, href.2, hf, by simp only [if_true, href.1.1, valueAt]⟩
    · exact .inr ⟨f, t, href.1.1, ht, hf, rfl⟩

theorem del_cases (d : DiskStore) (k : Bytes) :
    d.del k = (false, d) ∨
    (∃ f, d.ok = true ∧ (d.index.lookup k).isSome
      ∧ f.bytes = d.file.bytes ++ (Mutation.del k).encode
      ∧ d.del k = (true, ⟨f, d.index.erase k, true⟩)) ∨
    (∃ f t, d.ok = true ∧ (d.index.lookup k).isSome ∧ IsCut t ∧ f.bytes = d.file.bytes ++ t
      ∧ d.del k = (false, ⟨f, d.index, false⟩)) := by
  unfold DiskStore.del
  split_ifs with href hnone
  · exact .inl rfl
  · exact .inl rfl
  · simp only [Bool.or_eq_true, not_or, Bool.not_eq_true', Bool.not_eq_false] at href
    rw [Option.isNone_iff_eq_none, ← Ne, ← Option.isSome_iff_ne_none] at hnone
    right
    rcases append_cases d.file (.del k) with ⟨f, hf, ha⟩ | ⟨f, t, ht, hf, ha⟩ <;> rw [ha]
    · exact .inl ⟨f, href.1, hnone, hf, by simp only [if_true, href.1]⟩
    · exact .inr ⟨f, t, href.1, hnone, ht, hf, rfl⟩

end Faults

section Rep

/-- The store is in working order, every append has succeeded and will, the file is complete records
and the map is what they make. -/
structure Rep (m : Map) (d : DiskStore) : Prop where
  ok : d.ok = true
  fault : d.file.fault = none
  pending : d.file.pending = []
  records : ∃ rs, d.file.bytes = encodeAll rs ∧ (∀ r ∈ rs, r.Ok) ∧ applyAll ∅ rs = m
  points : Points d.file.bytes d.index m

variable {m : Map} {d : DiskStore} {k v : Bytes}

theorem Rep.mapOk (h : Rep m d) : MapOk m := by
  obtain ⟨rs, -, hok, rfl⟩ := h.records
  exact mapOk_empty.applyAll hok

theorem Rep.compact (h : Rep m d) (order : IterOrder) : Rep m (d.compact .allOk order) := by
  have hc : d.compact .allOk order = ⟨{ d.file with bytes := (encodeAll
        ((order.arrange d.index.entries).map (liveRecord d.file.bytes))) },
      liveIndex d.file.bytes (order.arrange d.index.entries), true⟩ := by
    simp [DiskStore.compact, FsCalls.allOk, compactLoop_live h.points order]
  rw [hc]
  exact ⟨rfl, h.fault, h.pending,
    ⟨_, rfl, live_ok h.points h.mapOk order, applyAll_live h.points order⟩,
    liveIndex_points h.points order⟩

theorem Rep.compactIfWasteful (h : Rep m d) (order : IterOrder) (n : ℕ) :
    Rep m (d.compactIfWasteful .allOk order n) := by
  unfold DiskStore.compactIfWasteful
  split_ifs
  · exact h.compact order
  · exact h

/-- Opening a file of complete records and part of one more: the part is cut off. -/
theorem ofFile_rep {rs : List Mutation} {t : Bytes} (hok : ∀ r ∈ rs, r.Ok) (ht : IsCut t)
    (order : IterOrder) : Rep (applyAll ∅ rs) (ofFile .allOk order (encodeAll rs ++ t) none) := by
  have hws := forall₂_chunk_encode hok
  obtain ⟨b, hb, hd⟩ := ofFile_cases hws (unread_cut ht) (rfl : FsCalls.allOk.opened = true)
    order none
  obtain rfl : b = encodeAll rs := hb.elim id nofun
  rcases hd with ⟨hre, -⟩ | hd
  · cases hre
  · change ofFile _ _ (encodeAll rs ++ t) _ = _ at hd
    rw [hd]
    exact Rep.compactIfWasteful ⟨rfl, rfl, rfl, ⟨rs, rfl, hok, rfl⟩, scanIndex_points hws⟩ order _

theorem isEmpty_of_fieldOk (h : fieldOk k.length = true) : k.isEmpty = false := by
  rcases k with _ | _
  · simp [fieldOk] at h
  · rfl

theorem Rep.records_append (h : Rep m d) {r : Mutation} (hr : r.Ok) :
    ∃ rs, d.file.bytes ++ r.encode = encodeAll rs ∧ (∀ r ∈ rs, r.Ok)
      ∧ applyAll ∅ rs = r.apply m := by
  obtain ⟨rs, hb, hok, hm⟩ := h.records
  refine ⟨rs ++ [r], ?_, fun r' hr' => ?_, ?_⟩
  · simp [hb, encodeAll]
  · rcases List.mem_append.1 hr' with hr' | hr'
    · exact hok r' hr'
    · rw [List.mem_singleton.1 hr']
      exact hr
  · rw [applyAll_append, hm]
    rfl

theorem Rep.set (h : Rep m d) (hkv : (Mutation.set k v).Ok) :
    (d.set k v).1 = true ∧ Rep (m.insert k v) (d.set k v).2 := by
  simp only [DiskStore.set, h.ok, isEmpty_of_fieldOk hkv.1, isEmpty_of_fieldOk hkv.2,
    Bool.not_true, Bool.or_self, Bool.false_eq_true, if_false,
    AppendFile.append_of_none h.fault, if_true]
  exact ⟨trivial, rfl, h.fault, h.pending, h.records_append hkv, h.points.set k v⟩

theorem Rep.del (h : Rep m d) (hk : (Mutation.del k).Ok) :
    (d.del k).1 = (m.lookup k).isSome ∧ Rep (m.erase k) (d.del k).2 := by
  have hiff := h.points.lookup_eq_none (k := k)
  simp only [DiskStore.del, h.ok, isEmpty_of_fieldOk hk, Bool.not_true, Bool.or_self,
    Bool.false_eq_true, if_false]
  rcases he : d.index.lookup k with _ | e
  · have hnone := hiff.1 he
    simp only [Option.isNone_none, if_true, hnone, Option.isSome_none, true_and]
    rw [erase_of_lookup_none hnone]
    exact h
  · have hsome : (m.lookup k).isSome = true := by
      rw [Option.isSome_iff_ne_none, Ne, ← hiff, he]
      simp
    simp only [Option.isNone_some, Bool.false_eq_true, if_false,
      AppendFile.append_of_none h.fault, if_true, hsome, true_and]
    exact ⟨rfl, h.fault, h.pending, h.records_append (r := .del k) hk, h.points.del k _⟩

theorem Rep.get (h : Rep m d) (k : Bytes) : d.get k = m.lookup k := by
  rw [DiskStore.get, if_pos h.ok, h.points.read k]
  rfl

theorem Rep.exists? (h : Rep m d) (k : Bytes) : d.exists? k = (m.lookup k).isSome := by
  have hiff := h.points.lookup_eq_none (k := k)
  rw [DiskStore.exists?]
  rcases he : d.index.lookup k with _ | e <;> rcases hm : m.lookup k with _ | v <;>
    simp_all

theorem Rep.size (h : Rep m d) : d.size = m.keys.card := by
  have hkeys : m.keys = d.index.keys.toFinset := by
    ext k
    rw [List.mem_toFinset, ← AList.mem_keys, Finmap.mem_keys, ← not_iff_not,
      ← Finmap.lookup_eq_none, ← AList.lookup_eq_none]
    exact h.points.lookup_eq_none.symm
  rw [DiskStore.size, hkeys, List.toFinset_card_of_nodup d.index.keys_nodup]

theorem Rep.clear (h : Rep m d) : (d.clear true true).1 = true ∧ Rep ∅ (d.clear true true).2 :=
  ⟨rfl, rfl, h.fault, rfl, ⟨[], rfl, by simp, rfl⟩, points_empty⟩

end Rep

end DiskStore

end Redon
