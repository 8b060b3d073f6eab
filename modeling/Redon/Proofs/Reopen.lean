import Redon.Proofs.Sessions

/-!
# Sessions that end cleanly

A session appends whole records, so the next one replays everything the log was given. The log and
the memory part only when a store is trimmed to its capacity as replay ends: the keys dropped then
are dropped from memory alone, and unless they are set again the next replay brings them back
(`trimmed_key_returns`), if there is room for them: they are the last in the log's order. Nothing
else comes back (`reopen_spec`).
-/

namespace Redon

open Lib Mutation

namespace CleanSession

variable {x : CleanSession} {file : Option Bytes} {rs : List Mutation}

def Ok (x : CleanSession) : Prop := ∀ c ∈ x.calls, c.Ok

instance : DecidablePred Ok := fun x => inferInstanceAs (Decidable (∀ c ∈ x.calls, c.Ok))

/-- The key was trimmed when the session opened the log, and not set since. -/
def Lost (x : CleanSession) (file : Option Bytes) (k : Bytes) : Prop :=
  k ∈ (Storage.openLog 0 file none).toMap ∧ k ∉ (Storage.openLog x.capacity file none).toMap
    ∧ ∀ v, .set k v ∉ x.calls

theorem openLog_toMap (c : ℕ) (file : Option Bytes) :
    (Storage.openLog c file none).toMap = (Storage.openLog c file none).items.toMap := by
  rw [Storage.toMap, (Storage.openLog_eq c file none).1]

/-- A session on a log of complete records appends more of them, its changes to the map. -/
theorem served_spec (hf : file.getD [] = encodeAll rs) (hok : ∀ r ∈ rs, r.Ok) (hx : x.Ok) :
    ∃ rs', (x.served file).logBytes = encodeAll (rs ++ rs') ∧ (∀ r ∈ rs ++ rs', r.Ok)
      ∧ (x.served file).toMap = applyAll (Storage.openLog x.capacity file none).toMap rs'
      ∧ (∀ k v, Call.set k v ∈ x.calls → .set k v ∈ rs')
      ∧ (∀ r ∈ rs', r.key ∈ (Storage.openLog x.capacity file none).items.toMap
        ∨ ∃ v, Call.set r.key v ∈ x.calls)
      ∧ (x.served file).size = (x.served file).toMap.keys.card := by
  obtain ⟨hd, -, hw, -⟩ := Storage.openLog_eq x.capacity file none
  have hkeys : MapOk (Storage.openLog x.capacity file none).items.toMap := by
    intro k v hv
    have hv' := Storage.openLog_lookup hv
    rw [hf, records_encodeAll hok] at hv'
    exact mapOk_empty.applyAll hok k v hv'
  obtain ⟨rs', hs, hok', hset, hkey⟩ := Storage.run_logged x.calls hd hw
  obtain ⟨w, w', hw₀, hw', hwrote, hlive⟩ := hs.wal
  obtain rfl := Option.some.inj (hw.symm.trans hw₀)
  have hd' : (x.served file).disk = none := hs.disk.trans hd
  refine ⟨rs', ?_, ?_, ?_, hset ⟨rfl, rfl⟩, hkey, ?_⟩
  · simp only [Storage.logBytes, served, hw', Option.map_some, Option.getD_some]
    rw [hwrote.live_bytes (hlive ⟨rfl, rfl⟩), encodeAll_append, ← hf]
    rfl
  · intro r hr
    rcases List.mem_append.1 hr with hr | hr
    · exact hok r hr
    · exact hok' hkeys hx r hr
  · rw [openLog_toMap, ← hs.map, Storage.toMap, hd']
    rfl
  · rw [Storage.size, Storage.toMap, hd']
    exact LinkedMap.size_eq_card _

theorem foldl_whole : ∀ (xs : List CleanSession) (file : Option Bytes), Whole file →
    (∀ x ∈ xs, x.Ok) → Whole (xs.foldl (fun file x => some (x.served file).logBytes) file)
  | [], _, h, _ => h
  | x :: xs, file, ⟨rs, hok, hf⟩, hx => by
    obtain ⟨rs', hb, hok', -⟩ := served_spec hf hok (hx x List.mem_cons_self)
    exact foldl_whole xs _ ⟨rs ++ rs', hok', hb⟩ fun y hy => hx y (List.mem_cons_of_mem x hy)

theorem log_whole (xs : List CleanSession) (hx : ∀ x ∈ xs, x.Ok) : Whole (log xs) :=
  foldl_whole xs none ⟨[], by simp, rfl⟩ hx

theorem mem_openLog {c : ℕ} {file : Option Bytes} {k : Bytes} :
    k ∈ (Storage.openLog c file none).toMap
      ↔ k ∈ (Storage.openLog c file none).items.entries.map Prod.fst := by
  rw [openLog_toMap, LinkedMap.toMap, mem_mapOf]

end CleanSession

section Order

open Storage (relist)

variable {c : ℕ} {file : Option Bytes} {es es' : List (Bytes × Bytes)} {k : Bytes}

/-- The entries that are left of `es`, the latest set first, for a capacity; 0 is unbounded. -/
def fitting (c : ℕ) (es : List (Bytes × Bytes)) : List (Bytes × Bytes) :=
  if c = 0 then es else es.take c

theorem fitting_front (c : ℕ) (es : List (Bytes × Bytes)) : fitting c es <+: es := by
  unfold fitting
  split_ifs
  · exact List.prefix_rfl
  · exact List.take_prefix c es

/-- Entries whose keys the records leave alone stay behind the others. -/
theorem foldl_relist_append : ∀ (rs : List Mutation) (es es' : List (Bytes × Bytes)),
    rs.foldl relist (es ++ es')
      = rs.foldl relist es ++ es'.filter fun p => ∀ r ∈ rs, p.1 ≠ r.key
  | [], es, es' => by simp
  | r :: rs, es, es' => by
    have hr : relist (es ++ es') r = relist es r ++ es'.filter fun p => p.1 ≠ r.key := by
      cases r <;> (rw [relist, relist, List.filter_append]; rfl)
    rw [List.foldl_cons, hr, foldl_relist_append rs, List.filter_filter, List.foldl_cons]
    refine congrArg _ (List.filter_congr fun p _ => ?_)
    simp only [List.forall_mem_cons, Bool.decide_and, Bool.and_comm]

theorem mem_free {rs : List Mutation} :
    k ∈ (es.filter fun p => ∀ r ∈ rs, p.1 ≠ r.key).map Prod.fst
      ↔ k ∈ es.map Prod.fst ∧ ∀ r ∈ rs, k ≠ r.key := by
  simp only [List.mem_map, List.mem_filter, decide_eq_true_eq]
  constructor
  · rintro ⟨p, ⟨hp, hfree⟩, rfl⟩
    exact ⟨⟨p, hp, rfl⟩, hfree⟩
  · rintro ⟨⟨p, hp, rfl⟩, hfree⟩
    exact ⟨p, ⟨hp, hfree⟩, rfl⟩

theorem mapOf_append_eq_iff (h : ((es ++ es').map Prod.fst).Nodup) :
    mapOf (es ++ es') = mapOf es ↔ es' = [] := by
  refine ⟨fun he => List.eq_nil_iff_forall_not_mem.2 fun p hp => ?_, fun he => by
    rw [he, List.append_nil]⟩
  have hmem : p.1 ∈ mapOf es := by
    rw [← he, mem_mapOf]
    exact List.mem_map_of_mem (List.mem_append_right es hp)
  rw [List.map_append, List.nodup_append] at h
  exact h.2.2 p.1 (mem_mapOf.1 hmem) p.1 (List.mem_map_of_mem hp) rfl

/-- Where there is room for the entries in front, the ones behind them are dropped exactly if there
is room for no more. -/
theorem mapOf_fitting_iff (h : ((es ++ es').map Prod.fst).Nodup) (hc : c = 0 ∨ es.length ≤ c) :
    mapOf (fitting c (es ++ es')) = mapOf es ↔ es' = [] ∨ 0 < c ∧ c = es.length := by
  unfold fitting
  split_ifs with h0
  · rw [mapOf_append_eq_iff h]
    exact (or_iff_left (by omega)).symm
  · have hle := hc.resolve_left h0
    have hsub : (es ++ es'.take (c - es.length)).Sublist (es ++ es') :=
      (List.take_sublist _ _).append_left es
    rw [List.take_append, List.take_of_length_le hle, mapOf_append_eq_iff (h.sublist (hsub.map _)),
      List.take_eq_nil_iff, or_comm]
    exact or_congr_right (by omega)

theorem openLog_entries (c : ℕ) (file : Option Bytes) :
    (Storage.openLog c file none).items.entries
      = fitting c ((Wal.records (file.getD [])).foldl relist []) := by
  obtain ⟨-, hcap, -⟩ := Storage.replayed_spec (file.getD []) c
  rw [(Storage.openLog_eq c file none).2.2.2, Storage.setReplaying_entries, hcap,
    Storage.replayed_entries]
  rfl

theorem openLog_mapOf (c : ℕ) {rs : List Mutation} (hok : ∀ r ∈ rs, r.Ok)
    (hf : file.getD [] = encodeAll rs) :
    (Storage.openLog c file none).toMap = mapOf (fitting c (rs.foldl relist [])) := by
  rw [CleanSession.openLog_toMap, LinkedMap.toMap, openLog_entries, hf, records_encodeAll hok]

/-- What a session leaves: its own entries in front, and behind them those that were trimmed when it
opened the log and not set since. -/
theorem CleanSession.leaves (xs : List CleanSession) (x : CleanSession)
    (hok : ∀ y ∈ xs ++ [x], y.Ok) : ∃ es es', ((es ++ es').map Prod.fst).Nodup
      ∧ (x.served (log xs)).toMap = mapOf es ∧ (x.served (log xs)).size = es.length
      ∧ (∀ c, (Storage.openLog c (log (xs ++ [x])) none).toMap = mapOf (fitting c (es ++ es')))
      ∧ ∀ k, k ∈ es'.map Prod.fst ↔ x.Lost (log xs) k := by
  obtain ⟨rs, hrs, hf⟩ := log_whole xs fun y hy => hok y (List.mem_append_left _ hy)
  obtain ⟨rs', hb, hrs', hmap, hset, hkey, hsize⟩ := served_spec hf hrs
    (hok x (List.mem_append_right _ List.mem_cons_self))
  have hnew : (log (xs ++ [x])).getD [] = encodeAll (rs ++ rs') := by
    rw [log, List.foldl_append]
    exact hb
  obtain ⟨kept, trimmed, hsplit, hkept⟩ : ∃ kept trimmed, rs.foldl relist [] = kept ++ trimmed
      ∧ kept = fitting x.capacity (rs.foldl relist []) := by
    obtain ⟨trimmed, ht⟩ := fitting_front x.capacity (rs.foldl relist [])
    exact ⟨_, trimmed, ht.symm, rfl⟩
  have hlist := foldl_relist_append rs' kept trimmed
  rw [← hsplit, ← List.foldl_append] at hlist
  have hnd := (Storage.foldl_relist_nil rs).1
  have hnd' := (Storage.foldl_relist_nil (rs ++ rs')).1
  rw [hsplit, List.map_append, List.nodup_append] at hnd
  rw [hlist] at hnd'
  have hopen := openLog_mapOf x.capacity hrs hf
  rw [← hkept] at hopen
  have hlast : (x.served (log xs)).toMap = mapOf (rs'.foldl relist kept) := by
    rw [hmap, hopen, (Storage.foldl_relist_spec rs' hnd.1).2]
  refine ⟨_, _, hnd', hlast, ?_, fun c => ?_, fun k => ?_⟩
  · rw [hsize, hlast, card_keys_mapOf (Storage.foldl_relist_spec rs' hnd.1).1]
  · rw [← hlist]
    exact openLog_mapOf c hrs' hnew
  · have hold : (Storage.openLog 0 (log xs) none).toMap = mapOf (kept ++ trimmed) := by
      rw [openLog_mapOf 0 hrs hf, ← hsplit]
      rfl
    rw [Lost, hold, hopen, mem_mapOf, mem_mapOf, List.map_append, List.mem_append, mem_free]
    rw [← openLog_toMap, hopen] at hkey
    constructor
    · rintro ⟨hk, hfree⟩
      exact ⟨.inr hk, fun hkept => hnd.2.2 _ hkept _ hk rfl, fun v hv => hfree _ (hset _ v hv) rfl⟩
    · rintro ⟨hk, hno, hcalls⟩
      refine ⟨hk.resolve_left hno, fun r hr he => ?_⟩
      rcases hkey r hr with hmem | ⟨v, hv⟩
      · exact hno (he ▸ mem_mapOf.1 hmem)
      · exact hcalls v (he ▸ hv)

end Order

/-- Reopening with room for what was there at the shutdown gives exactly that if no key was trimmed
when the log was opened before and not set since, or if there is no room for such a key; otherwise
such a key is back. Whatever is there after reopening was there at the shutdown or is such a key. -/
theorem reopen_spec (xs : List CleanSession) (x : CleanSession) (c : ℕ)
    (hok : ∀ y ∈ xs ++ [x], y.Ok) :
    let last := x.served (CleanSession.log xs)
    let opened := Storage.openLog c (CleanSession.log (xs ++ [x])) none
    ((c = 0 ∨ last.size ≤ c) → (opened.toMap = last.toMap
      ↔ (∀ k, ¬ x.Lost (CleanSession.log xs) k) ∨ 0 < c ∧ c = last.size))
    ∧ ∀ k v, opened.toMap.lookup k = some v →
      last.toMap.lookup k = some v ∨ x.Lost (CleanSession.log xs) k := by
  intro last opened
  obtain ⟨es, es', hnd, hlast, hsize, hopened, hlost⟩ := CleanSession.leaves xs x hok
  have hes : (es.map Prod.fst).Nodup := hnd.sublist ((List.sublist_append_left es es').map _)
  refine ⟨fun hc => ?_, fun k v hv => ?_⟩
  · have hnone : (∀ k, ¬ x.Lost (CleanSession.log xs) k) ↔ es' = [] := by
      rw [← List.map_eq_nil_iff (f := Prod.fst), List.eq_nil_iff_forall_not_mem]
      exact forall_congr' fun k => not_congr (hlost k).symm
    change (c = 0 ∨ (x.served (CleanSession.log xs)).size ≤ c) at hc
    rw [hsize] at hc
    rw [hnone, hopened c, hlast, hsize]
    exact mapOf_fitting_iff hnd hc
  · have hsub := (fitting_front c (es ++ es')).sublist
    rw [hopened c, lookup_mapOf (hnd.sublist (hsub.map _))] at hv
    rcases List.mem_append.1 (hsub.subset hv) with hv | hv
    · rw [hlast, lookup_mapOf hes]
      exact .inl hv
    · exact .inr ((hlost k).1 (List.mem_map_of_mem hv))

/-- A session of capacity 2 over a log of three keys that sets the trimmed one again. -/
theorem reopen_spec_two :
    let xs : List CleanSession := [⟨0, [.set [97] [49], .set [98] [50], .set [99] [51]]⟩]
    let x : CleanSession := ⟨2, [.set [97] [52], .del [98]]⟩
    (Storage.openLog 2 (CleanSession.log (xs ++ [x])) none).toMap
      = (x.served (CleanSession.log xs)).toMap := by
  refine (reopen_spec [⟨0, [.set [97] [49], .set [98] [50], .set [99] [51]]⟩]
    ⟨2, [.set [97] [52], .del [98]]⟩ 2 (by decide)).1 (.inr (by decide)) |>.2 (.inl fun k hk => ?_)
  obtain ⟨hlog, hmem, hset⟩ := hk
  rw [CleanSession.mem_openLog] at hlog hmem
  have h₁ : k ∈ [[99], [98], [97]] := hlog
  have h₂ : k ∉ [[99], [98]] := hmem
  obtain rfl : k = [97] := by simp_all
  exact hset [52] (by decide)

/-- A key trimmed when the log was opened with capacity 2 is back when it is opened with capacity 2
again, though at the shutdown the one key there was another. -/
theorem trimmed_key_returns :
    let xs : List CleanSession := [⟨0, [.set [97] [49], .set [98] [50], .set [99] [51]]⟩]
    let x : CleanSession := ⟨2, [.del [98]]⟩
    (∀ y ∈ xs ++ [x], y.Ok) ∧ (x.served (CleanSession.log xs)).size = 1
      ∧ (x.served (CleanSession.log xs)).toMap.lookup [97] = none
      ∧ (Storage.openLog 2 (CleanSession.log (xs ++ [x])) none).toMap.lookup [97] = some [49] := by
  decide

end Redon
