import Redon.Proofs.Storage
import Redon.Session

/-!
# The log and the memory

`Logged rs s s'` says that between `s` and `s'` the complete records `rs` reached the log, with
perhaps part of one more if it failed, and that the map changed by exactly `rs`. Every call does
this for some `rs`: a change is logged before it is made and not made if logging it fails, and an
eviction is a change like any other. So along any run the map is what the log's complete records
make of an empty one (`log_eq_memory`). What is left in the log's buffer, for closing it to write,
is at most the record of a change that some call was about to make (`call_pends`).
-/

namespace Redon

open Lib Mutation

namespace Wal

/-- From `w` to `w'` the records `rs` were appended, and part of one more if an append failed. -/
def Wrote (w : Wal) (rs : List Mutation) (w' : Wal) : Prop :=
  ∃ torn, w'.out.bytes = w.out.bytes ++ encodeAll rs ++ torn ∧ IsCut torn
    ∧ (w'.ok = true → torn = []) ∧ (w.ok = false → rs = [] ∧ torn = [] ∧ w'.ok = false)

/-- A log on which every append succeeds. -/
def Live (w : Wal) : Prop := w.ok = true ∧ w.out.fault = none

variable {w w' w'' : Wal} {rs rs' : List Mutation} {r : Mutation}

theorem Wrote.refl (w : Wal) : w.Wrote [] w :=
  ⟨[], by simp [encodeAll], isCut_nil, fun _ => rfl, fun h => ⟨rfl, rfl, h⟩⟩

theorem Wrote.trans (h : w.Wrote rs w') (h' : w'.Wrote rs' w'') : w.Wrote (rs ++ rs') w'' := by
  obtain ⟨t, hb, hcut, hok, hfail⟩ := h
  obtain ⟨t', hb', hcut', hok', hfail'⟩ := h'
  rcases hw' : w'.ok with _ | _
  · obtain ⟨rfl, rfl, hf⟩ := hfail' hw'
    refine ⟨t, ?_, hcut, fun hc => ?_, fun hc => ?_⟩
    · rw [hb', hb]
      simp [encodeAll]
    · rw [hf] at hc
      cases hc
    · obtain ⟨h1, h2, -⟩ := hfail hc
      exact ⟨by simp [h1], h2, hf⟩
  · refine ⟨t', ?_, hcut', hok', fun hc => ?_⟩
    · rw [hb', hb, hok hw', encodeAll_append]
      simp
    · rw [(hfail hc).2.2] at hw'
      cases hw'

theorem append_wrote (hr : (w.append r).1 = true) : w.Wrote [r] (w.append r).2 := by
  unfold append at hr ⊢
  by_cases hok : w.ok = true
  · rw [if_pos hok] at hr ⊢
    simp only [] at hr ⊢
    refine ⟨[], ?_, isCut_nil, fun _ => rfl, fun hc => ?_⟩
    · rw [AppendFile.append_true hr]
      simp [encodeAll]
    · rw [hok] at hc
      cases hc
  · rw [if_neg hok] at hr
    cases hr

theorem append_failed (hr : (w.append r).1 = false) :
    w.Wrote [] (w.append r).2 ∧ (w.append r).2.ok = false ∧ ¬ w.Live := by
  unfold append at hr ⊢
  by_cases hok : w.ok = true
  · rw [if_pos hok] at hr ⊢
    simp only [] at hr ⊢
    obtain ⟨t, hpre, hne, he⟩ := AppendFile.append_false hr r.encode_ne_nil
    refine ⟨⟨t, ?_, ⟨r, hpre, hne⟩, fun hc => ?_, fun hc => ?_⟩, hr, fun hlive => ?_⟩
    · rw [he]
      simp [encodeAll]
    · simp only [hr] at hc
      cases hc
    · rw [hok] at hc
      cases hc
    · rw [AppendFile.append_of_none hlive.2] at hr
      cases hr
  · rw [if_neg hok]
    exact ⟨.refl w, by simpa using hok, fun hlive => hok hlive.1⟩

theorem append_live (h : w.Live) : (w.append r).1 = true ∧ (w.append r).2.Live := by
  simp only [append, if_pos h.1, AppendFile.append_of_none h.2]
  exact ⟨trivial, rfl, h.2⟩

/-- What is left in the log's buffer, if anything, is a record with `P`. -/
def Pends (P : Mutation → Prop) (w : Wal) : Prop :=
  w.out.pending = [] ∨ ∃ r, P r ∧ w.out.pending = r.encode

variable {P : Mutation → Prop}

theorem Pends.append (h : w.Pends P) (hr : P r) : (w.append r).2.Pends P := by
  have hp := w.out.append_pending r.encode
  unfold Wal.append
  split_ifs
  · rcases ha : w.out.append r.encode with ⟨_ | _, f⟩ <;> rw [ha] at hp
    · exact .inr ⟨r, hr, hp⟩
    · have hsame : f.pending = w.out.pending := hp
      rwa [Pends, ← hsame] at h
  · exact h

/-- Closing the log writes the record that is left, or part of it at most. -/
theorem Pends.close (h : w.Pends P) (fault : Option (ℕ × ℕ)) : ∃ rs t,
    w.close fault = w.out.bytes ++ (encodeAll rs ++ t) ∧ IsCut t
      ∧ (rs = [] ∨ ∃ r, P r ∧ w.out.pending = r.encode ∧ rs = [r]) := by
  obtain ⟨t, hpre, hb⟩ := AppendFile.close_bytes { w.out with fault := fault }
  change t <+: w.out.pending at hpre
  rcases h with hnil | ⟨r, hr, hp⟩
  · rw [hnil, List.prefix_nil] at hpre
    exact ⟨[], [], hb.trans (by rw [hpre]; rfl), isCut_nil, .inl rfl⟩
  · rw [hp] at hpre
    by_cases hall : t = r.encode
    · refine ⟨[r], [], hb.trans ?_, isCut_nil, .inr ⟨r, hr, hp, rfl⟩⟩
      simp [hall, encodeAll]
    · exact ⟨[], t, hb, ⟨r, hpre, hall⟩, .inl rfl⟩

theorem Wrote.live_bytes (h : w.Wrote rs w') (hl : w'.Live) :
    w'.out.bytes = w.out.bytes ++ encodeAll rs := by
  obtain ⟨t, hb, -, hok, -⟩ := h
  rw [hb, hok hl.1, List.append_nil]

end Wal

namespace Storage

/-- From `s` to `s'` the records `rs` were logged and made, and nothing else was. -/
structure Logged (rs : List Mutation) (s s' : Storage) : Prop where
  disk : s'.disk = s.disk
  capacity : s'.capacity = s.capacity
  replaying : s'.replaying = s.replaying
  wal : ∃ w w', s.wal = some w ∧ s'.wal = some w' ∧ w.Wrote rs w' ∧ (w.Live → w'.Live)
  map : s'.items.toMap = applyAll s.items.toMap rs

section Steps

variable {rs rs' : List Mutation} {s s₁ s' s'' : Storage} {k v : Bytes} {r : Mutation} {w : Wal}

theorem Logged.refl (hw : s.wal = some w) : Logged [] s s :=
  ⟨rfl, rfl, rfl, ⟨w, w, hw, hw, .refl w, id⟩, rfl⟩

theorem Logged.trans (h : Logged rs s s') (h' : Logged rs' s' s'') : Logged (rs ++ rs') s s'' := by
  obtain ⟨w, w', hw, hw', hwrote, hlive⟩ := h.wal
  obtain ⟨w₁, w'', hw₁, hw'', hwrote', hlive'⟩ := h'.wal
  obtain rfl : w' = w₁ := Option.some.inj (hw'.symm.trans hw₁)
  refine ⟨h'.disk.trans h.disk, h'.capacity.trans h.capacity, h'.replaying.trans h.replaying,
    ⟨w, w'', hw, hw'', hwrote.trans hwrote', hlive' ∘ hlive⟩, ?_⟩
  rw [h'.map, h.map, applyAll_append]

/-- A record that could not be logged leaves everything but the log as it was. -/
theorem logged_of_false (hw : s.wal = some w) (hl : s.logRecord r = (false, s₁)) :
    Logged [] s s₁ ∧ s₁.items = s.items ∧ ¬ w.Live := by
  rw [logRecord_some hw, Prod.mk.injEq] at hl
  obtain ⟨hf, rfl⟩ := hl
  obtain ⟨h1, -, h3⟩ := Wal.append_failed hf
  exact ⟨⟨rfl, rfl, rfl, ⟨w, _, hw, rfl, h1, fun hc => absurd hc h3⟩, rfl⟩, rfl, h3⟩

theorem logged_of_true {items : LinkedMap Bytes Bytes} (hw : s.wal = some w)
    (hl : s.logRecord r = (true, s₁)) (ha : items.toMap = r.apply s.items.toMap) :
    Logged [r] s { s₁ with items := items } := by
  rw [logRecord_some hw, Prod.mk.injEq] at hl
  obtain ⟨ht, rfl⟩ := hl
  exact ⟨rfl, rfl, rfl, ⟨w, _, hw, rfl, Wal.append_wrote ht, fun hc => (Wal.append_live hc).2⟩, ha⟩

theorem mem_of_back (hb : s.items.back? = some (k, v)) : k ∈ s.items.toMap :=
  Finmap.mem_of_lookup_eq_some (LinkedMap.lookup_toMap.2 (List.mem_of_getLast? hb))

theorem index_eq_none_iff : s.items.index.lookup k = none ↔ k ∉ s.items.toMap := by
  rw [LinkedMap.index_eq_none, LinkedMap.toMap, mem_mapOf]

theorem mem_of_index {i : ℕ} (hi : s.items.index.lookup k = some i) : k ∈ s.items.toMap := by
  by_contra hk
  rw [← index_eq_none_iff, hi] at hk
  cases hk

/-- Evicting logs a `DEL` for each key it drops. -/
theorem evictLoop_logged : ∀ (n : ℕ) {s : Storage} {w : Wal}, s.wal = some w →
    ∃ ks : List Bytes, Logged (ks.map .del) s (evictLoop n s).1 ∧ ∀ k ∈ ks, k ∈ s.items.toMap
  | 0, s, w, hw => ⟨[], .refl hw, by simp⟩
  | n + 1, s, w, hw => by
    rcases evictLoop_cases n s with he | ⟨k, v, s₁, hb, hl, he⟩ | ⟨k, v, s₁, hb, hl, s₂, rfl, he⟩
    · rw [he]
      exact ⟨[], .refl hw, by simp⟩
    · rw [he]
      exact ⟨[], (logged_of_false hw hl).1, by simp⟩
    · have hs : Logged [.del k] s { s₁ with items := s.items.popBack } :=
        logged_of_true hw hl (LinkedMap.toMap_popBack hb)
      obtain ⟨-, w', -, hw', -⟩ := hs.wal
      obtain ⟨ks, hks, hmem⟩ := evictLoop_logged n hw'
      rw [he]
      refine ⟨k :: ks, hs.trans hks, ?_⟩
      intro k' hk'
      rcases List.mem_cons.1 hk' with rfl | hk'
      · exact mem_of_back hb
      · have := hmem k' hk'
        rw [LinkedMap.toMap_popBack hb, Finmap.mem_erase] at this
        exact this.2

/-- What a `set` logs: nothing if it fails, else the change and the evictions it causes. -/
theorem set_logged (hd : s.disk = none) (hw : s.wal = some w) (k v : Bytes) :
    ((s.set k v).1 = false ∧ Logged [] s (s.set k v).2.1 ∧ (s.set k v).2.1.items = s.items
      ∧ ¬ w.Live) ∨
    ((s.set k v).1 = true ∧ ∃ ks : List Bytes, Logged (.set k v :: ks.map .del) s (s.set k v).2.1
      ∧ ∀ k' ∈ ks, k' ∈ s.items.toMap.insert k v) := by
  rcases set_cases hd k v with ⟨s₁, hl, he⟩ | ⟨s₁, i, hl, hi, s₂, rfl, he⟩
    | ⟨s₁, hi, hl, s₂, rfl, he⟩ <;> rw [he]
  · exact .inl ⟨rfl, logged_of_false hw hl⟩
  · exact .inr ⟨rfl, [], logged_of_true hw hl (LinkedMap.toMap_setVal_splice hi), by simp⟩
  · have hs : Logged [.set k v] s { s₁ with items := s.items.emplaceFront k v hi } :=
      logged_of_true hw hl (LinkedMap.toMap_emplaceFront hi)
    obtain ⟨-, w', -, hw', -⟩ := hs.wal
    obtain ⟨ks, hks, hmem⟩ := evictLoop_logged (s.items.emplaceFront k v hi).size hw'
    exact .inr ⟨rfl, ks, hs.trans hks, by simpa using hmem⟩

theorem del_logged (hd : s.disk = none) (hw : s.wal = some w) (k : Bytes) :
    ((s.del k).1.durable = false ∧ Logged [] s (s.del k).2.1 ∧ (s.del k).2.1.items = s.items
      ∧ ¬ w.Live) ∨
    ((s.del k).1 = ⟨0, true⟩ ∧ (s.del k).2.1 = s ∧ k ∉ s.items.toMap) ∨
    ((s.del k).1 = ⟨1, true⟩ ∧ Logged [.del k] s (s.del k).2.1 ∧ k ∈ s.items.toMap) := by
  rcases del_cases hd k with ⟨hi, he⟩ | ⟨i, s₁, hi, hl, he⟩ | ⟨i, s₁, hi, hl, s₂, rfl, he⟩ <;>
    rw [he]
  · exact .inr (.inl ⟨rfl, rfl, index_eq_none_iff.1 hi⟩)
  · exact .inl ⟨rfl, logged_of_false hw hl⟩
  · exact .inr (.inr ⟨rfl, logged_of_true hw hl (LinkedMap.toMap_eraseAt hi), mem_of_index hi⟩)

theorem get_logged (hd : s.disk = none) (hw : s.wal = some w) (k : Bytes) :
    Logged [] s (s.get k).2 := by
  rcases get_cases hd k with ⟨-, he⟩ | ⟨i, v, -, -, he⟩ <;> rw [he]
  · exact .refl hw
  · exact ⟨rfl, rfl, rfl, ⟨w, w, hw, hw, .refl w, id⟩, LinkedMap.toMap_splice _ _⟩

end Steps

section Runs

variable {rs : List Mutation} {s : Storage} {w : Wal} {m : Map}

/-- The call `c` can log this change to the map `m`: its own, or a key dropped. -/
def Caused (m : Map) (c : Call) : Mutation → Prop
  | .set k v => c = .set k v
  | .del k => k ∈ m ∨ ∃ v, c = .set k v

theorem Caused.ok {c : Call} {r : Mutation} (h : Caused m c r) (hm : MapOk m) (hc : c.Ok) :
    r.Ok := by
  cases r with
  | set k v =>
    rw [show c = .set k v from h] at hc
    exact hc
  | del k =>
    rcases h with hk | ⟨v, rfl⟩
    · exact hm.del_ok hk
    · exact hc.1

theorem Caused.key {c : Call} {r : Mutation} (h : Caused m c r) :
    r.key ∈ m ∨ ∃ v, c = .set r.key v := by
  cases r with
  | set k v => exact .inr ⟨v, h⟩
  | del k => exact h

/-- Every call logs what it does; a refused one does nothing. -/
theorem call_logged (hd : s.disk = none) (hw : s.wal = some w) (c : Call) :
    ∃ rs, Logged rs s (s.call c).2 ∧ (∀ r ∈ rs, Caused s.items.toMap c r)
      ∧ (w.Live → ∀ k v, c = .set k v → .set k v ∈ rs)
      ∧ ((s.call c).1.refused = true → (s.call c).2.items = s.items ∧ ¬ w.Live) := by
  cases c with
  | set k v =>
    rcases set_logged hd hw k v with ⟨hb, hs, hi⟩ | ⟨hb, ks, hs, hks⟩
    · exact ⟨[], hs, by simp, fun hl => absurd hl hi.2, fun _ => hi⟩
    · refine ⟨_, hs, fun r hmem => ?_, fun _ k' v' he => ?_, fun hc => ?_⟩
      · rcases List.mem_cons.1 hmem with rfl | hmem
        · exact rfl
        · obtain ⟨k', hk', rfl⟩ := List.mem_map.1 hmem
          rcases Finmap.mem_insert.1 (hks k' hk') with rfl | hk'
          · exact .inr ⟨v, rfl⟩
          · exact .inl hk'
      · obtain ⟨rfl, rfl⟩ := Call.set.inj he
        exact List.mem_cons_self
      · simp [call, Answer.refused, hb] at hc
  | get k =>
    exact ⟨[], get_logged hd hw k, by simp, by simp, fun hc => by simp [call, Answer.refused] at hc⟩
  | del k =>
    rcases del_logged hd hw k with ⟨hb, hs, hi⟩ | ⟨hb, hs, hk⟩ | ⟨hb, hs, hk⟩
    · exact ⟨[], hs, by simp, by simp, fun _ => hi⟩
    · refine ⟨[], ?_, by simp, by simp, fun hc => by simp [call, Answer.refused, hb] at hc⟩
      simp only [call, hs]
      exact .refl hw
    · refine ⟨_, hs, fun r hmem => ?_, by simp, fun hc => ?_⟩
      · rw [List.mem_singleton.1 hmem]
        exact .inl hk
      · simp [call, Answer.refused, hb] at hc
  | «exists» k =>
    exact ⟨[], .refl hw, by simp, by simp, fun hc => by simp [call, Answer.refused] at hc⟩

theorem run_logged : ∀ (cs : List Call) {s : Storage} {w : Wal}, s.disk = none → s.wal = some w →
    ∃ rs, Logged rs s (s.run cs) ∧ (MapOk s.items.toMap → (∀ c ∈ cs, c.Ok) → ∀ r ∈ rs, r.Ok)
      ∧ (w.Live → ∀ k v, Call.set k v ∈ cs → .set k v ∈ rs)
      ∧ ∀ r ∈ rs, r.key ∈ s.items.toMap ∨ ∃ v, Call.set r.key v ∈ cs
  | [], s, w, _, hw => ⟨[], .refl hw, by simp, by simp, by simp⟩
  | c :: cs, s, w, hd, hw => by
    obtain ⟨rs, hs, hcaused, hset, -⟩ := call_logged hd hw c
    obtain ⟨w₀, w', hw₀, hw', -, hlive⟩ := hs.wal
    obtain rfl : w = w₀ := Option.some.inj (hw.symm.trans hw₀)
    obtain ⟨rs', hs', hok', hset', hkey'⟩ := run_logged cs (hs.disk.trans hd) hw'
    have hkey : ∀ r ∈ rs, r.key ∈ s.items.toMap ∨ ∃ v, Call.set r.key v ∈ c :: cs := fun r hr =>
      (hcaused r hr).key.imp_right fun ⟨v, he⟩ => ⟨v, he ▸ List.mem_cons_self⟩
    refine ⟨rs ++ rs', hs.trans hs', fun hm hc r hr => ?_, fun hl k v hk => ?_, fun r hr => ?_⟩
    · have hrs := fun r hr => (hcaused r hr).ok hm (hc c List.mem_cons_self)
      rcases List.mem_append.1 hr with hr | hr
      · exact hrs r hr
      · refine hok' ?_ (fun c' h' => hc c' (List.mem_cons_of_mem c h')) r hr
        rw [hs.map]
        exact hm.applyAll hrs
    · rcases List.mem_cons.1 hk with rfl | hk
      · exact List.mem_append_left _ (hset hl k v rfl)
      · exact List.mem_append_right _ (hset' (hlive hl) k v hk)
    · rcases List.mem_append.1 hr with hr | hr
      · exact hkey r hr
      · rcases hkey' r hr with hmem | ⟨v, hv⟩
        · rw [hs.map] at hmem
          exact (mem_applyAll hmem).elim .inl fun ⟨v, hv⟩ => hkey (.set r.key v) hv
        · exact .inr ⟨v, List.mem_cons_of_mem c hv⟩

end Runs

section Buffer

variable {P : Mutation → Prop} {s s₁ : Storage} {r : Mutation} {k v : Bytes}

/-- What is left in the buffer of the log, if there is one, is a record with `P`. -/
def Pends (P : Mutation → Prop) (s : Storage) : Prop := ∀ w, s.wal = some w → w.Pends P

theorem logRecord_pends {b : Bool} (h : s.Pends P) (hr : P r) (hl : s.logRecord r = (b, s₁)) :
    s₁.Pends P := by
  rcases hw : s.wal with _ | w
  · rw [logRecord_none hw, Prod.mk.injEq] at hl
    exact hl.2 ▸ h
  · rw [logRecord_some hw, Prod.mk.injEq] at hl
    intro w' hw'
    rw [← hl.2] at hw'
    rw [← Option.some.inj hw']
    exact (h w hw).append hr

theorem evictLoop_pends : ∀ (n : ℕ) {s : Storage}, s.Pends P →
    (∀ k ∈ s.items.toMap, P (.del k)) → (evictLoop n s).1.Pends P
  | 0, _, h, _ => h
  | n + 1, s, h, hk => by
    rcases evictLoop_cases n s with he | ⟨k, v, s₁, hb, hl, he⟩ | ⟨k, v, s₁, hb, hl, s₂, rfl, he⟩
      <;> rw [he]
    · exact h
    · exact logRecord_pends h (hk k (mem_of_back hb)) hl
    · have hs₁ : s₁.Pends P := logRecord_pends h (hk k (mem_of_back hb)) hl
      refine evictLoop_pends n (s := { s₁ with items := s.items.popBack }) hs₁ fun k' hk' =>
        hk k' ?_
      change k' ∈ s.items.popBack.toMap at hk'
      rw [LinkedMap.toMap_popBack hb, Finmap.mem_erase] at hk'
      exact hk'.2

/-- A call leaves in the buffer what was there, or the record of a change it was about to make. -/
theorem call_pends (hd : s.disk = none) (h : s.Pends P) {c : Call}
    (hc : ∀ r, Caused s.items.toMap c r → P r) : (s.call c).2.Pends P := by
  cases c with
  | set k v =>
    have hset := hc (.set k v) rfl
    change (s.set k v).2.1.Pends P
    rcases set_cases hd k v with ⟨s₁, hl, he⟩ | ⟨s₁, i, hl, hi, s₂, rfl, he⟩
      | ⟨s₁, hi, hl, s₂, rfl, he⟩ <;> rw [he]
    · exact logRecord_pends h hset hl
    · have hs₁ : s₁.Pends P := logRecord_pends h hset hl
      exact hs₁
    · have hs₁ : s₁.Pends P := logRecord_pends h hset hl
      refine evictLoop_pends _ (s := { s₁ with items := _ }) hs₁ fun k' hk' => hc _ ?_
      rw [LinkedMap.toMap_emplaceFront hi] at hk'
      rcases Finmap.mem_insert.1 hk' with rfl | hk'
      · exact .inr ⟨v, rfl⟩
      · exact .inl hk'
  | get k =>
    change (s.get k).2.Pends P
    rcases get_cases hd k with ⟨-, he⟩ | ⟨i, v, -, -, he⟩ <;> rw [he] <;> exact h
  | del k =>
    change (s.del k).2.1.Pends P
    have hdel : k ∈ s.items.toMap → P (.del k) := fun hk => hc _ (.inl hk)
    rcases del_cases hd k with ⟨hi, he⟩ | ⟨i, s₁, hi, hl, he⟩ | ⟨i, s₁, hi, hl, s₂, rfl, he⟩ <;>
      rw [he]
    · exact h
    · exact logRecord_pends h (hdel (mem_of_index hi)) hl
    · have hs₁ : s₁.Pends P := logRecord_pends h (hdel (mem_of_index hi)) hl
      exact hs₁
  | «exists» k => exact h

end Buffer

/-- Whatever the calls, the capacity and the append that fails first, the log is complete records
and at most part of one more, and the map is what the complete records make of an empty one. These
are the records replay reads, if keys and values have lengths it accepts. A refused call leaves the
map and the order of the keys as they were. -/
theorem log_eq_memory (capacity : ℕ) (fault : Option (ℕ × ℕ)) (cs : List Call) :
    let s := (openLog capacity none fault).run cs
    (∃ rs torn, s.logBytes = encodeAll rs ++ torn ∧ IsCut torn ∧ s.toMap = applyAll ∅ rs
      ∧ ((∀ c ∈ cs, c.Ok) → Wal.records s.logBytes = rs))
    ∧ ∀ c, (s.call c).1.refused = true →
      (s.call c).2.toMap = s.toMap ∧ (s.call c).2.items.entries = s.items.entries := by
  intro s
  obtain ⟨rs, hlog, hok, -⟩ := run_logged cs (rfl : (openLog capacity none fault).disk = none) rfl
  obtain ⟨w, w', hw, hw', ⟨torn, hb, hcut, -⟩, -⟩ := hlog.wal
  cases hw
  have hbytes : s.logBytes = encodeAll rs ++ torn := by
    simp only [logBytes, s, hw', Option.map_some, Option.getD_some, hb, Wal.openForAppend,
      Option.getD_none, List.nil_append]
  refine ⟨⟨rs, torn, hbytes, hcut, ?_, fun hc => ?_⟩, fun c hc => ?_⟩
  · rw [toMap, hlog.disk]
    exact hlog.map
  · rw [hbytes]
    exact records_encodeAll_cut (hok mapOk_empty hc) hcut
  · obtain ⟨_, hc', -, -, h⟩ := call_logged hlog.disk hw' c
    rw [toMap, toMap, hc'.disk, hlog.disk, (h hc).1]
    exact ⟨rfl, rfl⟩

end Storage

end Redon
