import Redon.DiskEvents
import Redon.Lib.Machine
import Redon.Proofs.DiskStore

/-!
# What a reopened data file gives back

Opening any file gives a store whose index points at the values its records leave
(`ofFile_points`), whatever calls fail. A file is sealed when it is records and then white space at
most, so that a record appended to it is read back (`Sealed`). A store that reports itself healthy
has a sealed file that makes its map, if the constructor got rid of what it could not read and
`clear` emptied the file (`Healthy`). A write keeps that or leaves part of a record at the end, the
record in the buffer (`Drained`) and an unhealthy store.
-/

namespace Redon

open Lib Lib.IStream Mutation

namespace DiskStore

variable {d d' : DiskStore} {m : Map} {fs : FsCalls} {order : IterOrder} {bytes t : Bytes}
  {ws : List Bytes} {rs : List Mutation} {r : Mutation} {fault : Option (ℕ × ℕ)}

section Open

/-- Compaction leaves the file alone or replaces it by the live records. -/
theorem compact_spec (h : Points d.file.bytes d.index m) (fs : FsCalls) (order : IterOrder) :
    Points (d.compact fs order).file.bytes (d.compact fs order).index m
    ∧ (((d.compact fs order).file.bytes = d.file.bytes
        ∧ (fs.tmpOpened && fs.copied && fs.renamed) = false)
      ∨ (d.compact fs order).file.bytes
        = encodeAll ((order.arrange d.index.entries).map (liveRecord d.file.bytes))) := by
  unfold compact
  by_cases hcopy : (fs.tmpOpened && fs.copied) = true
  · rw [if_pos hcopy, compactLoop_live h order]
    simp only []
    split_ifs with hren
    · exact ⟨liveIndex_points h order, .inr rfl⟩
    · rw [hcopy, Bool.true_and]
      exact ⟨h, .inl ⟨rfl, by simpa using hren⟩⟩
  · rw [if_neg hcopy, (Bool.not_eq_true _).mp hcopy]
    exact ⟨h, .inl ⟨rfl, rfl⟩⟩

theorem compactIfWasteful_points (h : Points d.file.bytes d.index m) (fs : FsCalls)
    (order : IterOrder) (n : ℕ) : Points (d.compactIfWasteful fs order n).file.bytes
      (d.compactIfWasteful fs order n).index m := by
  unfold compactIfWasteful
  split_ifs
  · exact (compact_spec h fs order).1
  · exact h

theorem compact_ok (hd : d.ok = true) (hc : fs.compactReopened = true) (order : IterOrder) :
    (d.compact fs order).ok = true := by
  unfold compact
  split_ifs
  · split
    · exact hd
    · exact hc
  · split
    · exact hd
    · exact hc
  · exact hd

theorem compactIfWasteful_ok (hd : d.ok = true) (hc : fs.compactReopened = true)
    (order : IterOrder) (n : ℕ) : (d.compactIfWasteful fs order n).ok = true := by
  unfold compactIfWasteful
  split_ifs
  · exact compact_ok hd hc order
  · exact hd

/-- Opening any file, whatever calls fail. -/
theorem ofFile_points (hws : List.Forall₂ Chunk ws rs) (ht : Unread t) (ho : fs.opened = true)
    (order : IterOrder) (fault : Option (ℕ × ℕ)) :
    Points (ofFile fs order (ws.flatten ++ t) fault).file.bytes
      (ofFile fs order (ws.flatten ++ t) fault).index (applyAll ∅ rs) := by
  obtain ⟨b, hb, hd⟩ := ofFile_cases hws ht ho order fault
  have hpb : Points b (scanIndex 0 ∅ ws rs) (applyAll ∅ rs) := by
    rcases hb with rfl | ⟨rfl, -⟩
    · exact scanIndex_points hws
    · exact (scanIndex_points hws).append t
  rcases hd with ⟨-, hd⟩ | hd <;> rw [hd]
  · exact hpb
  · exact compactIfWasteful_points (d := ⟨⟨b, fault, []⟩, scanIndex 0 ∅ ws rs, true⟩) hpb fs order _

end Open

section Inside

/-- The entries of the index lie inside the file. -/
def Inside (d : DiskStore) : Prop :=
  ∀ k e, d.index.lookup k = some e → e.valuePos + e.valueLen ≤ d.file.bytes.length

theorem Inside.points (h : d.Inside) : Points d.file.bytes d.index d.toMap := ⟨h, lookup_toMap d⟩

theorem ofFile_inside (fs : FsCalls) (order : IterOrder) (bytes : Bytes)
    (fault : Option (ℕ × ℕ)) : (ofFile fs order bytes fault).Inside := by
  by_cases ho : fs.opened = true
  · obtain ⟨ws, rs, t, rfl, hws, -, ht⟩ := exists_chunks bytes.length bytes le_rfl
    exact (ofFile_points hws ht ho order fault).inside
  · intro k e he
    simp [ofFile, ho] at he

/-- No key or value is longer than a reader accepts. -/
def short : Mutation → Bool
  | .set k v => k.length ≤ kMaxField && v.length ≤ kMaxField
  | .del _ => true

theorem fieldOk_of_ne_nil {k : Bytes} (hne : k ≠ []) (hk : k.length ≤ kMaxField) :
    fieldOk k.length = true := by
  have hpos : k.length ≠ 0 := fun h => hne (List.eq_nil_of_length_eq_zero h)
  simp [fieldOk, hpos, hk]

/-- What a write can do: be refused, append its record, or append part of it and break the store. -/
theorem write_cases (d : DiskStore) (r : Mutation) :
    d.write r = (false, d) ∨
    (∃ f index, d.ok = true ∧ f.bytes = d.file.bytes ++ r.encode
      ∧ (∀ m, Points d.file.bytes d.index m → Points f.bytes index (r.apply m)
        ∧ (MapOk m → short r = true → r.Ok))
      ∧ d.write r = (true, ⟨f, index, true⟩)) ∨
    (∃ f t, d.ok = true ∧ IsCut t ∧ f.bytes = d.file.bytes ++ t
      ∧ d.write r = (false, ⟨f, d.index, false⟩)) := by
  cases r with
  | set k v =>
    refine (d.set_cases k v).imp id (Or.imp ?_ id)
    rintro ⟨f, hok, hk, hv, hf, he⟩
    refine ⟨f, _, hok, hf, fun m hm => ⟨hf ▸ hm.set k v, fun _ hs => ?_⟩, he⟩
    rw [short, Bool.and_eq_true, decide_eq_true_eq, decide_eq_true_eq] at hs
    exact ⟨fieldOk_of_ne_nil hk hs.1, fieldOk_of_ne_nil hv hs.2⟩
  | del k =>
    refine (d.del_cases k).imp id (Or.imp ?_ ?_)
    · rintro ⟨f, hok, hsome, hf, he⟩
      refine ⟨f, _, hok, hf, fun m hm => ⟨hf ▸ hm.del k _, fun hmap _ => ?_⟩, he⟩
      rw [Option.isSome_iff_ne_none, Ne, hm.lookup_eq_none, Finmap.lookup_eq_none, not_not] at hsome
      exact hmap.del_ok hsome
    · rintro ⟨f, t, hok, -, ht, hf, he⟩
      exact ⟨f, t, hok, ht, hf, he⟩

theorem Inside.step (h : d.Inside) {e : Event} (hs : d.step e = some d') : d'.Inside := by
  cases e with
  | write r =>
    obtain rfl := Option.some.inj hs
    rcases d.write_cases r with he | ⟨f, index, -, -, hp, he⟩ | ⟨f, t, -, -, hf, he⟩ <;> rw [he]
    · exact h
    · exact (hp d.toMap h.points).1.inside
    · have hp := h.points.append t
      rw [← hf] at hp
      exact hp.inside
  | clear truncated reopened =>
    obtain rfl := Option.some.inj hs
    intro k e he
    simp [clear] at he
  | disk fault =>
    obtain rfl := Option.some.inj hs
    exact h

theorem inside_reaches (h : Reaches step (ofFile fs order bytes fault) d) : d.Inside :=
  h.inv Inside (fun _ _ _ hd hs => hd.step hs) (ofFile_inside fs order bytes fault)

end Inside

section Sealed

/-- The file is the records `rs` and then white space at most. -/
structure Sealed (rs : List Mutation) (b : Bytes) : Prop where
  ok : ∀ r ∈ rs, r.Ok
  chunks : ∃ ws bl, List.Forall₂ Chunk ws rs ∧ (∀ c ∈ bl, isBlank c = true) ∧ b = ws.flatten ++ bl

variable {b : Bytes}

theorem sealed_chunks (hok : ∀ r ∈ rs, r.Ok) (hws : List.Forall₂ Chunk ws rs) :
    Sealed rs ws.flatten := ⟨hok, ws, [], hws, by simp, (List.append_nil _).symm⟩

theorem sealed_blank (hb : ∀ c ∈ b, isBlank c = true) : Sealed [] b :=
  ⟨by simp, [], b, .nil, hb, rfl⟩

theorem Sealed.append (h : Sealed rs b) (hr : r.Ok) : Sealed (rs ++ [r]) (b ++ r.encode) := by
  obtain ⟨hok, ws, bl, hws, hbl, rfl⟩ := h
  refine ⟨fun r' hr' => ?_, ws ++ [bl ++ r.encode], [], ?_, by simp, by simp⟩
  · rcases List.mem_append.1 hr' with hr' | hr'
    · exact hok r' hr'
    · rw [List.mem_singleton.1 hr']
      exact hr
  · exact List.rel_append hws (.cons ((chunk_encode hr).blanks hbl) .nil)

/-- Recovery of a sealed file with part of a record behind it, when its own calls succeed. -/
theorem Sealed.recovers (h : Sealed rs b) (ht : IsCut t) (order : IterOrder) :
    (ofFile .allOk order (b ++ t) none).ok = true
    ∧ (ofFile .allOk order (b ++ t) none).toMap = applyAll ∅ rs := by
  obtain ⟨-, ws, bl, hws, hbl, rfl⟩ := h
  have hun := (unread_cut ht).blanks hbl
  rw [List.append_assoc]
  refine ⟨?_, (ofFile_points hws hun rfl order none).toMap⟩
  obtain ⟨c, -, ⟨hd, -⟩ | hd⟩ := ofFile_cases hws hun (rfl : FsCalls.allOk.opened = true)
    order none
  · cases hd
  · rw [hd]
    exact compactIfWasteful_ok rfl rfl order _

end Sealed

section Healthy

/-- What the scan does not read is white space, or the constructor gets rid of it: by the resize, or
by a compaction that replaces the file. -/
def Healed (fs : FsCalls) (bytes : Bytes) : Prop :=
  fs.resized = true ∨ (∀ c ∈ bytes.drop (scan bytes).2, isBlank c = true)
    ∨ (2 * liveBytes (scan bytes).1 + 4096 < (scan bytes).2
      ∧ (fs.tmpOpened && fs.copied && fs.renamed) = true)

/-- A write that a reader accepts, and a `clear` that does not leave old bytes in a file it
reopens. -/
def safe (d : DiskStore) : Event → Bool
  | .write r => short r
  | .clear truncated reopened => truncated || !reopened || d.file.close.bytes.all isBlank
  | .disk _ => true

/-- If the store reports itself healthy, its file is sealed and makes its map. -/
def Healthy (d : DiskStore) : Prop :=
  d.ok = true → ∃ rs, Sealed rs d.file.bytes ∧ Points d.file.bytes d.index (applyAll ∅ rs)

theorem ofFile_healthy (h : Healed fs bytes) (order : IterOrder) (fault : Option (ℕ × ℕ)) :
    Healthy (ofFile fs order bytes fault) := by
  intro hok
  have ho : fs.opened = true := by
    by_contra ho
    simp [ofFile, ho] at hok
  obtain ⟨ws, rs, t, rfl, hws, hrs, ht⟩ := exists_chunks bytes.length bytes le_rfl
  obtain ⟨b, hb, ⟨-, hd⟩ | hd⟩ := ofFile_cases hws ht ho order fault
  · rw [hd] at hok
    cases hok
  have hpb := ofFile_points hws ht ho order fault
  rw [hd] at hpb ⊢
  rw [Healed, scan_chunks hws ht, List.drop_left] at h
  -- the file before the compaction
  have hseal : (2 * liveBytes (scanIndex 0 ∅ ws rs) + 4096 < ws.flatten.length
      → (fs.tmpOpened && fs.copied && fs.renamed) = false) → Sealed rs b := by
    intro hno
    rcases hb with rfl | ⟨rfl, hres⟩
    · exact sealed_chunks hrs hws
    · rcases h with h | h | ⟨hw, hf⟩
      · rw [hres] at h
        cases h
      · exact ⟨hrs, ws, t, hws, h, rfl⟩
      · rw [hno hw] at hf
        cases hf
  unfold compactIfWasteful at hpb ⊢
  split_ifs at hpb ⊢ with hw
  · have hp₀ : Points b (scanIndex 0 ∅ ws rs) (applyAll ∅ rs) := by
      rcases hb with rfl | ⟨rfl, -⟩
      · exact scanIndex_points hws
      · exact (scanIndex_points hws).append t
    rcases (compact_spec (d := ⟨⟨b, fault, []⟩, scanIndex 0 ∅ ws rs, true⟩) hp₀ fs order).2
      with ⟨he, hf⟩ | he
    · rw [he] at hpb ⊢
      exact ⟨rs, hseal fun _ => hf, hpb⟩
    · have hlive := live_ok hp₀ (mapOk_empty.applyAll hrs) order
      rw [he] at hpb ⊢
      refine ⟨_, sealed_chunks hlive (forall₂_chunk_encode hlive), ?_⟩
      rw [applyAll_live hp₀ order]
      exact hpb
  · exact ⟨rs, hseal fun hlt => absurd ⟨by omega, hlt⟩ hw, hpb⟩

theorem Healthy.step (h : Healthy d) {e : Event} (hsafe : safe d e = true)
    (hs : d.step e = some d') : Healthy d' := by
  intro hok
  cases e with
  | write r =>
    obtain rfl := Option.some.inj hs
    rcases d.write_cases r with he | ⟨f, index, hd, hf, hp, he⟩ | ⟨f, t, -, -, -, he⟩ <;>
      rw [he] at hok ⊢
    · exact h hok
    · obtain ⟨rs, hseal, hpoints⟩ := h hd
      obtain ⟨hp', hr⟩ := hp _ hpoints
      refine ⟨rs ++ [r], ?_, ?_⟩
      · change Sealed (rs ++ [r]) f.bytes
        rw [hf]
        exact hseal.append (hr (mapOk_empty.applyAll hseal.ok) hsafe)
      · rw [applyAll_append]
        exact hp'
    · cases hok
  | clear truncated reopened =>
    obtain rfl := Option.some.inj hs
    have hre : reopened = true := hok
    refine ⟨[], sealed_blank ?_, fun k e he => by simp [clear] at he,
      fun k => by simp [clear, applyAll]⟩
    intro c hc
    cases truncated with
    | true => simp [clear] at hc
    | false =>
      simp only [safe, hre, Bool.false_or, Bool.not_true, List.all_eq_true] at hsafe
      exact hsafe c hc
  | disk fault =>
    obtain rfl := Option.some.inj hs
    exact h hok

theorem write_of_broken (h : d.ok = false) (r : Mutation) : d.write r = (false, d) := by
  rcases d.write_cases r with he | ⟨f, index, hd, -⟩ | ⟨f, t, hd, -⟩
  · exact he
  · rw [h] at hd
    cases hd
  · rw [h] at hd
    cases hd

theorem writes_of_broken (h : d.ok = false) : ∀ rs : List Mutation,
    d.writeAll rs = d ∧ d.acked rs = []
  | [] => ⟨rfl, rfl⟩
  | r :: rs => by
    have ih := writes_of_broken h rs
    have he := write_of_broken h r
    refine ⟨?_, ?_⟩
    · rw [writeAll, List.foldl_cons, he]
      exact ih.1
    · rw [acked, he]
      exact ih.2

/-- After any writes the file is what seals the acknowledged ones, and part of a record at most. -/
theorem Healthy.writes : ∀ {rs : List Mutation} {d : DiskStore}, Healthy d → d.ok = true →
    (∀ r ∈ rs, short r = true) → ∃ rs' b t, Sealed rs' b ∧ IsCut t
      ∧ (d.writeAll rs).file.bytes = b ++ t ∧ applyAll ∅ rs' = applyAll d.toMap (d.acked rs)
  | [], d, h, hok, _ => by
    obtain ⟨rs', hseal, hp⟩ := h hok
    exact ⟨rs', _, [], hseal, isCut_nil, (List.append_nil _).symm, hp.toMap.symm⟩
  | r :: rs, d, h, hok, hshort => by
    have hr := hshort r List.mem_cons_self
    have hrs := fun r' h' => hshort r' (List.mem_cons_of_mem r h')
    have hstep : Healthy (d.write r).2 := h.step (e := .write r) hr rfl
    rw [writeAll, List.foldl_cons, acked]
    rcases d.write_cases r with he | ⟨f, index, -, -, hp, he⟩ | ⟨f, t, -, ht, hf, he⟩ <;>
      rw [he] at hstep ⊢
    · exact hstep.writes hok hrs
    · obtain ⟨rs', b, t, hseal, ht, hb, hm⟩ := hstep.writes rfl hrs
      obtain ⟨rs₀, -, hpoints⟩ := h hok
      have hmap : toMap ⟨f, index, true⟩ = r.apply d.toMap := by
        rw [hpoints.toMap]
        exact (hp _ hpoints).1.toMap
      refine ⟨rs', b, t, hseal, ht, hb, ?_⟩
      rw [hm, hmap]
      rfl
    · obtain ⟨rs₀, hseal, hpoints⟩ := h hok
      obtain ⟨hw, ha⟩ := writes_of_broken (d := ⟨f, d.index, false⟩) rfl rs
      refine ⟨rs₀, d.file.bytes, t, hseal, ht, ?_, ?_⟩
      · change (writeAll ⟨f, d.index, false⟩ rs).file.bytes = _
        rw [hw]
        exact hf
      · rw [ha, hpoints.toMap]
        rfl

end Healthy

section Buffer

/-- Nothing is left in the buffer of a store that reports itself healthy. -/
def Drained (d : DiskStore) : Prop := d.ok = true → d.file.pending = []

theorem compactIfWasteful_pending (d : DiskStore) (fs : FsCalls) (order : IterOrder) (n : ℕ) :
    (d.compactIfWasteful fs order n).file.pending = d.file.pending := by
  unfold compactIfWasteful compact
  split_ifs
  · split <;> rfl
  · split <;> rfl
  · rfl
  · rfl

theorem ofFile_drained (fs : FsCalls) (order : IterOrder) (bytes : Bytes)
    (fault : Option (ℕ × ℕ)) : Drained (ofFile fs order bytes fault) := by
  intro _
  unfold ofFile recover
  dsimp only
  split_ifs
  all_goals first
    | exact compactIfWasteful_pending _ fs order _
    | rfl

/-- A write is refused, or the file and the store's health are what its append comes to. -/
theorem write_append (d : DiskStore) (r : Mutation) :
    (d.write r = (false, d) ∧ d.appendFails r = false) ∨
    (d.ok = true ∧ (d.write r).2.file = (d.file.append r.encode).2
      ∧ (d.write r).2.ok = (d.file.append r.encode).1
      ∧ d.appendFails r = !(d.file.append r.encode).1) := by
  cases r with
  | set k v =>
    have hw : d.write (.set k v) = d.set k v := rfl
    by_cases href : (!d.ok || k.isEmpty || v.isEmpty) = true
    · refine .inl ⟨by rw [hw, set, if_pos href], ?_⟩
      simp only [Bool.or_eq_true, Bool.not_eq_true'] at href
      rcases href with (h | h) | h <;> simp [appendFails, h]
    · rw [hw, set, if_neg href]
      simp only [Bool.or_eq_true, not_or, Bool.not_eq_true', Bool.not_eq_false,
        Bool.not_eq_true] at href
      obtain ⟨⟨hok, hk⟩, hv⟩ := href
      rcases ha : d.file.append (Mutation.set k v).encode with ⟨_ | _, f⟩ <;>
        exact .inr ⟨hok, rfl, by simp [hok], by simp [appendFails, hok, hk, hv, ha]⟩
  | del k =>
    have hw : d.write (.del k) = d.del k := rfl
    by_cases href : (!d.ok || k.isEmpty) = true
    · refine .inl ⟨by rw [hw, del, if_pos href], ?_⟩
      simp only [Bool.or_eq_true, Bool.not_eq_true'] at href
      rcases href with h | h <;> simp [appendFails, h]
    by_cases hnone : (d.index.lookup k).isNone = true
    · refine .inl ⟨by rw [hw, del, if_neg href, if_pos hnone], ?_⟩
      simp [appendFails, Option.isNone_iff_eq_none.1 hnone]
    · rw [hw, del, if_neg href, if_neg hnone]
      simp only [Bool.or_eq_true, not_or, Bool.not_eq_true', Bool.not_eq_false,
        Bool.not_eq_true] at href
      obtain ⟨hok, hk⟩ := href
      have hsome : (d.index.lookup k).isSome = true := by
        rwa [Option.isSome_iff_ne_none, Ne, ← Option.isNone_iff_eq_none]
      rcases ha : d.file.append (Mutation.del k).encode with ⟨_ | _, f⟩ <;>
        exact .inr ⟨hok, rfl, by simp [hok], by simp [appendFails, hok, hk, hsome, ha]⟩

theorem write_drained (h : d.Drained) (r : Mutation) : (d.write r).2.Drained := by
  rcases d.write_append r with ⟨he, -⟩ | ⟨hok, hfile, hok', -⟩
  · rw [he]
    exact h
  · intro hw
    rw [hok'] at hw
    rw [hfile, AppendFile.append_pending, if_pos hw]
    exact h hok

theorem Drained.step (h : d.Drained) {e : Event} (hs : d.step e = some d') : d'.Drained := by
  cases e with
  | write r =>
    obtain rfl := Option.some.inj hs
    exact write_drained h r
  | clear truncated reopened =>
    obtain rfl := Option.some.inj hs
    exact fun _ => rfl
  | disk fault =>
    obtain rfl := Option.some.inj hs
    exact h

theorem write_ok (hok : d.ok = true) (h : d.appendFails r = false) : (d.write r).2.ok = true := by
  rcases d.write_append r with ⟨he, -⟩ | ⟨-, -, hok', hf⟩
  · rw [he]
    exact hok
  · rw [h] at hf
    rw [hok']
    simpa using hf.symm

theorem writeAll_drained : ∀ {rs : List Mutation} {d : DiskStore}, d.Drained → d.ok = true →
    d.anyAppendFails rs = false → (d.writeAll rs).file.pending = []
  | [], d, h, hok, _ => h hok
  | r :: rs, d, h, hok, hno => by
    rw [anyAppendFails, Bool.or_eq_false_iff] at hno
    change ((d.write r).2.writeAll rs).file.pending = []
    exact writeAll_drained (write_drained h r) (write_ok hok hno.1) hno.2

/-- What an ending leaves is the file, if no append failed or there is no closing. -/
theorem leaves_eq (h : d.Drained) (hok : d.ok = true) {e : Ending}
    (he : e = .killed ∨ d.anyAppendFails rs = false) :
    (d.writeAll rs).leaves e = (d.writeAll rs).file.bytes := by
  cases e with
  | killed => rfl
  | closed fault =>
    have hnil := writeAll_drained h hok (he.resolve_left fun h => by cases h)
    have hclose := AppendFile.close_of_nil (f := { (d.writeAll rs).file with fault := fault }) hnil
    rw [leaves, hclose]

end Buffer

/-- A store that reports itself healthy is recoverable, from any file and with any calls failing, if
the constructor got rid of what it could not read and no `clear` reopened a file it did not empty:
the next recovery gives back its map with the later acknowledged writes. The file is then as a kill
left it, or it was closed and no append had failed. -/
theorem healthy_recovers (hfs : Healed fs bytes)
    (hr : Reaches (guarded safe step) (ofFile fs order bytes fault) d) (hok : d.ok = true)
    (hshort : ∀ r ∈ rs, short r = true) {e : Ending}
    (hend : e = .killed ∨ d.anyAppendFails rs = false) (order' : IterOrder) :
    (ofFile .allOk order' ((d.writeAll rs).leaves e) none).ok = true
    ∧ (ofFile .allOk order' ((d.writeAll rs).leaves e) none).toMap
      = applyAll d.toMap (d.acked rs) := by
  obtain ⟨h, hdrained⟩ := hr.inv (fun d => Healthy d ∧ Drained d) (fun s e s' hs he => by
    obtain ⟨hsafe, hstep⟩ := guarded_eq_some.1 he
    exact ⟨hs.1.step hsafe hstep, hs.2.step hstep⟩)
    ⟨ofFile_healthy hfs order fault, ofFile_drained fs order bytes fault⟩
  obtain ⟨rs', b, t, hseal, ht, hb, hm⟩ := h.writes hok hshort
  rw [leaves_eq hdrained hok hend, hb, ← hm]
  exact hseal.recovers ht order'

/-- A file with a stray byte at its end, healed when it is opened, and one write; then it is
closed. -/
theorem healthy_recovers_stray :
    (ofFile .allOk ⟨id, .refl⟩ (((ofFile { FsCalls.allOk with renamed := false } ⟨id, .refl⟩
        (ascii "SET 1 1 a1\nx") none).writeAll [.set [98] [50]]).leaves (.closed none)) none).toMap
      = applyAll (ofFile { FsCalls.allOk with renamed := false } ⟨id, .refl⟩
          (ascii "SET 1 1 a1\nx") none).toMap [.set [98] [50]] :=
  (healthy_recovers (.inl rfl) .refl (by decide)
    (by decide : ∀ r ∈ [Mutation.set [98] [50]], short r = true) (.inr (by decide)) _).2

/-! Closing the file after an append that failed writes the record that was refused, and the next
recovery has it. -/

example :
    let d := ofFile .allOk ⟨id, .refl⟩ [] (some (0, 0))
    d.acked [.set [97] [49]] = [] ∧ (ofFile .allOk ⟨id, .refl⟩
      ((d.writeAll [.set [97] [49]]).leaves (.closed none)) none).get [97] = some [49] := by
  decide

/-- Where the resize fails the store is healthy, and what it acknowledges is lost. Where `clear`
fails to truncate and returns true, what it cleared comes back. -/
theorem healthy_store_diverges :
    (∃ d, d = ofFile { FsCalls.allOk with resized := false } ⟨id, .refl⟩ (ascii "x") none
      ∧ d.ok = true ∧ (d.set [97] [49]).1 = true
      ∧ (ofFile .allOk ⟨id, .refl⟩ (d.set [97] [49]).2.file.bytes none).get [97] = none)
    ∧ ∃ d, d = ((ofFile .allOk ⟨id, .refl⟩ [] none).set [97] [49]).2
      ∧ (d.clear false true).1 = true ∧ (d.clear false true).2.exists? [97] = false
      ∧ (ofFile .allOk ⟨id, .refl⟩ (d.clear false true).2.file.bytes none).get [97] = some [49] :=
  ⟨⟨_, rfl, by decide, by decide, by decide⟩, _, rfl, by decide, by decide, by decide⟩

end DiskStore

end Redon
