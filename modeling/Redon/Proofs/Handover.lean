import Redon.Proofs.Commands
import Redon.Proofs.DiskStore
import Redon.Proofs.Wire

/-!
# What the leader hands over

Each call on a store, in memory with any capacity and log or on disk, hands over exactly the
changes it makes to the map, in order, evictions included, and each with the map right after it
(`HandsOver`, `answerLine_handsOver`). A snapshot, of the list in memory or of the offsets on disk,
holds the map's entries once each (`IsSnapshot`), and later appends to the data file do not change
what is read at the offsets (`Reads.append`).
-/

namespace Redon

open Lib Mutation Replicator

namespace Storage

section Chain

/-- Each change is recorded with the map right after it. -/
def Chain : Map → List Replicated → Prop
  | _, [] => True
  | m, r :: rs => r.2.toMap = r.1.apply m ∧ Chain (r.1.apply m) rs

theorem chain_append : ∀ {rs rs' : List Replicated} {m : Map},
    Chain m (rs ++ rs') ↔ Chain m rs ∧ Chain (applyAll m (rs.map Prod.fst)) rs'
  | [], rs', m => by simp [Chain, applyAll]
  | r :: rs, rs', m => by
    rw [List.cons_append, Chain, Chain, chain_append, and_assoc]
    rfl

theorem Chain.last : ∀ {rs : List Replicated} {s : Storage}, Chain s.toMap rs →
    ((rs.getLast?.map Prod.snd).getD s).toMap = applyAll s.toMap (rs.map Prod.fst)
  | [], _, _ => rfl
  | r :: rs, s, h => by
    obtain ⟨hr, h⟩ := h
    rw [← hr] at h
    have ih := h.last
    rw [hr] at ih
    rw [List.map_cons, applyAll, List.foldl_cons]
    rw [applyAll] at ih
    rw [← ih, List.getLast?_cons]
    cases rs.getLast? <;> rfl

end Chain

section Sound

/-- The entries of an on-disk engine's index lie inside its file. -/
def Sound (s : Storage) : Prop :=
  ∀ d, s.disk = some d → ∀ k e, d.index.lookup k = some e →
    e.valuePos + e.valueLen ≤ d.file.bytes.length

/-- The data file only grows. -/
def Grows (s s' : Storage) : Prop :=
  ∀ d, s.disk = some d → ∃ d', s'.disk = some d' ∧ d.file.bytes <+: d'.file.bytes

theorem Sound.points {s : Storage} {d : DiskStore} (h : s.Sound) (hd : s.disk = some d) :
    DiskStore.Points d.file.bytes d.index d.toMap :=
  ⟨h d hd, DiskStore.lookup_toMap d⟩

end Sound

section Calls

variable {s s₁ s' : Storage} {rs : List Replicated} {r : Mutation} {k v : Bytes}

/-- From `s` to `s'` the changes `rs` were made and handed over, and nothing else was. -/
structure HandsOver (rs : List Replicated) (s s' : Storage) : Prop where
  sound : s'.Sound
  grows : Grows s s'
  chain : Chain s.toMap rs
  map : s'.toMap = applyAll s.toMap (rs.map Prod.fst)
  wire : WireMap s.toMap → ∀ r ∈ rs, r.1.Wire

theorem grows_of_eq (h : s'.disk = s.disk) : Grows s s' :=
  fun d hd => ⟨d, h.trans hd, List.prefix_rfl⟩

theorem Grows.trans (h : Grows s s₁) (h' : Grows s₁ s') : Grows s s' := by
  intro d hd
  obtain ⟨d₁, hd₁, hp⟩ := h d hd
  obtain ⟨d', hd', hp'⟩ := h' d₁ hd₁
  exact ⟨d', hd', hp.trans hp'⟩

theorem handsOver_nil (hs : s'.Sound) (hg : Grows s s') (hm : s'.toMap = s.toMap) :
    HandsOver [] s s' :=
  ⟨hs, hg, trivial, hm, fun _ => by simp⟩

theorem HandsOver.cons (hg : Grows s s₁) (hm : s₁.toMap = r.apply s.toMap)
    (hw : WireMap s.toMap → r.Wire) (h : HandsOver rs s₁ s') : HandsOver ((r, s₁) :: rs) s s' := by
  refine ⟨h.sound, hg.trans h.grows, ⟨hm, hm ▸ h.chain⟩, ?_, fun hs => ?_⟩
  · rw [h.map, hm]
    rfl
  · rw [List.forall_mem_cons]
    exact ⟨hw hs, h.wire (hm ▸ hs.apply (hw hs))⟩

theorem sound_of_none (h : s.disk = none) : s.Sound := by
  intro d hd
  rw [h] at hd
  cases hd

theorem toMap_of_none (h : s.disk = none) : s.toMap = s.items.toMap := by
  rw [toMap, h]

theorem memory_cons {items : LinkedMap Bytes Bytes} (hd : s.disk = none)
    (hl : s.logRecord r = (true, s₁)) (hi : items.toMap = r.apply s.items.toMap)
    (hw : WireMap s.toMap → r.Wire) (h : HandsOver rs { s₁ with items := items } s') :
    HandsOver ((r, { s₁ with items := items }) :: rs) s s' := by
  have hd₁ := disk_logRecord hl
  refine h.cons (grows_of_eq hd₁) ?_ hw
  rw [toMap_of_none hd, ← hi]
  exact toMap_of_none (hd₁.trans hd)

theorem memory_nil {b : Bool} (hd : s.disk = none) (hl : s.logRecord r = (b, s₁)) :
    HandsOver [] s s₁ := by
  have hd₁ := disk_logRecord hl
  refine handsOver_nil (sound_of_none (hd₁.trans hd)) (grows_of_eq hd₁) ?_
  rw [toMap_of_none (hd₁.trans hd), toMap_of_none hd, logRecord_eq hl]

theorem disk_spec {d d' : DiskStore} {m : Map} (hd : s.disk = some d)
    (hb : d.file.bytes <+: d'.file.bytes) (hp : DiskStore.Points d'.file.bytes d'.index m) :
    Sound { s with disk := some d' } ∧ Grows s { s with disk := some d' }
    ∧ toMap { s with disk := some d' } = m := by
  refine ⟨?_, fun d₀ hd₀ => ?_, hp.toMap⟩
  · rintro _ ⟨⟩
    exact hp.inside
  · rw [hd] at hd₀
    obtain rfl := Option.some.inj hd₀
    exact ⟨d', rfl, hb⟩

theorem disk_nil {d : DiskStore} (d' : DiskStore) (hd : s.disk = some d) (hs : s.Sound)
    (hi : d'.index = d.index) (hb : d.file.bytes <+: d'.file.bytes) :
    HandsOver [] s { s with disk := some d' } := by
  have hp : DiskStore.Points d'.file.bytes d'.index d.toMap := by
    obtain ⟨t, ht⟩ := hb
    rw [← ht, hi]
    exact (hs.points hd).append t
  obtain ⟨hsound, hgrows, hmap⟩ := disk_spec hd hb hp
  refine handsOver_nil hsound hgrows (hmap.trans ?_)
  rw [toMap, hd]

theorem disk_cons {d : DiskStore} (d' : DiskStore) (hd : s.disk = some d)
    (hb : d.file.bytes <+: d'.file.bytes)
    (hp : DiskStore.Points d'.file.bytes d'.index (r.apply d.toMap))
    (hw : WireMap s.toMap → r.Wire) :
    HandsOver [(r, { s with disk := some d' })] s { s with disk := some d' } := by
  obtain ⟨hsound, hgrows, hmap⟩ := disk_spec hd hb hp
  refine (handsOver_nil hsound (grows_of_eq rfl) rfl).cons hgrows (hmap.trans ?_) hw
  rw [toMap, hd]

theorem handsOver_self (h : s.Sound) : HandsOver [] s s := handsOver_nil h (grows_of_eq rfl) rfl

theorem evictLoop_handsOver : ∀ (n : ℕ) {s : Storage}, s.disk = none →
    HandsOver (evictLoop n s).2 s (evictLoop n s).1
  | 0, s, hd => handsOver_self (sound_of_none hd)
  | n + 1, s, hd => by
    rcases evictLoop_cases n s with he | ⟨k, v, s₁, hb, hl, he⟩ | ⟨k, v, s₁, hb, hl, s₂, rfl, he⟩
    · rw [he]
      exact handsOver_self (sound_of_none hd)
    · rw [he]
      exact memory_nil hd hl
    · have hd₁ := disk_logRecord hl
      have hk : s.toMap.lookup k = some v := by
        rw [toMap_of_none hd]
        exact LinkedMap.lookup_toMap.2 (List.mem_of_getLast? hb)
      rw [he]
      exact memory_cons hd hl (LinkedMap.toMap_popBack hb) (fun hw => hw.del hk)
        (evictLoop_handsOver n (hd₁.trans hd))

theorem set_handsOver (hs : s.Sound) (hkv : (Mutation.set k v).Wire) :
    HandsOver (s.set k v).2.2 s (s.set k v).2.1 := by
  rcases hd : s.disk with _ | d
  · rcases set_cases hd k v with ⟨s₁, hl, he⟩ | ⟨s₁, i, hl, hi, s₂, rfl, he⟩
      | ⟨s₁, hi, hl, s₂, rfl, he⟩ <;> rw [he]
    · exact memory_nil hd hl
    · have hd₁ := disk_logRecord hl
      exact memory_cons hd hl (LinkedMap.toMap_setVal_splice hi) (fun _ => hkv)
        (handsOver_self (sound_of_none (hd₁.trans hd)))
    · have hd₁ := disk_logRecord hl
      exact memory_cons hd hl (LinkedMap.toMap_emplaceFront hi) (fun _ => hkv)
        (evictLoop_handsOver _ (hd₁.trans hd))
  · have hp := hs.points hd
    rcases d.set_cases k v with he | ⟨f, -, -, -, hf, he⟩ | ⟨f, t, -, -, hf, he⟩ <;>
      simp only [set, hd, he]
    · exact disk_nil d hd hs rfl List.prefix_rfl
    · have hp' := hp.set k v
      rw [← hf] at hp'
      exact disk_cons ⟨f, _, true⟩ hd ⟨_, hf.symm⟩ hp' fun _ => hkv
    · exact disk_nil ⟨f, d.index, false⟩ hd hs rfl ⟨t, hf.symm⟩

theorem del_handsOver (hs : s.Sound) (k : Bytes) :
    HandsOver (s.del k).2.2 s (s.del k).2.1 := by
  rcases hd : s.disk with _ | d
  · rcases del_cases hd k with ⟨hi, he⟩ | ⟨i, s₁, hi, hl, he⟩ | ⟨i, s₁, hi, hl, s₂, rfl, he⟩ <;>
      rw [he]
    · exact handsOver_self hs
    · exact memory_nil hd hl
    · have hd₁ := disk_logRecord hl
      have hk : s.items.toMap.lookup k ≠ none := by
        rw [Ne, Finmap.lookup_eq_none, ← index_eq_none_iff, hi]
        nofun
      obtain ⟨v, hv⟩ := Option.ne_none_iff_exists'.1 hk
      rw [← toMap_of_none hd] at hv
      exact memory_cons hd hl (LinkedMap.toMap_eraseAt hi) (fun hw => hw.del hv)
        (handsOver_self (sound_of_none (hd₁.trans hd)))
  · have hp := hs.points hd
    rcases d.del_cases k with he | ⟨f, -, hsome, hf, he⟩ | ⟨f, t, -, -, -, hf, he⟩ <;>
      simp only [del, hd, he, Bool.false_eq_true, if_false, if_true, Bool.not_true, Bool.not_false]
    · split_ifs <;> exact disk_nil d hd hs rfl List.prefix_rfl
    · have hp' := hp.del k (Mutation.del k).encode
      rw [← hf] at hp'
      have hv : d.toMap.lookup k ≠ none := by
        rwa [Ne, ← hp.lookup_eq_none, ← Ne, ← Option.isSome_iff_ne_none]
      obtain ⟨v, hv⟩ := Option.ne_none_iff_exists'.1 hv
      refine disk_cons (r := .del k) ⟨f, _, true⟩ hd ⟨_, hf.symm⟩ hp' fun hw => ?_
      rw [toMap, hd] at hw
      exact hw.del hv
    · exact disk_nil ⟨f, d.index, false⟩ hd hs rfl ⟨t, hf.symm⟩

/-- A read changes at most the order of use. -/
theorem get_eq (s : Storage) (k : Bytes) : ∃ items, (s.get k).2 = { s with items := items }
    ∧ items.toMap = s.items.toMap := by
  rcases Option.eq_none_or_eq_some s.disk with hd | ⟨d, hd⟩
  · rcases get_cases hd k with ⟨-, he⟩ | ⟨i, v, -, -, he⟩ <;> rw [he]
    · exact ⟨s.items, rfl, rfl⟩
    · exact ⟨s.items.splice i, rfl, LinkedMap.toMap_splice _ _⟩
  · refine ⟨s.items, ?_, rfl⟩
    change (s.get k).2 = s
    rw [get, hd]

theorem toMap_get (s : Storage) (k : Bytes) : (s.get k).2.toMap = s.toMap := by
  obtain ⟨items, he, hm⟩ := s.get_eq k
  rw [he, toMap, toMap, hm]

theorem get_handsOver (hs : s.Sound) (k : Bytes) : HandsOver [] s (s.get k).2 := by
  obtain ⟨items, he, -⟩ := s.get_eq k
  refine handsOver_nil ?_ ?_ (s.toMap_get k)
  · rw [he]
    exact hs
  · rw [he]
    exact grows_of_eq rfl

end Calls

end Storage

section Client

open Storage

variable {e : ExecEnv} {c : Call} {r : Mutation} {s : Storage} {line : Bytes}

theorem call_handsOver (hs : s.Sound) (hc : ∀ r, c.write = some r → r.Wire) :
    HandsOver (s.handed c) s (s.call c).2 := by
  cases c with
  | set k v => exact set_handsOver hs (hc _ rfl)
  | get k => exact get_handsOver hs k
  | del k => exact del_handsOver hs k
  | «exists» k => exact handsOver_self hs

/-- What a line without a newline changes comes through as a line. -/
theorem wire_of_lineOp {nd : Node} {link : Bool} (hn : 10 ∉ line)
    (h : nd.lineOp e link line = .call c) (hc : c.write = some r) : r.Wire := by
  cases (asks_of_lineOp h).2 with
  | set _ hkey hrest =>
    obtain rfl := Option.some.inj hc
    exact wire_line hn hkey hrest
  | get => cases hc
  | del _ hkey _ =>
    obtain rfl := Option.some.inj hc
    exact ⟨hkey, (key_spec line).1⟩
  | «exists» => cases hc

theorem answerLine_handsOver (info : Bytes) (he : e.nodeIsFollower = false)
    (hs : s.Sound) (hn : 10 ∉ line) :
    HandsOver ((⟨s, none⟩ : Node).answerLine e info false line).replicated s
      ((⟨s, none⟩ : Node).answerLine e info false line).store := by
  have hdoes : Does e ⟨s, false, none⟩ info _ _ := answerLine_does ⟨s, none⟩ false line
  rcases ho : (⟨s, none⟩ : Node).lineOp e false line with _ | _ | _ | _ | _ | _ | c | _ | _
  case sync => exact absurd (lineOp_sync.1 ho).2.1 (by rw [he]; exact Bool.false_ne_true)
  all_goals
    rw [ho] at hdoes
    generalize (⟨s, none⟩ : Node).answerLine e info false line = r at hdoes ⊢
    cases hdoes
  case call.call => exact call_handsOver hs fun r hr => wire_of_lineOp hn ho hr
  all_goals exact handsOver_self hs

end Client

section Snapshot

open Storage DiskStore

variable {s : Storage} {bytes : Bytes} {idx : List (Σ _ : Bytes, Entry)} {es : List (Bytes × Bytes)}

/-- The store's entries, once each. -/
structure IsSnapshot (s : Storage) (es : List (Bytes × Bytes)) : Prop where
  nodup : (es.map Prod.fst).Nodup
  map : mapOf es = s.toMap
  length : es.length = s.size

theorem isSnapshot_memory (hd : s.disk = none) : IsSnapshot s s.items.entries := by
  refine ⟨s.items.nodup_keys, (toMap_of_none hd).symm, ?_⟩
  rw [Storage.size, hd]
  exact s.items.size_eq_length.symm

/-- The values at the offsets `idx` are those of the entries `es`. -/
def Reads (bytes : Bytes) (idx : List (Σ _ : Bytes, Entry)) (es : List (Bytes × Bytes)) : Prop :=
  List.Forall₂ (fun kv p => kv.1 = p.1 ∧ kv.2.valuePos + kv.2.valueLen ≤ bytes.length
    ∧ readAt bytes kv.2 = some p.2) idx es

theorem Reads.append (h : Reads bytes idx es) {bytes' : Bytes} (hb : bytes <+: bytes') :
    Reads bytes' idx es := by
  obtain ⟨t, rfl⟩ := hb
  refine List.Forall₂.imp (fun kv p ⟨hk, hin, hv⟩ => ⟨hk, ?_, ?_⟩) h
  · rw [List.length_append]
    omega
  · rw [readAt_append hin, hv]

theorem reads_live {d : DiskStore} {m : Map} (h : Points d.file.bytes d.index m)
    (order : IterOrder) : Reads d.file.bytes (d.snapshotIndex order)
      ((d.snapshotIndex order).map (liveEntry d.file.bytes)) := by
  rw [Reads, List.forall₂_map_right_iff, List.forall₂_same]
  intro kv hkv
  have hin := h.inside _ _ (mem_arrange order hkv)
  exact ⟨rfl, hin, readAt_inside hin⟩

theorem snapshot_reads (hs : s.Sound) {d : DiskStore} (hd : s.disk = some d) (order : IterOrder) :
    ∃ es, Reads d.file.bytes (d.snapshotIndex order) es ∧ IsSnapshot s es := by
  have hp := hs.points hd
  have hnd := nodup_live d.file.bytes order d.index
  refine ⟨(d.snapshotIndex order).map (liveEntry d.file.bytes), reads_live hp order, hnd, ?_, ?_⟩
  · rw [Storage.toMap, hd]
    exact mapOf_live hp order
  · rw [List.length_map, Storage.size, hd]
    exact (order.perm _).length_eq.trans (List.length_map _).symm

theorem IsSnapshot.applyAll (h : IsSnapshot s es) :
    applyAll ∅ (es.map fun p => .set p.1 p.2) = s.toMap :=
  (applyAll_sets h.nodup).trans h.map

theorem IsSnapshot.wire (h : IsSnapshot s es) (hw : WireMap s.toMap) :
    ∀ p ∈ es, (Mutation.set p.1 p.2).Wire := by
  intro p hp
  refine hw p.1 p.2 ?_
  rw [← h.map, lookup_mapOf h.nodup]
  exact hp

end Snapshot

end Redon
