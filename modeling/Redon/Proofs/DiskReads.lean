import Redon.Proofs.Handover
import Redon.Proofs.Recovery

/-!
# Reads beside writes that go on or fail

A snapshot of offsets stays what it was while writes go on: they only append, and the bytes at the
offsets do not change (`snapshot_isolated`). After a write whose append fails the index still has
every key, but the engine answers no read (`failed_write_iff`).
-/

namespace Redon

open Lib Mutation

namespace DiskStore

variable {d : DiskStore} {fs : FsCalls} {order : IterOrder} {bytes : Bytes}
  {fault : Option (ℕ × ℕ)}

section Snapshot

theorem write_grows (d : DiskStore) (r : Mutation) : d.file.bytes <+: (d.write r).2.file.bytes := by
  rcases d.write_cases r with he | ⟨f, index, -, hf, -, he⟩ | ⟨f, t, -, -, hf, he⟩
  · rw [he]
  · rw [he]
    exact ⟨_, hf.symm⟩
  · rw [he]
    exact ⟨t, hf.symm⟩

/-- What was read and what the offsets still to read point at. -/
def Reader.Yields (x : Reader) (all : List (Bytes × Bytes)) : Prop :=
  ∃ es, Reads x.store.file.bytes x.todo es ∧ x.out ++ es = all

theorem Reader.Yields.step {x x' : Reader} {all : List (Bytes × Bytes)} (h : x.Yields all)
    {a : ReaderAction} (hs : x.step a = some x') : x'.Yields all := by
  obtain ⟨es, hr, he⟩ := h
  cases a with
  | write r =>
    obtain rfl := Option.some.inj hs
    exact ⟨es, hr.append (x.store.write_grows r), he⟩
  | disk fault =>
    obtain rfl := Option.some.inj hs
    exact ⟨es, hr, he⟩
  | read =>
    rcases htodo : x.todo with _ | ⟨kv, todo⟩ <;> simp only [Reader.step, htodo] at hs
    · cases hs
    · rw [htodo] at hr
      obtain ⟨p, es, ⟨hk, -, hv⟩, hrest, rfl⟩ := List.forall₂_cons_left_iff.1 hr
      rw [show x.store.readValue kv.2 = some p.2 from hv] at hs
      obtain rfl := Option.some.inj hs
      refine ⟨es, hrest, ?_⟩
      rw [← he, hk, List.append_assoc]
      rfl

/-- Whatever writes come before and between the reads, the pairs read are the map at the cut, each
of its keys once. -/
theorem snapshot_isolated (hd : Reaches step (ofFile fs order bytes fault) d) {order' : IterOrder}
    {x : Reader} (hx : Reaches Reader.step (Reader.start d order') x) (hdone : x.todo = []) :
    (x.out.map Prod.fst).Nodup ∧ mapOf x.out = d.toMap
    ∧ ∀ k, k ∈ x.out.map Prod.fst ↔ d.exists? k = true := by
  have hp := (inside_reaches hd).points
  obtain ⟨es, hr, he⟩ := hx.inv (Reader.Yields · _) (fun _ _ _ h hs => h.step hs)
    ⟨_, reads_live hp order', List.nil_append _⟩
  rw [hdone] at hr
  rw [List.forall₂_nil_left_iff.1 hr, List.append_nil] at he
  have hnd := nodup_live d.file.bytes order' d.index
  have hmap := mapOf_live hp order'
  rw [he]
  refine ⟨hnd, hmap, fun k => ?_⟩
  rw [← mem_mapOf, snapshotIndex, hmap, ← not_iff_not, ← Finmap.lookup_eq_none, ← hp.lookup_eq_none,
    exists?, Bool.not_eq_true, Option.isSome_eq_false_iff, Option.isNone_iff_eq_none]

/-- A snapshot of one key, overwritten before it is read. -/
theorem snapshot_isolated_overwritten :
    ∃ x, Reaches Reader.step (Reader.start
        ((ofFile .allOk ⟨id, .refl⟩ [] none).set [97] [49]).2 ⟨id, .refl⟩) x
      ∧ x.store.get [97] = some [50]
      ∧ mapOf x.out = ((ofFile .allOk ⟨id, .refl⟩ [] none).set [97] [49]).2.toMap := by
  obtain ⟨x, hx, hdone, hget⟩ := exists_reaches Reader.step (Reader.start
      ((ofFile .allOk ⟨id, .refl⟩ [] none).set [97] [49]).2 ⟨id, .refl⟩)
    [.write (.set [97] [50]), .read] (fun x => x.todo = [] ∧ x.store.get [97] = some [50])
    (by decide)
  exact ⟨x, hx, hget, (snapshot_isolated (.single ⟨.write (.set [97] [49]), rfl⟩) hx hdone).2.1⟩

end Snapshot

section Failure

theorem size_eq_zero : d.size = 0 ↔ ∀ k, d.index.lookup k = none := by
  rw [size, List.length_eq_zero_iff, List.eq_nil_iff_forall_not_mem]
  refine forall_congr' fun k => ?_
  rw [← AList.mem_keys, ← AList.lookup_eq_none]

/-- A read finds every key of the index, unless the store is broken and has keys. -/
theorem get_iff_exists (h : d.Inside) :
    (∀ k, (d.get k).isSome = d.exists? k) ↔ d.ok = true ∨ d.size = 0 := by
  unfold DiskStore.get
  rcases hok : d.ok with _ | _
  · simp only [Bool.false_eq_true, if_false, Option.isSome_none, false_or, size_eq_zero]
    refine forall_congr' fun k => ?_
    rw [exists?, eq_comm, Option.isSome_eq_false_iff, Option.isNone_iff_eq_none]
  · simp only [if_true, true_or, iff_true]
    intro k
    rw [exists?]
    rcases he : d.index.lookup k with _ | e
    · rfl
    · rw [Option.bind_some, readValue, readAt_inside (h k e he)]
      rfl

theorem write_of_appendFails {r : Mutation} (h : d.appendFails r = true) :
    ∃ f, d.write r = (false, ⟨f, d.index, false⟩) := by
  unfold appendFails at h
  rcases ha : d.file.append r.encode with ⟨b, f⟩
  rw [ha] at h
  refine ⟨f, ?_⟩
  cases r with
  | set k v =>
    simp only [Bool.and_eq_true, Bool.not_eq_true'] at h
    obtain ⟨⟨hok, hk, hv⟩, rfl⟩ := h
    simp only [write, DiskStore.set, hok, hk, hv, ha, Bool.not_true, Bool.or_self,
      Bool.false_eq_true, if_false]
  | del k =>
    simp only [Bool.and_eq_true, Bool.not_eq_true'] at h
    obtain ⟨⟨hok, hk, he⟩, rfl⟩ := h
    have hsome : (d.index.lookup k).isNone = false := by
      rw [← Option.not_isSome, he]
      rfl
    simp only [write, DiskStore.del, hok, hk, hsome, ha, Bool.not_true, Bool.or_self,
      Bool.false_eq_true, if_false]

end Failure

end DiskStore

namespace Storage

variable {s s' : Storage} {d : DiskStore} {fs : FsCalls} {order : IterOrder} {bytes : Bytes}
  {fault : Option (ℕ × ℕ)} {capacity : ℕ}

section Engine

theorem get_disk (hd : s.disk = some d) (k : Bytes) : (s.get k).1 = d.get k := by
  rw [get, hd]

theorem exists_disk (hd : s.disk = some d) (k : Bytes) : s.exists? k = d.exists? k := by
  rw [exists?, hd]

theorem size_disk (hd : s.disk = some d) : s.size = d.size := by
  rw [size, hd]

/-- A call on a store is a write on its engine, or leaves it as it is. -/
theorem call_disk (hd : s.disk = some d) (c : Call) :
    (s.call c).2.disk = some (c.write.elim d fun r => (d.write r).2) := by
  cases c with
  | set k v =>
    simp only [call, set, hd, Call.write, Option.elim_some, DiskStore.write]
    rcases d.set k v with ⟨_ | _, d'⟩ <;> rfl
  | del k =>
    simp only [call, del, hd]
    split_ifs <;> rfl
  | get k =>
    rw [call, get, hd]
    exact hd
  | «exists» k => exact hd

/-- A broken engine stays as it is, whatever is called. -/
theorem run_of_broken (hd : s.disk = some d) (hb : d.ok = false) (cs : List Call) :
    (s.run cs).disk = some d := by
  induction cs generalizing s with
  | nil => exact hd
  | cons c cs ih =>
    refine ih ?_
    rw [call_disk hd c]
    rcases c.write with _ | r
    · rfl
    · rw [Option.elim_some, DiskStore.write_of_broken hb]

/-- What happens to a store happens to its engine. -/
theorem diskStep_engine (hd : s.disk = some d) {e : DiskEvent} (hs : s.diskStep e = some s') :
    ∃ d', s'.disk = some d' ∧ Reaches DiskStore.step d d' := by
  cases e with
  | call c =>
    obtain rfl := Option.some.inj hs
    refine ⟨_, call_disk hd c, ?_⟩
    rcases c.write with _ | r
    · exact .refl
    · exact .single ⟨.write r, rfl⟩
  | clear truncated reopened =>
    obtain rfl := Option.some.inj hs
    simp only [clear, hd]
    exact ⟨_, rfl, .single ⟨.clear truncated reopened, rfl⟩⟩
  | disk fault =>
    rw [diskStep, hd] at hs
    obtain rfl := Option.some.inj hs
    exact ⟨_, rfl, .single ⟨.disk fault, rfl⟩⟩

theorem engine_reaches
    (ho : ((empty capacity).openDiskBackend fs order bytes fault).1 = true)
    (hs : Reaches diskStep ((empty capacity).openDiskBackend fs order bytes fault).2 s) :
    ∃ d, s.disk = some d ∧ Reaches DiskStore.step (DiskStore.ofFile fs order bytes fault) d := by
  refine hs.inv (fun s => ∃ d, s.disk = some d
    ∧ Reaches DiskStore.step (DiskStore.ofFile fs order bytes fault) d) ?_ ?_
  · rintro s e s' ⟨d, hd, hr⟩ hstep
    obtain ⟨d', hd', hr'⟩ := diskStep_engine hd hstep
    exact ⟨d', hd', hr.trans hr'⟩
  · unfold openDiskBackend at ho ⊢
    simp only [] at ho ⊢
    split_ifs at ho ⊢
    exact ⟨_, rfl, .refl⟩

end Engine

section Replies

/-- `GET` and `EXISTS` lines are answered by the one store as by the other. -/
def SameReads (s s' : Storage) : Prop :=
  ∀ (e : ExecEnv) (link : Bool) (raft : Option RaftNode) (line : Bytes),
    (verbAndKey line).1 = ascii "GET" ∨ (verbAndKey line).1 = ascii "EXISTS" →
      (ExecState.executeLine e ⟨s', link, raft⟩ line).reply
          = (ExecState.executeLine e ⟨s, link, raft⟩ line).reply
        ∧ (ExecState.executeLine e ⟨s', link, raft⟩ line).wasGetHit
          = (ExecState.executeLine e ⟨s, link, raft⟩ line).wasGetHit

theorem sameReads_of (hget : ∀ k, (s'.get k).1 = (s.get k).1)
    (hex : ∀ k, s'.exists? k = s.exists? k) : SameReads s s' := by
  intro e link raft line hv
  rw [verbAndKey_eq] at hv
  simp only [executeLine_eq, executeTokens_read hv]
  split_ifs
  · exact ⟨rfl, rfl⟩
  · simp only [ExecState.executeGet]
    split_ifs
    · exact ⟨rfl, rfl⟩
    · simp only [ExecState.answer, hget, and_self]
  · simp only [ExecState.executeExists, hex]
    split_ifs <;> exact ⟨rfl, rfl⟩

end Replies

/-- In every reachable state of a store with an engine open, reads find what `exists` reports if and
only if the engine is healthy or has no key; and after a write whose append fails, and any calls
after it, all reads are what they were and agree with `exists` if and only if there was no key. -/
theorem failed_write_iff
    (ho : ((empty capacity).openDiskBackend fs order bytes fault).1 = true)
    (hs : Reaches diskStep ((empty capacity).openDiskBackend fs order bytes fault).2 s) :
    ((∀ k, (s.get k).1.isSome = s.exists? k) ↔ (∃ d, s.disk = some d ∧ d.ok = true) ∨ s.size = 0)
    ∧ ∀ d c r cs, s.disk = some d → c.write = some r → d.appendFails r = true →
      ((SameReads s ((s.call c).2.run cs)
          ∧ ∀ k, (((s.call c).2.run cs).get k).1.isSome = ((s.call c).2.run cs).exists? k)
        ↔ s.size = 0) := by
  obtain ⟨d, hd, hr⟩ := engine_reaches ho hs
  refine ⟨?_, fun d₀ c r cs hd₀ hc hf => ?_⟩
  · have hiff := DiskStore.get_iff_exists (DiskStore.inside_reaches hr)
    simp only [get_disk hd, exists_disk hd, size_disk hd, hd, Option.some.injEq, exists_eq_left']
    exact hiff
  · rw [hd] at hd₀
    obtain rfl := Option.some.inj hd₀
    -- the engine is broken from here on, with the index it had
    obtain ⟨f, hw⟩ := DiskStore.write_of_appendFails hf
    have hd₁ : (s.call c).2.disk = some ⟨f, d.index, false⟩ := by
      rw [call_disk hd, hc, Option.elim_some, hw]
    have hd' := run_of_broken hd₁ rfl cs
    have hget : ∀ k, (((s.call c).2.run cs).get k).1 = none := fun k => get_disk hd' k
    have hex : ∀ k, ((s.call c).2.run cs).exists? k = s.exists? k := fun k =>
      (exists_disk hd' k).trans (exists_disk hd k).symm
    rw [size_disk hd, DiskStore.size_eq_zero]
    constructor
    · rintro ⟨-, hall⟩ k
      have hk := hall k
      rw [hget, hex, exists_disk hd, Option.isSome_none, eq_comm] at hk
      exact Option.isNone_iff_eq_none.1 (Option.isSome_eq_false_iff.1 hk)
    · intro hnone
      have hget₀ : ∀ k, (s.get k).1 = none := fun k => by
        rw [get_disk hd, DiskStore.get, hnone k]
        split_ifs <;> rfl
      refine ⟨sameReads_of (fun k => (hget k).trans (hget₀ k).symm) hex, fun k => ?_⟩
      rw [hget, hex, exists_disk hd, DiskStore.exists?, hnone k]
      rfl

/-- An empty store whose disk takes nothing. -/
theorem failed_write_iff_full :
    ∃ s, s = ((empty 0).openDiskBackend .allOk ⟨id, .refl⟩ [] (some (0, 0))).2
      ∧ (s.call (.set [97] [49])).1.refused = true
      ∧ SameReads s ((s.call (.set [97] [49])).2.run [.set [98] [50]]) := by
  refine ⟨_, rfl, by decide, ?_⟩
  have h := (@failed_write_iff _ .allOk ⟨id, .refl⟩ [] (some (0, 0)) 0 (by decide) .refl).2
    (DiskStore.ofFile .allOk ⟨id, .refl⟩ [] (some (0, 0)))
    (.set [97] [49]) (.set [97] [49]) [.set [98] [50]] rfl rfl (by decide)
  exact (h.2 (by decide)).1

/-- A second write fails, and the first key is reported and not found. -/
theorem failed_write_hides :
    ∃ s s' e, Reaches diskStep ((empty 0).openDiskBackend .allOk ⟨id, .refl⟩ [] (some (1, 0))).2 s
      ∧ s' = (s.call (.set [98] [50])).2 ∧ (s.call (.set [98] [50])).1.refused = true
      ∧ (ExecState.executeLine e ⟨s, false, none⟩ (ascii "GET a")).reply = [49]
      ∧ (ExecState.executeLine e ⟨s', false, none⟩ (ascii "GET a")).reply = ascii "(nil)"
      ∧ (ExecState.executeLine e ⟨s', false, none⟩ (ascii "EXISTS a")).reply
        = ascii "(integer) 1" := by
  refine ⟨_, _, standaloneEnv,
    .single ⟨.call (.set [97] [49]), rfl⟩, rfl, ?_, ?_, ?_, ?_⟩ <;> decide

end Storage

end Redon
