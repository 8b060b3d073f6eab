import Redon.Proofs.Acknowledged

/-!
# What survives a kill

A server is started on a log or on a data file, serves lines, and is stopped or killed, any number
of times. What it has at any time is what the acknowledged changes make, and for every kill the
change of the line it came in, or not. Closing the file may write the record of a change that was
refused because its append failed, so for every stop that change comes in, or not.

The argument is the same for every kind of file that keeps what clients are told (`Medium.Keeps`,
`Life.survives`). A log does as long as nothing is appended behind a torn record
(`Lifetime.survives_on_log`), a data file always (`DiskLifetime.survives_on_disk`).
-/

namespace Redon

open Lib Mutation Server

section Life

variable {F B : Type} {m : Medium F B} {Starts : ℕ → B → Prop} {Writes : F → F → Prop}
  {Holds : List Mutation → F → Prop} {Has : List Mutation → F → Storage → Prop}

/-- The bytes that are left in the buffer of the open file. -/
def Storage.pending (s : Storage) : Bytes :=
  match s.disk with
  | some d => d.file.pending
  | none => (s.wal.map fun w => w.out.pending).getD []

/-- The change whose record is left in the buffer. -/
def Storage.left (s : Storage) : Option Mutation :=
  (Wal.readRecord (.ofBytes s.pending)).map Prod.fst

/-- What is told about a kind of file: what the changes `g` make is in the file (`Holds`), and in
the store of a server that has it open (`Has`). Starting a server, a call and a kill in it, and
closing the file keep this, if the start is as `Starts` says and the file is written as `Writes`
says. -/
structure Medium.Keeps (m : Medium F B) (Starts : ℕ → B → Prop) (Writes : F → F → Prop)
    (Holds : List Mutation → F → Prop) (Has : List Mutation → F → Storage → Prop) : Prop where
  boot : ∀ {g f capacity b s}, Holds g f → Starts capacity b → m.setUp f capacity b = some s →
    Holds g (m.after f s) ∧ Has g (m.after f s) s
  same : ∀ {g f s}, Has g f s → m.after f s = f
  uncut : ∀ f n, m.cut f f n = f
  call : ∀ {g f s call}, Holds g f → Has g f s → (∀ r, call.write = some r → r.Ok) →
    Writes f (m.after f (s.call call).2) →
    Holds (g ++ (s.made call).toList) (m.after f (s.call call).2)
      ∧ Has (g ++ (s.made call).toList) (m.after f (s.call call).2) (s.call call).2
  kill : ∀ {g f s call n}, Holds g f → Has g f s → (∀ r, call.write = some r → r.Ok) →
    Writes f (m.cut f (m.after f (s.call call).2) n) →
    ∃ b ∈ [[], (s.made call).toList], Holds (g ++ b) (m.cut f (m.after f (s.call call).2) n)
  close : ∀ {g f s fault}, Holds g f → Has g f s → Writes f (m.closed f s fault) →
    ∃ b ∈ [[], s.left.toList], Holds (g ++ b) (m.closed f s fault)

namespace Life

/-- The change whose record is left in the buffer of a running server's file. -/
def leftBy (running : Option (ServerConfig × Server)) : Option Mutation :=
  running.bind fun (_, s) => s.node.store.left

/-- What an event can have changed. A kill may come before the change is in the file, and closing
the file may write the change that is left in its buffer. -/
def may (l : Life F) : Event B → List (List Mutation)
  | .boot .. => [[]]
  | .serve ev => [(ackedBy l.running ev).toList]
  | .kill ev _ => [[], (ackedBy l.running ev).toList]
  | .stop _ => [[], (leftBy l.running).toList]

/-- The server is started as `Starts` says and not as a follower. -/
def Standalone (Starts : ℕ → B → Prop) : Event B → Prop
  | .boot c capacity start _ => c.isFollower = false ∧ Starts capacity start
  | .serve ev => ev.Fits
  | .kill ev _ => ev.Fits
  | .stop _ => True

/-- The conditions on a step. -/
def Kept (Starts : ℕ → B → Prop) (Writes : F → F → Prop) (l : Life F) (ev : Event B)
    (l' : Life F) : Prop :=
  Writes l.file l'.file ∧ Standalone Starts ev

/-- The file, and the server if there is one, have what the changes `g` make. -/
structure Acked (Holds : List Mutation → F → Prop) (Has : List Mutation → F → Storage → Prop)
    (g : List Mutation) (l : Life F) : Prop where
  file : Holds g l.file
  store : ∀ c s, l.running = some (c, s) → c.isFollower = false ∧ Has g l.file s.node.store

variable {g : List Mutation} {l l' : Life F}

theorem acked_down {f : F} (h : Holds g f) : Acked Holds Has g ⟨f, none⟩ :=
  ⟨h, fun _ _ hrun => by cases hrun⟩

theorem acked_up {f : F} {c : ServerConfig} {s : Server} (h : Holds g f ∧ Has g f s.node.store)
    (hc : c.isFollower = false) : Acked Holds Has g ⟨f, some (c, s)⟩ := by
  refine ⟨h.1, fun c' s' hrun => ?_⟩
  obtain ⟨rfl, rfl⟩ := Prod.mk.inj (Option.some.inj hrun)
  exact ⟨hc, h.2⟩

theorem Acked.step (hm : m.Keeps Starts Writes Holds Has) {ev : Event B}
    (h : Acked Holds Has g l) (hs : l.step m ev = some l') (hkept : Kept Starts Writes l ev l') :
    ∃ b ∈ l.may ev, Acked Holds Has (g ++ b) l' := by
  have hself : g ++ [] = g := List.append_nil g
  obtain ⟨hw, hev⟩ := hkept
  cases steps_of_step hs with
  | @boot c capacity start t store hrun hstore =>
    refine ⟨[], List.mem_singleton_self [], ?_⟩
    rw [hself]
    exact acked_up (s := .start c store t) (hm.boot h.file hev.2 hstore) hev.1
  | @serve ev c s s' hrun hl hstep =>
    obtain ⟨hc, hhas⟩ := h.store c s hrun
    have hby : ackedBy l.running ev = s.ack c ev := by
      rw [hrun]
      rfl
    refine ⟨_, List.mem_singleton_self _, acked_up ?_ hc⟩
    rw [hby]
    rcases step_ack hc hev hstep with ⟨hstore, hack⟩ | ⟨call, hok, hstore, hack⟩ <;>
      rw [hack, hstore]
    · rw [Option.toList_none, hself, hm.same hhas]
      exact ⟨h.file, hhas⟩
    · rw [hstore] at hw
      exact hm.call h.file hhas hok hw
  | @kill ev n c s s' hrun hl hstep =>
    obtain ⟨hc, hhas⟩ := h.store c s hrun
    have hby : ackedBy l.running ev = s.ack c ev := by
      rw [hrun]
      rfl
    rw [may, hby]
    rcases step_ack hc hev hstep with ⟨hstore, hack⟩ | ⟨call, hok, hstore, hack⟩ <;>
      rw [hack, hstore]
    · refine ⟨[], List.mem_cons_self, acked_down ?_⟩
      rw [hself, hm.same hhas, hm.uncut]
      exact h.file
    · rw [hstore] at hw
      obtain ⟨b, hb, hholds⟩ := hm.kill h.file hhas hok hw
      exact ⟨b, hb, acked_down hholds⟩
  | @stop fault c s hrun =>
    have hby : leftBy l.running = s.node.store.left := by
      rw [hrun]
      rfl
    obtain ⟨b, hb, hholds⟩ := hm.close h.file (h.store c s hrun).2 hw
    exact ⟨b, by rwa [may, hby], acked_down hholds⟩

end Life

end Life

variable {g : List Mutation} {s : Storage} {c : Call}

namespace Lifetime

variable {log : Option Bytes} {l : Lifetime}

/-- A server on the log without a bound. -/
def Starts (capacity : ℕ) (backend : Backend) : Prop :=
  capacity = 0 ∧ ∃ fault, backend = .log fault

/-- Nothing is appended behind a torn record. -/
def Writes (log log' : Option Bytes) : Prop := Whole log ∨ log'.getD [] = log.getD []

/-- A store on the log, with what the changes `g` make. -/
structure Serves (g : List Mutation) (log : Option Bytes) (s : Storage) : Prop where
  disk : s.disk = none
  capacity : s.capacity = 0
  wal : ∃ w, s.wal = some w ∧ log = some w.out.bytes
  map : s.toMap = applyAll ∅ g
  pends : s.Pends Mutation.Ok

theorem Serves.logAfter (h : Serves g log s) : logAfter log s = log := by
  obtain ⟨w, hw, hlog⟩ := h.wal
  rw [Lifetime.logAfter, hw, hlog]
  rfl

/-- A call appends the change it makes, and perhaps part of one that failed. -/
theorem Serves.call (h : Serves g log s) (hdur : Durable log g)
    (hok : ∀ r, c.write = some r → r.Ok) : ∃ t, IsCut t
      ∧ Lifetime.logAfter log (s.call c).2
        = some (log.getD [] ++ (encodeAll (s.made c).toList ++ t))
      ∧ Serves (g ++ (s.made c).toList) (Lifetime.logAfter log (s.call c).2)
        (s.call c).2 := by
  obtain ⟨w, hw, hb⟩ := h.wal
  have hlogged := s.made_logged h.disk h.capacity hw c
  obtain ⟨w₀, w', hw₀, hw', ⟨t, hbytes, hcut, -⟩, -⟩ := hlogged.wal
  obtain rfl := Option.some.inj (hw.symm.trans hw₀)
  have hlog : Lifetime.logAfter log (s.call c).2 = some w'.out.bytes := by
    rw [Lifetime.logAfter, hw', Option.map_some, Option.some_or]
  have hdisk := hlogged.disk.trans h.disk
  -- the keys of the map are ones a reader accepts, so a `DEL` of one is a record it accepts
  have hmap : MapOk s.items.toMap := by
    obtain ⟨rs, t, -, hrs, -, he⟩ := hdur
    rw [← Storage.toMap_of_none h.disk, h.map, ← he]
    exact mapOk_empty.applyAll hrs
  refine ⟨t, hcut, ?_, hdisk, hlogged.capacity.trans h.capacity, ⟨w', hw', hlog⟩, ?_, ?_⟩
  · rw [hlog, hbytes, hb, Option.getD_some, List.append_assoc]
  · rw [Storage.toMap_of_none hdisk, hlogged.map, ← Storage.toMap_of_none h.disk, h.map,
      applyAll_append]
  · exact Storage.call_pends h.disk h.pends fun r hr => hr.ok hmap (Call.ok_of_write hok)

theorem made_ok (hok : ∀ r, c.write = some r → r.Ok) : ∀ r ∈ (s.made c).toList, r.Ok :=
  fun r hr => hok r (Storage.made_write (Option.mem_toList.1 hr))

theorem Serves.kill (h : Serves g log s) (hdur : Durable log g)
    (hok : ∀ r, c.write = some r → r.Ok) {n : ℕ}
    (hw : Writes log (medium.cut log (Lifetime.logAfter log (s.call c).2) n)) :
    ∃ b ∈ [[], (s.made c).toList],
      Durable (medium.cut log (Lifetime.logAfter log (s.call c).2) n) (g ++ b) := by
  obtain ⟨t, hcut, hlog, -⟩ := h.call hdur hok
  obtain ⟨b, t', htake, hcut', hb⟩ :=
    take_ack (s.made c) hcut (max (log.getD []).length n - (log.getD []).length)
  have hbytes : medium.cut log (Lifetime.logAfter log (s.call c).2) n
      = some (log.getD [] ++ (encodeAll b ++ t')) := by
    rw [hlog]
    change some (List.take _ _) = _
    rw [List.take_append, List.take_of_length_le (le_max_left _ _), htake]
  rw [hbytes] at hw ⊢
  refine ⟨b, hb, hdur.grow (fun r hr => ?_) hcut' (hw.imp_right fun he => ?_)⟩
  · rcases List.mem_pair.1 hb with rfl | rfl
    · cases hr
    · exact made_ok hok r hr
  · exact List.append_right_eq_self.1 he

theorem Serves.close (h : Serves g log s) (hdur : Durable log g) {fault : Option (ℕ × ℕ)}
    (hw : Writes log (closeLog log s fault)) :
    ∃ b ∈ [[], s.left.toList], Durable (closeLog log s fault) (g ++ b) := by
  obtain ⟨w, hwal, hlog⟩ := h.wal
  obtain ⟨rs, t, hb, hcut, hrs⟩ := (h.pends w hwal).close fault
  have hbytes : closeLog log s fault = some (log.getD [] ++ (encodeAll rs ++ t)) := by
    rw [closeLog, hwal, Option.map_some, Option.some_or, hb, hlog, Option.getD_some]
  rw [hbytes] at hw ⊢
  have hgrow : (∀ r ∈ rs, r.Ok) → Durable (some (log.getD [] ++ (encodeAll rs ++ t))) (g ++ rs) :=
    fun hok => hdur.grow hok hcut (hw.imp_right fun he => List.append_right_eq_self.1 he)
  rcases hrs with rfl | ⟨r, hr, hp, rfl⟩
  · exact ⟨[], by simp, hgrow (by simp)⟩
  · have hleft : s.left = some r := by
      have hread := readRecord_encode (q := []) (p := 0) hr
      rw [List.append_nil] at hread
      rw [Storage.left, Storage.pending, h.disk, hwal]
      simp only [Option.map_some, Option.getD_some, hp]
      rw [IStream.ofBytes, hread, Option.map_some]
    exact ⟨[r], by simp [hleft], hgrow (by simpa using hr)⟩

end Lifetime

namespace DiskLifetime

variable {l : DiskLifetime} {file : Bytes}

/-- A store on the data file, with what the changes `g` make. -/
def Serves (g : List Mutation) (file : Bytes) (s : Storage) : Prop :=
  ∃ d, s.disk = some d ∧ DiskStore.Rep (applyAll ∅ g) d ∧ d.file.bytes = file

theorem fileAfter_of_disk {d : DiskStore} (h : s.disk = some d) (file : Bytes) :
    fileAfter file s = d.file.bytes := by
  rw [fileAfter, h]
  rfl

theorem Rep.stored {m : Map} {d : DiskStore} (h : DiskStore.Rep m d) : Stored d.file.bytes m := by
  obtain ⟨rs, hb, hok, hm⟩ := h.records
  exact ⟨rs, [], by rw [hb, List.append_nil], hok, isCut_nil, hm⟩

/-- A call appends the change it makes. -/
theorem Serves.call (h : Serves g file s) (hok : ∀ r, c.write = some r → r.Ok) :
    fileAfter file (s.call c).2 = file ++ encodeAll (s.made c).toList
      ∧ Stored (fileAfter file (s.call c).2) (applyAll ∅ (g ++ (s.made c).toList))
      ∧ Serves (g ++ (s.made c).toList) (fileAfter file (s.call c).2) (s.call c).2 := by
  obtain ⟨d, hd, hrep, hfile⟩ := h
  obtain ⟨d', hd', hrep', hbytes⟩ := Storage.made_rep hd hrep hok
  rw [← applyAll_append] at hrep'
  rw [fileAfter_of_disk hd', ← hfile]
  exact ⟨hbytes, Rep.stored hrep', d', hd', hrep', rfl⟩

theorem Serves.kill (h : Serves g file s) (hok : ∀ r, c.write = some r → r.Ok) {n : ℕ} :
    ∃ b ∈ [[], (s.made c).toList],
      Stored ((fileAfter file (s.call c).2).take (max file.length n)) (applyAll ∅ (g ++ b)) := by
  obtain ⟨hbytes, -⟩ := h.call hok
  obtain ⟨d, hd, hrep, hfile⟩ := h
  obtain ⟨rs, hrs, hok₀, hm⟩ := hrep.records
  obtain ⟨b, t, htake, hcut, hb⟩ :=
    take_ack (s.made c) isCut_nil (max file.length n - file.length)
  rw [List.append_nil] at htake
  refine ⟨b, hb, rs ++ b, t, ?_, fun r hr => ?_, hcut, ?_⟩
  · rw [hbytes, List.take_append, List.take_of_length_le (le_max_left _ _), htake, ← hfile, hrs,
      encodeAll_append, List.append_assoc]
  · refine (List.mem_append.1 hr).elim (hok₀ r) fun hr => ?_
    rcases List.mem_pair.1 hb with rfl | rfl
    · cases hr
    · exact hok r (Storage.made_write (Option.mem_toList.1 hr))
  · rw [applyAll_append, hm, ← applyAll_append]

/-- No append has failed, so closing the file writes nothing. -/
theorem Serves.close (h : Serves g file s) (fault : Option (ℕ × ℕ)) :
    closeFile file s fault = file := by
  obtain ⟨d, hd, hrep, hfile⟩ := h
  have hclose := AppendFile.close_of_nil (f := { d.file with fault := fault }) hrep.pending
  rw [closeFile, hd, Option.map_some, Option.getD_some, DiskStore.leaves, hclose]
  exact hfile

end DiskLifetime

end Redon
