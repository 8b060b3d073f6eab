import Redon.DiskEvents
import Redon.Server

/-!
# A server over its restarts

A file and the server that is started on it: the server serves lines until it is stopped, which
closes the file, or killed in the middle of a line with the file written up to any byte of what the
line appends. `Life` is this for any kind of file (`Medium`), `Lifetime` for one log, where a server
may also be started without the log, with its data in memory only or in a new data file, and
`DiskLifetime` for one data file.
-/

namespace Redon

open Lib

/-- A kind of file that a server keeps its data in, opened as `B` says. -/
structure Medium (F B : Type) where
  /-- The store that `run` sets up, unless the file cannot be opened. -/
  setUp : F → ℕ → B → Option Storage
  /-- The file once the store is as given. -/
  after : F → Storage → F
  /-- What a kill leaves: the file before the line and the one after it, with this many bytes. -/
  cut : F → F → ℕ → F
  /-- The file once it is closed, on a disk that takes as many writes as the last argument says. -/
  closed : F → Storage → Option (ℕ × ℕ) → F

structure Life (F : Type) where
  file : F
  /-- None while the server is down. -/
  running : Option (ServerConfig × Server)

namespace Life

inductive Event (B : Type) where
  | boot (c : ServerConfig) (capacity : ℕ) (start : B) (t : RaftNode.Tick)
  | serve (ev : Server.Event)
  /-- The server is killed in the event, with this many bytes in the file. -/
  | kill (ev : Server.Event) (n : ℕ)
  /-- The server is stopped and the file closed, on a disk that takes as much as `fault` says. -/
  | stop (fault : Option (ℕ × ℕ))

/-- A line is what stands between two newlines. -/
def isLine : Server.Event → Bool
  | .line _ line _ => 10 ∉ line
  | .timer _ => true

def step {F B : Type} (m : Medium F B) (l : Life F) : Event B → Option (Life F)
  | .boot c capacity start t =>
    match l.running with
    | some _ => none
    | none => (m.setUp l.file capacity start).map fun store =>
        ⟨m.after l.file store, some (c, .start c store t)⟩
  | .serve ev =>
    l.running.bind fun (c, s) =>
      if isLine ev then
        (s.step c ev).map fun s => ⟨m.after l.file s.node.store, some (c, s)⟩
      else none
  | .kill ev n =>
    l.running.bind fun (c, s) =>
      if isLine ev then
        (s.step c ev).map fun s => ⟨m.cut l.file (m.after l.file s.node.store) n, none⟩
      else none
  | .stop fault => l.running.map fun (_, s) => ⟨m.closed l.file s.node.store fault, none⟩

end Life

/-- What a server keeps its data in. -/
inductive Backend where
  | memory
  | log (fault : Option (ℕ × ℕ))
  /-- A data file that does not exist yet. -/
  | disk (fs : FsCalls) (order : IterOrder) (fault : Option (ℕ × ℕ))

/-- The store that `run` sets up, unless the data file cannot be opened. -/
def Backend.setUp (capacity : ℕ) (log : Option Bytes) : Backend → Option Storage
  | .memory => some (.empty capacity)
  | .log fault => some (.openLog capacity log fault)
  | .disk fs order fault =>
    let (opened, store) := (Storage.empty capacity).openDiskBackend fs order [] fault
    if opened then some store else none

/-- One log over the restarts of a server; the file is none while there is no log. -/
abbrev Lifetime := Life (Option Bytes)

namespace Lifetime

abbrev Event := Life.Event Backend

/-- The log file once the store is as given. -/
def logAfter (log : Option Bytes) (store : Storage) : Option Bytes :=
  (store.wal.map fun w => w.out.bytes).or log

/-- The log file once the server is stopped. -/
def closeLog (log : Option Bytes) (store : Storage) (fault : Option (ℕ × ℕ)) : Option Bytes :=
  (store.wal.map fun w => w.close fault).or log

def medium : Medium (Option Bytes) Backend where
  setUp log capacity backend := backend.setUp capacity log
  after := logAfter
  cut log log' n := log'.map fun bytes => bytes.take (max (log.getD []).length n)
  closed := closeLog

def step : Lifetime → Event → Option Lifetime := Life.step medium

/-- No log file and the server down. -/
def new : Lifetime := ⟨none, none⟩

end Lifetime

/-- One data file over the restarts of a server. All file-system calls succeed. -/
abbrev DiskLifetime := Life Bytes

namespace DiskLifetime

/-- A start is told by the order in which the index is iterated, if it compacts the file. -/
abbrev Event := Life.Event IterOrder

def setUp (file : Bytes) (capacity : ℕ) (order : IterOrder) : Option Storage :=
  let (opened, store) := (Storage.empty capacity).openDiskBackend .allOk order file none
  if opened then some store else none

/-- The data file once the store is as given. -/
def fileAfter (file : Bytes) (store : Storage) : Bytes :=
  (store.disk.map fun d => d.file.bytes).getD file

/-- The data file once the server is stopped. -/
def closeFile (file : Bytes) (store : Storage) (fault : Option (ℕ × ℕ)) : Bytes :=
  (store.disk.map fun d => d.leaves (.closed fault)).getD file

def medium : Medium Bytes IterOrder where
  setUp := setUp
  after := fileAfter
  cut file file' n := file'.take (max file.length n)
  closed := closeFile

def step : DiskLifetime → Event → Option DiskLifetime := Life.step medium

/-- An empty file and the server down. -/
def new : DiskLifetime := ⟨[], none⟩

end DiskLifetime

end Redon
