import Redon.Session

/-!
# A data file in use

What can happen to a store behind its constructor: writes, a `clear`, a disk that starts or stops
failing, and the end of the process that has the file open; the same for a `Storage` that has the
engine open. Beside that, a snapshot being read: its values are read one by one through a handle of
its own, and writes may come between two reads.
-/

namespace Redon

open Lib

namespace DiskStore

def write (d : DiskStore) : Mutation → Bool × DiskStore
  | .set key value => d.set key value
  | .del key => d.del key

inductive Event where
  | write (r : Mutation)
  /-- `clear`, with the outcomes of its two calls. -/
  | clear (truncated reopened : Bool)
  /-- From here on the disk takes as many appends as `fault` says. -/
  | disk (fault : Option (ℕ × ℕ))

def step (d : DiskStore) : Event → Option DiskStore
  | .write r => some (d.write r).2
  | .clear truncated reopened => some (d.clear truncated reopened).2
  | .disk fault => some { d with file := { d.file with fault := fault } }

/-- The store after a list of writes. -/
def writeAll (d : DiskStore) (rs : List Mutation) : DiskStore :=
  rs.foldl (fun d r => (d.write r).2) d

/-- The writes that are acknowledged, in order. -/
def acked : DiskStore → List Mutation → List Mutation
  | _, [] => []
  | d, r :: rs => (if (d.write r).1 then [r] else []) ++ acked (d.write r).2 rs

/-- The write gets as far as its append, and the append fails. -/
def appendFails (d : DiskStore) (r : Mutation) : Bool :=
  d.ok && (match r with
    | .set key value => !key.isEmpty && !value.isEmpty
    | .del key => !key.isEmpty && (d.index.lookup key).isSome)
  && !(d.file.append r.encode).1

/-- The append of one of the writes fails. -/
def anyAppendFails : DiskStore → List Mutation → Bool
  | _, [] => false
  | d, r :: rs => d.appendFails r || anyAppendFails (d.write r).2 rs

/-- How a process that has the file open ends. -/
inductive Ending where
  | killed
  /-- The file is closed, on a disk that takes as many writes as `fault` says. -/
  | closed (fault : Option (ℕ × ℕ))

/-- What is in the file then. -/
def leaves (d : DiskStore) : Ending → Bytes
  | .killed => d.file.bytes
  | .closed fault => { d.file with fault := fault }.close.bytes

/-- `read_snapshot` under way: the offsets still to read and the pairs read so far. -/
structure Reader where
  store : DiskStore
  todo : List (Σ _ : Bytes, Entry)
  out : List (Bytes × Bytes)

inductive ReaderAction where
  | write (r : Mutation)
  | disk (fault : Option (ℕ × ℕ))
  | read

namespace Reader

/-- The start of `read_snapshot`, with the offsets of a cut. -/
def start (d : DiskStore) (order : IterOrder) : Reader := ⟨d, d.snapshotIndex order, []⟩

def step (x : Reader) : ReaderAction → Option Reader
  | .write r => some { x with store := (x.store.write r).2 }
  | .disk fault => some { x with
      store := { x.store with file := { x.store.file with fault := fault } } }
  | .read =>
    match x.todo with
    | [] => none
    | kv :: todo =>
      match x.store.readValue kv.2 with
      | some value => some { x with todo := todo, out := x.out ++ [(kv.1, value)] }
      | none => some { x with todo := todo }

end Reader

end DiskStore

namespace Storage

inductive DiskEvent where
  | call (c : Call)
  | clear (truncated reopened : Bool)
  | disk (fault : Option (ℕ × ℕ))

def diskStep (s : Storage) : DiskEvent → Option Storage
  | .call c => some (s.call c).2
  | .clear truncated reopened => some (s.clear truncated reopened).2
  | .disk fault => s.disk.map fun d =>
      { s with disk := some { d with file := { d.file with fault := fault } } }

end Storage

end Redon
