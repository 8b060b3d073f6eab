import Redon.DiskStore
import Redon.Lib.Machine

/-!
# Sessions on a data file

A session opens the data file, which heals and perhaps compacts it, and serves calls until it ends
or is killed while it appends a record. Beside each step is what it does to a plain map.
-/

namespace Redon

open Lib

inductive DiskCall where
  | set (key value : Bytes)
  | get (key : Bytes)
  | del (key : Bytes)
  | exists (key : Bytes)
  | size
  | clear
  deriving DecidableEq, Repr

inductive DiskAnswer where
  | done (b : Bool)
  | value (found : Option Bytes)
  | count (n : ℕ)
  deriving DecidableEq, Repr

namespace DiskCall

/-- The record a call is there to append is one a reader accepts. -/
def Ok : DiskCall → Prop
  | set k v => (Mutation.set k v).Ok
  | del k => (Mutation.del k).Ok
  | _ => True

instance : DecidablePred Ok := fun c => by
  cases c <;> unfold Ok <;> infer_instance

/-- What a call is on a map. -/
def onMap (m : Map) : DiskCall → DiskAnswer × Map
  | set k v => (.done true, m.insert k v)
  | get k => (.value (m.lookup k), m)
  | del k => (.done (m.lookup k).isSome, m.erase k)
  | «exists» k => (.done (m.lookup k).isSome, m)
  | size => (.count m.keys.card, m)
  | clear => (.done true, ∅)

/-- The record a call on a map appends. -/
def record (m : Map) : DiskCall → Option Mutation
  | set k v => some (.set k v)
  | del k => if (m.lookup k).isSome then some (.del k) else none
  | _ => none

end DiskCall

namespace DiskStore

def call (d : DiskStore) : DiskCall → DiskAnswer × DiskStore
  | .set k v => (.done (d.set k v).1, (d.set k v).2)
  | .get k => (.value (d.get k), d)
  | .del k => (.done (d.del k).1, (d.del k).2)
  | .exists k => (.done (d.exists? k), d)
  | .size => (.count d.size, d)
  | .clear => (.done (d.clear true true).1, (d.clear true true).2)

def callRecord (d : DiskStore) : DiskCall → Option Mutation
  | .set k v => if k.isEmpty || v.isEmpty then none else some (.set k v)
  | .del k => if !k.isEmpty && d.exists? k then some (.del k) else none
  | _ => none

end DiskStore

/-- A session: the calls it answers, and the one it is killed in with the number of bytes of that
call's record that reach the file. -/
structure DiskSession where
  order : IterOrder
  calls : List DiskCall
  killed : Option (DiskCall × ℕ)

namespace DiskSession

def Ok (x : DiskSession) : Prop := (∀ c ∈ x.calls, c.Ok) ∧ ∀ p ∈ x.killed, p.1.Ok

instance : DecidablePred Ok := fun _ => instDecidableAnd

/-- What the kill leaves, `record` being the record of a call. -/
def kill (x : DiskSession) (record : DiskCall → Option Mutation) : Kill :=
  x.killed.bind fun p => (record p.1).map (·, p.2)

/-- The answers and the file the session leaves, when all file-system calls succeed. -/
def serve (bytes : Bytes) (x : DiskSession) : List DiskAnswer × Bytes :=
  let (answers, d) := runOut DiskStore.call (.ofFile .allOk x.order bytes none) x.calls
  (answers, d.file.bytes ++ (x.kill d.callRecord).bytes)

/-- The answers a map gives, and the map after them: the last call counts if its record was
completed. -/
def serveMap (m : Map) (x : DiskSession) : List DiskAnswer × Map :=
  let (answers, m) := runOut DiskCall.onMap m x.calls
  (answers, Mutation.applyAll m (x.kill (DiskCall.record m)).records)

end DiskSession

end Redon
