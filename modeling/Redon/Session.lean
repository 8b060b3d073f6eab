import Redon.Storage

/-!
# Calls on a store and sessions on a log

The calls a server makes on its store, and its sessions on one log file: the file is replayed into
a fresh store, opened for appending and attached, and calls are served until the server is shut
down or killed. A kill leaves some of the bytes of the record being appended.
-/

namespace Redon

open Lib

inductive Call where
  | set (key value : Bytes)
  | get (key : Bytes)
  | del (key : Bytes)
  | exists (key : Bytes)
  deriving DecidableEq, Repr

inductive Answer where
  | stored (done : Bool)
  | value (found : Option Bytes)
  | deleted (d : Storage.Deleted)
  | present (found : Bool)
  deriving DecidableEq, Repr

/-- A `set` that returned false, or a `del` that was not durable. -/
def Answer.refused : Answer → Bool
  | .stored done => !done
  | .deleted d => !d.durable
  | _ => false

/-- The record a call is there to log is one a reader accepts. -/
def Call.Ok : Call → Prop
  | .set k v => (Mutation.set k v).Ok
  | _ => True

instance : DecidablePred Call.Ok := fun c => by
  cases c <;> unfold Call.Ok <;> infer_instance

/-- The change a call asks for. -/
def Call.write : Call → Option Mutation
  | .set key value => some (.set key value)
  | .del key => some (.del key)
  | _ => none

namespace Storage

def call (s : Storage) : Call → Answer × Storage
  | .set key value => (.stored (s.set key value).1, (s.set key value).2.1)
  | .get key => (.value (s.get key).1, (s.get key).2)
  | .del key => (.deleted (s.del key).1, (s.del key).2.1)
  | .exists key => (.present (s.exists? key), s)

def run (s : Storage) (cs : List Call) : Storage := cs.foldl (fun s c => (s.call c).2) s

/-- The store `setup_persistence` leaves: the log replayed, opened for appending and attached. -/
def openLog (capacity : ℕ) (file : Option Bytes) (fault : Option (ℕ × ℕ)) : Storage :=
  (Wal.replayInto file (empty capacity)).1.attachWal (Wal.openForAppend (file.getD []) fault)

/-- The bytes of the attached log. -/
def logBytes (s : Storage) : Bytes := (s.wal.map fun w => w.out.bytes).getD []

/-- The record that serving a call starts by logging. -/
def firstRecord (s : Storage) : Call → Option Mutation
  | .set key value => some (.set key value)
  | .del key => if s.exists? key then some (.del key) else none
  | _ => none

/-- The writes of `cs` that are acknowledged, in order. -/
def acked : Storage → List Call → List Mutation
  | _, [] => []
  | s, c :: cs => (if (s.call c).1.refused then [] else c.write.toList) ++ acked (s.call c).2 cs

end Storage

/-- A session of an unbounded server: the calls it answers, and the one it is killed in with the
number of bytes of that call's record that reach the file. -/
structure Session where
  calls : List Call
  killed : Option (Call × ℕ)

namespace Session

/-- The keys and values of the calls are ones a reader accepts. -/
def Ok (x : Session) : Prop := (∀ c ∈ x.calls, c.Ok) ∧ ∀ p ∈ x.killed, p.1.Ok

instance : DecidablePred Ok := fun _ => instDecidableAnd

variable (x : Session) (file : Option Bytes)

/-- The store at the end of the session. -/
def served : Storage := (Storage.openLog 0 file none).run x.calls

def kill : Kill := x.killed.bind fun p => ((x.served file).firstRecord p.1).map (·, p.2)

/-- The file the session leaves. -/
def run : Bytes := (x.served file).logBytes ++ (x.kill file).bytes

/-- The writes the session acknowledges, and the last one if its record was completed. -/
def writes : List Mutation := (Storage.openLog 0 file none).acked x.calls ++ (x.kill file).records

/-- The file and the writes so far, from no file. -/
def after (xs : List Session) : Option Bytes × List Mutation :=
  xs.foldl (fun (file, ws) x => (some (x.run file), ws ++ x.writes file)) (none, [])

end Session

/-- A session of a server of some capacity that ends by a clean shutdown. -/
structure CleanSession where
  capacity : ℕ
  calls : List Call

namespace CleanSession

/-- The store at the shutdown. -/
def served (x : CleanSession) (file : Option Bytes) : Storage :=
  (Storage.openLog x.capacity file none).run x.calls

/-- The file that sessions leave, from none. -/
def log (xs : List CleanSession) : Option Bytes :=
  xs.foldl (fun file x => some (x.served file).logBytes) none

end CleanSession

/-- A session seen from the log: the records appended and the one being appended at the kill. -/
structure AppendSession where
  appends : List Mutation
  kill : Kill

namespace AppendSession

/-- The file the session leaves. -/
def run (x : AppendSession) (file : Bytes) : Bytes :=
  (x.appends.foldl (fun w r => (w.append r).2) (Wal.openForAppend file none)).out.bytes
    ++ x.kill.bytes

/-- Every record passed to an append. -/
def attempted (x : AppendSession) : List Mutation := x.appends ++ (x.kill.map Prod.fst).toList

def log (xs : List AppendSession) : Bytes := xs.foldl (fun file x => x.run file) []

end AppendSession

end Redon
