import Redon.DiskStore

/-!
# A compaction in progress

`DiskStore.compact` is what a compaction comes to. Here it goes one call at a time: the live records
go through a stream whose buffer reaches the temporary file in pieces, and any call may fail. The
process may be killed after any step, and the next start finds the data file as it is then.
-/

namespace Redon

open Lib

namespace DiskStore

inductive Compaction.Phase where
  | opening
  | copying
  | renaming
  /-- The temporary file is to be removed; the data file is closed if a rename was tried. -/
  | removing (closed : Bool)
  | reopening
  | done
  deriving DecidableEq, Repr

structure Compaction where
  data : Bytes
  tmp : Option Bytes
  /-- What the stream was given and has not written to `tmp` yet. -/
  buffer : Bytes
  /-- The stream's state. -/
  good : Bool
  failed : Bool
  /-- The entries that the loop has not come to. -/
  todo : List (Σ _ : Bytes, Entry)
  newIndex : Index
  index : Index
  ok : Bool
  phase : Compaction.Phase

namespace Compaction

/-- `compact` is called; `tmp` is what an earlier compaction may have left behind. -/
def start (d : DiskStore) (order : IterOrder) (tmp : Option Bytes) : Compaction where
  data := d.file.bytes
  tmp := tmp
  buffer := []
  good := true
  failed := false
  todo := order.arrange d.index.entries
  newIndex := ∅
  index := d.index
  ok := d.ok
  phase := .opening

/-- A call, with how it turns out. -/
inductive Action where
  | openTmp (opened : Bool)
  /-- One turn of the loop; `readable` is whether the value can be read. -/
  | copy (readable : Bool)
  /-- The stream writes `n` bytes of its buffer, and turns bad if more should have been written. -/
  | write (n : ℕ) (written : Bool)
  | flush
  | rename (renamed : Bool)
  | remove (removed : Bool)
  | reopen (reopened : Bool)
  deriving DecidableEq, Repr

/-- Gives a record to the stream. A stream that has turned bad takes nothing; the place it would
report is never looked at, since the compaction is given up. -/
def put (s : Compaction) (key value : Bytes) : Compaction :=
  if s.good then
    let r := Mutation.set key value
    let valuePos := (s.tmp.getD []).length + s.buffer.length + r.header.length + key.length
    { s with buffer := s.buffer ++ r.encode
             newIndex := s.newIndex.insert key ⟨valuePos, value.length⟩ }
  else s

/-- `n` bytes of the buffer reach the temporary file. -/
def drain (s : Compaction) (n : ℕ) : Compaction :=
  { s with tmp := s.tmp.map (· ++ s.buffer.take n), buffer := s.buffer.drop n }

def step (s : Compaction) : Action → Option Compaction
  | .openTmp opened =>
    if s.phase = .opening then
      some (if opened then { s with tmp := some [], phase := .copying }
        else { s with phase := .done })
    else none
  | .copy readable =>
    match s.todo with
    | [] => none
    | ⟨key, e⟩ :: todo =>
      if s.phase = .copying ∧ s.failed = false then
        match if readable then readAt s.data e else none with
        | none => some { s with failed := true }
        | some value => some { s.put key value with todo := todo }
      else none
  | .write n written =>
    if s.phase = .copying ∧ s.good = true then some { s.drain n with good := written } else none
  | .flush =>
    if s.phase = .copying ∧ (s.todo.isEmpty || s.failed) = true then
      let s := if s.good then s.drain s.buffer.length else { s with failed := true }
      some { s with phase := if s.failed then .removing false else .renaming }
    else none
  | .rename renamed =>
    if s.phase = .renaming then
      match renamed, s.tmp with
      | true, some bytes =>
        some { s with data := bytes, tmp := none, index := s.newIndex, phase := .reopening }
      | _, _ => some { s with phase := .removing true }
    else none
  | .remove removed =>
    match s.phase with
    | .removing closed =>
      some { s with tmp := if removed then none else s.tmp
                    phase := if closed then .reopening else .done }
    | _ => none
  | .reopen reopened =>
    if s.phase = .reopening then some { s with ok := reopened, phase := .done } else none

/-- The store that `compact` works on, as it is now; `file` is what it was opened on. -/
def store (s : Compaction) (file : AppendFile) : DiskStore :=
  ⟨{ file with bytes := s.data }, s.index, s.ok⟩

end Compaction

end DiskStore

end Redon
