import Redon.Lib.AppendFile
import Redon.Record

/-!
# The write-ahead log

Appending a record either writes all of it or breaks the log for good; what is left of the record in
the stream's buffer is written once more when the log is closed. Replaying reads records from the
start of the file and stops at the first one that is cut short or malformed.
-/

namespace Redon

open Lib

/-- The log, open for appending. -/
structure Wal where
  out : AppendFile
  /-- False once a write has failed. -/
  ok : Bool
  deriving DecidableEq, Repr

namespace Wal

/-- What the two appends have in common: the record is written, unless a write failed before. -/
def append (w : Wal) (r : Mutation) : Bool × Wal :=
  if w.ok then
    let (written, out) := w.out.append r.encode
    (written, { out := out, ok := written })
  else (false, w)

def appendSet (w : Wal) (key value : Bytes) : Bool × Wal := w.append (.set key value)

def appendDel (w : Wal) (key : Bytes) : Bool × Wal := w.append (.del key)

/-- The log after `open_for_append` on a file holding `bytes`. -/
def openForAppend (bytes : Bytes) (fault : Option (ℕ × ℕ)) : Wal :=
  { out := { bytes := bytes, fault := fault }, ok := true }

/-- The file once the log is closed, on a disk that takes as many writes as `fault` says. -/
def close (w : Wal) (fault : Option (ℕ × ℕ)) : Bytes := { w.out with fault := fault }.close.bytes

/-- One turn of the replay loop: the next complete record, if there is one. -/
def readRecord (s : IStream) : Option (Mutation × IStream) :=
  let (op, s) := s.getToken
  if s.failbit then none
  else if op = ascii "SET" then
    match readSetHeader s with
    | none => none
    | some ((keyLen, valLen), s) =>
      let (key, s) := s.read keyLen
      let (val, s) := s.read valLen
      if s.failbit then none
      else
        let (c, s) := s.get
        if c = some 10 then some (.set key val, s) else none
  else if op = ascii "DEL" then
    match readDelHeader s with
    | none => none
    | some (keyLen, s) =>
      let (key, s) := s.read keyLen
      if s.failbit then none
      else
        let (c, s) := s.get
        if c = some 10 then some (.del key, s) else none
  else none

variable {σ : Type*}

/-- The replay loop: `apply` is what a record does to the store, and the count is of the records
applied. Every turn reads at least a byte, so the file's length bounds the turns. -/
def replayLoop (apply : σ → Mutation → σ) : ℕ → IStream → σ → ℕ → σ × ℕ
  | 0, _, store, applied => (store, applied)
  | fuel + 1, s, store, applied =>
    match readRecord s with
    | none => (store, applied)
    | some (r, s) => replayLoop apply fuel s (apply store r) (applied + 1)

def replayBytes (apply : σ → Mutation → σ) (file : Bytes) (store : σ) : σ × ℕ :=
  replayLoop apply file.length (.ofBytes file) store 0

end Wal

end Redon
