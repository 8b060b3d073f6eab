import Mathlib.Data.List.AList
import Redon.Lib.AppendFile
import Redon.Record

/-!
# The on-disk engine

Values live in one file of records that only grows while it is served, and an index in memory maps
each key to where its latest value is. Opening the store scans the records' headers, skipping over
the values, cuts off what follows the last complete record, and rewrites the file when most of it
is garbage.
-/

namespace Redon

open Lib

/-- Where a value is in the data file. -/
structure Entry where
  valuePos : ℕ
  valueLen : ℕ
  deriving DecidableEq, Repr

abbrev Index := AList fun _ : Bytes => Entry

/-- The order a hash map is iterated in. -/
structure IterOrder where
  arrange : List (Σ _ : Bytes, Entry) → List (Σ _ : Bytes, Entry)
  perm : ∀ l, (arrange l).Perm l

/-- Which of the file-system calls made while a store is opened succeed. -/
structure FsCalls where
  opened : Bool
  resized : Bool
  reopened : Bool
  tmpOpened : Bool
  /-- Every read of a live value and every write of the temporary file. -/
  copied : Bool
  renamed : Bool
  compactReopened : Bool

def FsCalls.allOk : FsCalls := ⟨true, true, true, true, true, true, true⟩

structure DiskStore where
  file : AppendFile
  index : Index
  ok : Bool

namespace DiskStore

/-- The bytes an entry points at; a read past the end fails. -/
def readAt (bytes : Bytes) (e : Entry) : Option Bytes :=
  if e.valueLen = 0 ∨ e.valuePos + e.valueLen ≤ bytes.length then
    some ((bytes.drop e.valuePos).take e.valueLen)
  else none

def readValue (d : DiskStore) (e : Entry) : Option Bytes := readAt d.file.bytes e

def set (d : DiskStore) (key value : Bytes) : Bool × DiskStore :=
  if !d.ok || key.isEmpty || value.isEmpty then (false, d)
  else
    let valuePos := d.file.bytes.length + (Mutation.set key value).header.length + key.length
    let (written, file) := d.file.append (Mutation.set key value).encode
    if written then
      (true, { d with file := file, index := d.index.insert key ⟨valuePos, value.length⟩ })
    else (false, { d with file := file, ok := false })

def get (d : DiskStore) (key : Bytes) : Option Bytes :=
  if d.ok then (d.index.lookup key).bind d.readValue else none

def del (d : DiskStore) (key : Bytes) : Bool × DiskStore :=
  if !d.ok || key.isEmpty then (false, d)
  else if (d.index.lookup key).isNone then (false, d)
  else
    let (written, file) := d.file.append (Mutation.del key).encode
    if written then (true, { d with file := file, index := d.index.erase key })
    else (false, { d with file := file, ok := false })

def exists? (d : DiskStore) (key : Bytes) : Bool := (d.index.lookup key).isSome

def size (d : DiskStore) : ℕ := d.index.keys.length

/-- Closes and truncates the file; `truncated` and `reopened` are whether the two calls behind the
close succeed. -/
def clear (d : DiskStore) (truncated reopened : Bool) : Bool × DiskStore :=
  (reopened, { file := { d.file.close with bytes := if truncated then [] else d.file.close.bytes }
               index := ∅
               ok := reopened })

/-- What a scanned record does to the index. -/
inductive Scanned where
  | set (key : Bytes) (entry : Entry)
  | del (key : Bytes)
  deriving DecidableEq, Repr

/-- One turn of the recovery scan: a record's header and key, its value skipped over. -/
def scanRecord (s : IStream) : Option (Scanned × IStream) :=
  let (op, s) := s.getToken
  if s.failbit then none
  else if op = ascii "SET" then
    match readSetHeader s with
    | none => none
    | some ((klen, vlen), s) =>
      let (key, s) := s.read klen
      if s.failbit then none
      else
        let valuePos := s.pos
        let s := s.seekCur vlen
        if s.failbit then none
        else
          let (c, s) := s.get
          if c = some 10 then some (.set key ⟨valuePos, vlen⟩, s) else none
  else if op = ascii "DEL" then
    match readDelHeader s with
    | none => none
    | some (klen, s) =>
      let (key, s) := s.read klen
      if s.failbit then none
      else
        let (c, s) := s.get
        if c = some 10 then some (.del key, s) else none
  else none

def Scanned.applyTo (index : Index) : Scanned → Index
  | .set key e => index.insert key e
  | .del key => index.erase key

/-- The scan: the index, and the offset past the last complete record. -/
def recoverLoop : ℕ → IStream → Index → ℕ → Index × ℕ
  | 0, _, index, lastGood => (index, lastGood)
  | fuel + 1, s, index, lastGood =>
    match scanRecord s with
    | none => (index, lastGood)
    | some (r, s) => recoverLoop fuel s (r.applyTo index) s.pos

/-- An estimate of the bytes the live records take. -/
def liveBytes (index : Index) : ℕ :=
  (index.entries.map fun kv => kv.1.length + kv.2.valueLen + 24).sum

/-- The live records copied to a temporary file, and their places in it. -/
def compactLoop (bytes : Bytes) : List (Σ _ : Bytes, Entry) → Bytes → Index → Option (Bytes × Index)
  | [], tmp, newIndex => some (tmp, newIndex)
  | ⟨key, e⟩ :: kvs, tmp, newIndex =>
    match readAt bytes e with
    | none => none
    | some value =>
      let r := Mutation.set key value
      compactLoop bytes kvs (tmp ++ r.encode)
        (newIndex.insert key ⟨tmp.length + r.header.length + key.length, value.length⟩)

def compact (d : DiskStore) (fs : FsCalls) (order : IterOrder) : DiskStore :=
  if fs.tmpOpened && fs.copied then
    match compactLoop d.file.bytes (order.arrange d.index.entries) [] ∅ with
    | none => d
    | some (tmp, newIndex) =>
      if fs.renamed then
        { file := { d.file with bytes := tmp }, index := newIndex, ok := fs.compactReopened }
      else { d with ok := fs.compactReopened }
  else d

/-- Compacts a file of `fileSize` bytes if it is mostly garbage. -/
def compactIfWasteful (d : DiskStore) (fs : FsCalls) (order : IterOrder) (fileSize : ℕ) :
    DiskStore :=
  if 0 < fileSize ∧ 2 * liveBytes d.index + 4096 < fileSize then d.compact fs order else d

def recover (d : DiskStore) (fs : FsCalls) (order : IterOrder) : DiskStore :=
  let (index, lastGood) := recoverLoop d.file.bytes.length (.ofBytes d.file.bytes) d.index 0
  let d := { d with index := index }
  if lastGood < d.file.bytes.length then
    let bytes := if fs.resized then d.file.bytes.take lastGood else d.file.bytes
    let d := { d with file := { d.file with bytes := bytes }, ok := fs.reopened }
    if d.ok then d.compactIfWasteful fs order lastGood else d
  else d.compactIfWasteful fs order d.file.bytes.length

/-- The constructor, on a data file holding `bytes`. -/
def ofFile (fs : FsCalls) (order : IterOrder) (bytes : Bytes) (fault : Option (ℕ × ℕ)) :
    DiskStore :=
  let d : DiskStore := { file := { bytes := bytes, fault := fault }, index := ∅, ok := fs.opened }
  if d.ok then d.recover fs order else d

/-- The offsets of every live value, in iteration order. -/
def snapshotIndex (d : DiskStore) (order : IterOrder) : List (Σ _ : Bytes, Entry) :=
  order.arrange d.index.entries

/-- The key-value map the index and the file stand for. -/
def toMap (d : DiskStore) : Map :=
  mapOf (d.index.entries.filterMap fun kv => (d.readValue kv.2).map fun v => (kv.1, v))

end DiskStore

end Redon
