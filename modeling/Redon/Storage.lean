import Redon.DiskStore
import Redon.Lib.LinkedMap
import Redon.Wal

/-!
# The storage engine

A list of key-value pairs from most to least recently used, with an index of its keys, bounded by a
capacity and backed by a write-ahead log; or, with an on-disk engine open, that engine alone.

Every change that reaches the map is replicated. `set` and `del` return the changes they replicate,
each with the store right after it, so that the changes inside one call can be told apart.
-/

namespace Redon

open Lib

structure Storage where
  /-- `items_` and `index_`: the front is the most recently used. -/
  items : LinkedMap Bytes Bytes
  /-- 0 is unbounded. -/
  capacity : ℕ
  replaying : Bool
  wal : Option Wal
  disk : Option DiskStore

namespace Storage

/-- A change handed to the replicator and the store right after it. -/
abbrev Replicated := Mutation × Storage

def empty (capacity : ℕ) : Storage :=
  { items := .empty, capacity := capacity, replaying := false, wal := none, disk := none }

def toMap (s : Storage) : Map :=
  match s.disk with
  | some d => d.toMap
  | none => s.items.toMap

/-- Logs `r` if a log is attached; false if that fails. -/
def logRecord (s : Storage) (r : Mutation) : Bool × Storage :=
  match s.wal with
  | none => (true, s)
  | some w =>
    let (written, w) := match r with
      | .set key value => w.appendSet key value
      | .del key => w.appendDel key
    (written, { s with wal := some w })

/-- Evicts the least recently used key, unless logging that fails. -/
def evictLruLocked (s : Storage) (logEviction : Bool) : Bool × Storage × List Replicated :=
  match s.items.back? with
  | none => (false, s, [])
  | some (evicted, _) =>
    let (logged, s) := if logEviction then s.logRecord (.del evicted) else (true, s)
    if logged then
      let s := { s with items := s.items.popBack }
      (true, s, if logEviction then [(.del evicted, s)] else [])
    else (false, s, [])

/-- Evicts while over capacity, stopping when an eviction fails. -/
def evictLoop : ℕ → Storage → Storage × List Replicated
  | 0, s => (s, [])
  | fuel + 1, s =>
    if !s.replaying && 0 < s.capacity && s.capacity < s.items.size then
      match s.evictLruLocked true with
      | (false, s, _) => (s, [])
      | (true, s, rs) =>
        let (s, rs') := evictLoop fuel s
        (s, rs ++ rs')
    else (s, [])

def set (s : Storage) (key value : Bytes) : Bool × Storage × List Replicated :=
  match s.disk with
  | some d =>
    match d.set key value with
    | (false, d) => (false, { s with disk := some d }, [])
    | (true, d) =>
      let s := { s with disk := some d }
      (true, s, [(.set key value, s)])
  | none =>
    match s.logRecord (.set key value) with
    | (false, s') => (false, s', [])
    | (true, s') =>
      match h : s.items.index.lookup key with
      | some i =>
        let s' := { s' with items := (s.items.setVal i value).splice i }
        (true, s', [(.set key value, s')])
      | none =>
        let s' := { s' with items := s.items.emplaceFront key value h }
        let (s'', rs) := s'.evictLoop s'.items.size
        (true, s'', (.set key value, s') :: rs)

def get (s : Storage) (key : Bytes) : Option Bytes × Storage :=
  match s.disk with
  | some d => (d.get key, s)
  | none =>
    match s.items.index.lookup key with
    | none => (none, s)
    | some i => (s.items.get? key, { s with items := s.items.splice i })

/-- The outcome of a delete: the number removed and whether it is durable. -/
structure Deleted where
  removed : ℕ
  durable : Bool
  deriving DecidableEq, Repr

def del (s : Storage) (key : Bytes) : Deleted × Storage × List Replicated :=
  match s.disk with
  | some d =>
    let (removed, d) := d.del key
    let s := { s with disk := some d }
    if !d.ok then (⟨0, false⟩, s, [])
    else if removed then (⟨1, true⟩, s, [(.del key, s)])
    else (⟨0, true⟩, s, [])
  | none =>
    match h : s.items.index.lookup key with
    | none => (⟨0, true⟩, s, [])
    | some i =>
      match s.logRecord (.del key) with
      | (false, s') => (⟨0, false⟩, s', [])
      | (true, s') =>
        let s' := { s' with items := s.items.eraseAt key i h }
        (⟨1, true⟩, s', [(.del key, s')])

def exists? (s : Storage) (key : Bytes) : Bool :=
  match s.disk with
  | some d => d.exists? key
  | none => (s.items.index.lookup key).isSome

def size (s : Storage) : ℕ :=
  match s.disk with
  | some d => d.size
  | none => s.items.size

/-- Opens the on-disk engine on a data file holding `bytes`. -/
def openDiskBackend (s : Storage) (fs : FsCalls) (order : IterOrder) (bytes : Bytes)
    (fault : Option (ℕ × ℕ)) : Bool × Storage :=
  let d := DiskStore.ofFile fs order bytes fault
  if d.ok then (true, { s with disk := some d }) else (false, { s with disk := none })

def attachWal (s : Storage) (w : Wal) : Storage := { s with wal := some w }

/-- Empties the store; `truncated` and `reopened` are whether an on-disk engine's calls succeed. -/
def clear (s : Storage) (truncated reopened : Bool) : Bool × Storage :=
  match s.disk with
  | some d =>
    let (done, d) := d.clear truncated reopened
    (done, { s with disk := some d })
  | none => (true, { s with items := .empty })

/-- Drops the least recently used keys, unlogged, until the rest fits the capacity. -/
def trimLoop : ℕ → Storage → Storage
  | 0, s => s
  | fuel + 1, s =>
    if 0 < s.capacity && s.capacity < s.items.size then
      trimLoop fuel (s.evictLruLocked false).2.1
    else s

def setReplaying (s : Storage) (replaying : Bool) : Storage :=
  let s := { s with replaying := replaying }
  if replaying then s else s.trimLoop s.items.size

/-- What replaying a record does: the calls' results are ignored. -/
def replayRecord (s : Storage) : Mutation → Storage
  | .set key value => (s.set key value).2.1
  | .del key => (s.del key).2.1

end Storage

/-- Rebuilds a store from the log, if there is one, and counts the records applied. -/
def Wal.replayInto (file : Option Bytes) (store : Storage) : Storage × ℕ :=
  match file with
  | none => (store, 0)
  | some bytes =>
    let (store, applied) := Wal.replayBytes Storage.replayRecord bytes (store.setReplaying true)
    (store.setReplaying false, applied)

end Redon
