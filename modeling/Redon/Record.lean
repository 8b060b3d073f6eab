import Redon.Lib.FMap
import Redon.Lib.IStream

/-!
# Log records

The write-ahead log and the data file hold the same records, one per line and length-prefixed:
`SET <key_len> <val_len> <key><value>\n` and `DEL <key_len> <key>\n`. Both readers start a record
the same way, with its lengths and the space before its data.
-/

namespace Redon

open Lib

/-- The contents of a store. -/
abbrev Map := FMap Bytes Bytes

/-- A change to one key. -/
inductive Mutation where
  | set (key value : Bytes)
  | del (key : Bytes)
  deriving DecidableEq, Repr

namespace Mutation

def apply (m : Map) : Mutation → Map
  | .set k v => m.insert k v
  | .del k => m.erase k

def applyAll (m : Map) (rs : List Mutation) : Map := rs.foldl apply m

/-- The bytes of a record before its data. -/
def header : Mutation → Bytes
  | .set k v => ascii "SET " ++ decimal k.length ++ ascii " " ++ decimal v.length ++ ascii " "
  | .del k => ascii "DEL " ++ decimal k.length ++ ascii " "

/-- The data of a record and its terminator. -/
def body : Mutation → Bytes
  | .set k v => k ++ v ++ ascii "\n"
  | .del k => k ++ ascii "\n"

def encode (r : Mutation) : Bytes := r.header ++ r.body

def encodeAll (rs : List Mutation) : Bytes := (rs.map encode).flatten

end Mutation

/-- A field longer than this is taken for corruption. -/
def kMaxField : ℕ := 256 * 1024 * 1024

/-- A length a reader accepts. -/
def fieldOk (n : ℕ) : Bool := n != 0 && n ≤ kMaxField

/-- The lengths are ones a reader accepts. -/
def Mutation.Ok : Mutation → Prop
  | .set k v => fieldOk k.length ∧ fieldOk v.length
  | .del k => fieldOk k.length

instance : DecidablePred Mutation.Ok := fun r => by
  cases r <;> unfold Mutation.Ok <;> infer_instance

/-- The record being appended when the process is killed, if any, and how many of its bytes reach
the file. -/
abbrev Kill := Option (Mutation × ℕ)

namespace Kill

def bytes : Kill → Bytes
  | none => []
  | some (r, n) => r.encode.take n

/-- The record, if all of it reached the file. -/
def records : Kill → List Mutation
  | none => []
  | some (r, n) => if r.encode.length ≤ n then [r] else []

/-- Some but not all of the record reached the file. -/
def torn : Kill → Bool
  | none => false
  | some (r, n) => 0 < n && n < r.encode.length

/-- The record is cut inside its header. -/
def inHeader : Kill → Bool
  | none => false
  | some (r, n) => 0 < n && n < r.header.length

end Kill

/-- The lengths of a `SET` record, read up to its data. -/
def readSetHeader (s : IStream) : Option ((ℕ × ℕ) × IStream) :=
  let (keyLen, s) := s.getSize
  let (valLen, s) := s.getSize
  if s.failbit then none
  else if fieldOk keyLen && fieldOk valLen then
    let (c, s) := s.get
    if c = some 32 then some ((keyLen, valLen), s) else none
  else none

/-- The length of a `DEL` record, read up to its data. -/
def readDelHeader (s : IStream) : Option (ℕ × IStream) :=
  let (keyLen, s) := s.getSize
  if s.failbit then none
  else if fieldOk keyLen then
    let (c, s) := s.get
    if c = some 32 then some (keyLen, s) else none
  else none

end Redon
