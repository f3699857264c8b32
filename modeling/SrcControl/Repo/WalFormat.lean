import SrcControl.Lib.Checked
import SrcControl.Core.CodecExact

/-!
# The records of a bucket's log

The manifest that names the head of the log, the entries of the log and the checkpoints that fold
it: a magic and a version, then the fields, little-endian and length-prefixed.
-/

namespace SrcControl.WalFormat

open ByteReader (Reader leBytes ofLe)
open Checked (Stop)

def MANIFEST_MAGIC : Bytes := [0x53, 0x43, 0x57, 0x4d]
def ENTRY_MAGIC : Bytes := [0x53, 0x43, 0x57, 0x45]
def CHECKPOINT_MAGIC : Bytes := [0x53, 0x43, 0x57, 0x43]
def VERSION : Nat := 1
def MAX_NAME : Nat := 4096
def MAX_LIST : Nat := 65536
def MAX_HASH : Nat := 128

structure Manifest where
  headSeq : UInt64
  checkpointSeq : UInt64
  headBranch : String
deriving DecidableEq, Repr

/-- One move of a branch; no `old` for a branch that was unborn. -/
structure RefUpdate where
  branch : String
  old : Option ObjectId
  new : ObjectId
deriving DecidableEq, Repr

structure LogEntry where
  seq : UInt64
  parentSeq : UInt64
  packs : List String
  updates : List RefUpdate
deriving DecidableEq, Repr

structure Checkpoint where
  seq : UInt64
  refs : List (String × ObjectId)
  packs : List String
deriving DecidableEq, Repr

/-! ## Writing -/

def putU64 (v : UInt64) : Bytes := leBytes 8 v.toNat

/-- `(n as u32).to_le_bytes()`. -/
def putLen (n : Nat) : Bytes := leBytes 4 n

def pushString (s : String) : Bytes := putLen (utf8 s).length ++ utf8 s

def putOld : Option ObjectId → Bytes
  | some id => 1 :: id.bytes
  | none => [0]

def putUpdate (u : RefUpdate) : Bytes := pushString u.branch ++ (putOld u.old ++ u.new.bytes)

def putRef (r : String × ObjectId) : Bytes := pushString r.1 ++ r.2.bytes

/-- A count and the elements. -/
def putList {α : Type} (put : α → Bytes) (xs : List α) : Bytes := putLen xs.length ++ xs.flatMap put

def putHeader (magic : Bytes) : Bytes := magic ++ putLen VERSION

def Manifest.fields (m : Manifest) : Bytes :=
  putU64 m.headSeq ++ (putU64 m.checkpointSeq ++ pushString m.headBranch)

def Manifest.encode (m : Manifest) : Bytes := putHeader MANIFEST_MAGIC ++ m.fields

def LogEntry.fields (e : LogEntry) : Bytes :=
  putU64 e.seq ++ (putU64 e.parentSeq ++ (putList pushString e.packs ++ putList putUpdate e.updates))

def LogEntry.encode (e : LogEntry) : Bytes := putHeader ENTRY_MAGIC ++ e.fields

def Checkpoint.fields (c : Checkpoint) : Bytes :=
  putU64 c.seq ++ (putList putRef c.refs ++ putList pushString c.packs)

def Checkpoint.encode (c : Checkpoint) : Bytes := putHeader CHECKPOINT_MAGIC ++ c.fields

/-! ## Reading -/

/-- `Error::Wal`. -/
def wal (msg : String) : Stop Error := .error (.wal msg)

namespace Cursor

/-- The cursor moves only when the read succeeds. -/
def take (n : Nat) : Reader (Stop Error) Bytes := fun c => do
  let left ← Checked.sub64 c.buf.length c.pos
  if left < n then .error (wal s!"truncated at byte {c.pos}")
  else do
    let s ← Checked.slice c.buf c.pos (c.pos + n)
    .ok (s, ⟨c.buf, c.pos + n⟩)

def u8 : Reader (Stop Error) UInt8 := do
  let b ← take 1
  pure (b.headD 0)

def u32 : Reader (Stop Error) Nat := do
  let b ← take 4
  pure (ofLe b)

def u64 : Reader (Stop Error) UInt64 := do
  let b ← take 8
  pure (UInt64.ofNat (ofLe b))

def string (cap : Nat) : Reader (Stop Error) String := do
  let n ← u32
  if n > cap then throw (wal s!"length {n} exceeds cap {cap}")
  else do
    let b ← take n
    match String.fromUTF8? ⟨b.toArray⟩ with
    | some s => pure s
    | none => throw (wal "non-utf8 name")

def id : Reader (Stop Error) ObjectId := do
  let b ← take 32
  pure ⟨b⟩

/-- A count within `MAX_LIST` and as many elements. -/
def list {α : Type} (tooMany : Nat → String) (read : Reader (Stop Error) α) :
    Reader (Stop Error) (List α) := do
  let n ← u32
  if n > MAX_LIST then throw (wal (tooMany n))
  else ByteReader.times n read

def old : Reader (Stop Error) (Option ObjectId) := do
  let flag ← u8
  if flag = 0 then pure none
  else if flag = 1 then do
    let id ← id
    pure (some id)
  else throw (wal s!"bad has_old flag: {flag}")

def update : Reader (Stop Error) RefUpdate := do
  let branch ← string MAX_NAME
  let old ← old
  let new ← id
  pure ⟨branch, old, new⟩

def ref : Reader (Stop Error) (String × ObjectId) := do
  let branch ← string MAX_NAME
  let id ← id
  pure (branch, id)

def done : Reader (Stop Error) Unit := fun c =>
  if c.pos = c.buf.length then .ok ((), c)
  else .error (wal s!"{c.buf.length - c.pos} trailing bytes")

/-- The magic and the version. -/
def header (magic : Bytes) (what : String) : Reader (Stop Error) Unit := do
  let m ← take 4
  if m ≠ magic then throw (wal s!"not a {what} (bad magic)")
  else do
    let v ← u32
    if v ≠ VERSION then
      throw (wal s!"{what} version {v} not supported (this build speaks {VERSION})")
    else pure ()

def manifest : Reader (Stop Error) Manifest := do
  let headSeq ← u64
  let checkpointSeq ← u64
  let headBranch ← string MAX_NAME
  pure ⟨headSeq, checkpointSeq, headBranch⟩

def logEntry : Reader (Stop Error) LogEntry := do
  let seq ← u64
  let parentSeq ← u64
  let packs ← list (fun n => s!"{n} packs exceeds cap {MAX_LIST}") (string MAX_HASH)
  let updates ← list (fun n => s!"{n} updates exceeds cap {MAX_LIST}") update
  pure ⟨seq, parentSeq, packs, updates⟩

def checkpoint : Reader (Stop Error) Checkpoint := do
  let seq ← u64
  let refs ← list (fun n => s!"checkpoint ref count {n} exceeds cap") ref
  let packs ← list (fun n => s!"checkpoint pack count {n} exceeds cap") (string MAX_HASH)
  pure ⟨seq, refs, packs⟩

/-- A record between its header and the end of the bytes. -/
def whole {α : Type} (magic : Bytes) (what : String) (fields : Reader (Stop Error) α)
    (bytes : Bytes) : Except (Stop Error) α := do
  let (_, c) ← header magic what ⟨bytes, 0⟩
  let (r, c) ← fields c
  let _ ← done c
  pure r

end Cursor

def Manifest.decode : Bytes → Except (Stop Error) Manifest :=
  Cursor.whole MANIFEST_MAGIC "manifest" Cursor.manifest

def LogEntry.decode : Bytes → Except (Stop Error) LogEntry :=
  Cursor.whole ENTRY_MAGIC "log entry" Cursor.logEntry

def Checkpoint.decode : Bytes → Except (Stop Error) Checkpoint :=
  Cursor.whole CHECKPOINT_MAGIC "checkpoint" Cursor.checkpoint

end SrcControl.WalFormat
