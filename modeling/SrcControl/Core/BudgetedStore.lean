import SrcControl.Core.Codec
import SrcControl.Lib.MapTotal
import SrcControl.Lib.Outcome

/-!
# The store under a byte budget

Blob content in memory is bounded by a budget. An insertion that would exceed it evicts
the coldest blobs: into a spill directory, or, over a durable objects directory, by
dropping the copy in memory. Counters are natural numbers: the bytes of all resident
blobs fit in memory at once, so no sum of the source wraps.
-/

namespace SrcControl

/-- Bytes counted against the blob budget; a sealed payload counts like a blob. -/
def Object.blobSize : Object → Nat
  | .blob bytes => bytes.length
  | .sealed s => s.payload.length
  | _ => 0

def Object.isBlob : Object → Bool
  | .blob _ => true
  | _ => false

namespace Budgeted

inductive SpillPolicy
  | disallow
  | spillTo
deriving DecidableEq

inductive Backend
  | ephemeral (policy : SpillPolicy)
  | persistent
deriving DecidableEq

structure StoreConfig where
  budgetBytes : Nat
  backend : Backend

structure Resident where
  obj : Object
  blobSize : Nat
  lastUsed : Nat

inductive Failure
  | core (e : CoreError)
  | budgetExceeded (needed available budget : Nat)
  | abort (msg : String)
  | fuel
deriving DecidableEq

/-- A failed `unreachable!` or `expect`. -/
def Failure.isAbort : Failure → Bool
  | .abort _ => true
  | _ => false

/-- Files by the id in their name: raw blob bytes in the spill directory, loose objects in
their sharded and their legacy place, and the record the pack index points at. -/
structure Disk where
  spill : BTreeMap ObjectId Bytes
  loose : BTreeMap ObjectId Bytes
  flat : BTreeMap ObjectId Bytes
  packed : BTreeMap ObjectId Bytes

/-- What a file system call does. A failed write may leave other bytes in the file, and a
failed durable write the whole file. -/
inductive IoResult
  | done
  | failed
  | torn (left : Bytes)

/-- `zstd::encode_all` and `decode_all`. -/
structure Zstd where
  compress : Bytes → Bytes
  decompress : Bytes → Option Bytes

structure Store where
  cfg : StoreConfig
  resident : BTreeMap ObjectId Resident
  spilled : BTreeMap ObjectId Nat
  clock : Nat
  residentBlobBytes : Nat
  spillDirReady : Bool
  evictions : Nat
  rehydrations : Nat
  disk : Disk
  faults : Nat → IoResult
  calls : Nat

abbrev M := EStateM Failure Store

namespace Store

/-- An empty store over whatever its directories hold. -/
def new (cfg : StoreConfig) (disk : Disk) (faults : Nat → IoResult) : Store :=
  ⟨cfg, ∅, ∅, 0, 0, false, 0, 0, disk, faults, 0⟩

def isPersistent (s : Store) : Bool := s.cfg.backend = .persistent

/-- `existing_loose_path`, by the bytes of the file it finds. -/
def existingLoose (s : Store) (id : ObjectId) : Option Bytes := (s.disk.loose[id]?).or s.disk.flat[id]?

def evictable (incoming : ObjectId) (row : ObjectId × Resident) : Bool :=
  0 < row.2.blobSize && row.1 != incoming

/-- The coldest evictable object. -/
def victim (s : Store) (incoming : ObjectId) : Option ObjectId :=
  ((s.resident.toList.filter (evictable incoming)).argmin (fun row => row.2.lastUsed)).map (·.1)

def evictableBytes (s : Store) (incoming : ObjectId) : Nat :=
  ((s.resident.toList.filter (evictable incoming)).map (fun row => row.2.blobSize)).sum

/-- `resident.insert` at the next tick of the clock. -/
def insertResident (id : ObjectId) (obj : Object) (blobSize : Nat) (s : Store) : Store :=
  { s with
    clock := s.clock + 1
    resident := s.resident.insert id ⟨obj, blobSize, s.clock + 1⟩ }

/-- `last_used` moved to the next tick. -/
def touch (id : ObjectId) (r : Resident) (s : Store) : Store :=
  { s with
    clock := s.clock + 1
    resident := s.resident.insert id { r with lastUsed := s.clock + 1 } }

/-- The counters of an evicted object: out of memory, its bytes off the sum. -/
def removeResident (id : ObjectId) (r : Resident) (s : Store) : Store :=
  { s with
    resident := s.resident.erase id
    residentBlobBytes := s.residentBlobBytes - r.blobSize }

end Store

open Store

/-! ## File system calls -/

/-- The next call, and what comes of it. -/
def call : M IoResult := do
  let s ← get
  modify (fun s => { s with calls := s.calls + 1 })
  pure (s.faults s.calls)

/-- A call that changes no file the store reads. -/
def attempt : M Unit := do
  match ← call with
  | .done => pure ()
  | _ => throw (.core .io)

def setSpill (id : ObjectId) (bytes : Bytes) (s : Store) : Store :=
  { s with disk := { s.disk with spill := s.disk.spill.insert id bytes } }

def setLoose (id : ObjectId) (bytes : Bytes) (s : Store) : Store :=
  { s with disk := { s.disk with loose := s.disk.loose.insert id bytes } }

/-- Removes the file `existing_loose_path` finds. -/
def unlinkLoose (id : ObjectId) (s : Store) : Store :=
  if s.disk.loose[id]?.isSome then
    { s with disk := { s.disk with loose := s.disk.loose.erase id } }
  else { s with disk := { s.disk with flat := s.disk.flat.erase id } }

/-- `std::fs::write` of a spill file. -/
def writeSpillFile (id : ObjectId) (bytes : Bytes) : M Unit := do
  match ← call with
  | .done => modify (setSpill id bytes)
  | .failed => throw (.core .io)
  | .torn left => do
    modify (setSpill id left)
    throw (.core .io)

/-- `atomic_write_durable` of a loose object: a failure leaves the whole file or none. -/
def writeLooseFile (id : ObjectId) (bytes : Bytes) : M Unit := do
  match ← call with
  | .done => modify (setLoose id bytes)
  | .failed => throw (.core .io)
  | .torn _ => do
    modify (setLoose id bytes)
    throw (.core .io)

/-! ## Spill backend -/

def ensureSpillDir : M Unit := do
  let s ← get
  if s.spillDirReady then pure ()
  else do
    attempt
    modify (fun s => { s with spillDirReady := true })

def writeSpill (id : ObjectId) (bytes : Bytes) : M Unit := do
  ensureSpillDir
  let s ← get
  -- Content-addressed name: nothing to do if already written.
  if s.disk.spill[id]?.isSome then pure () else writeSpillFile id bytes

/-- The raw bytes make a blob again, whose address is verified. -/
def readSpill (hash : Bytes → Bytes) (id : ObjectId) : M Object := do
  attempt
  let s ← get
  match s.disk.spill[id]? with
  | none => throw (.core .io)
  | some bytes =>
    if (Object.blob bytes).id hash = id then pure (.blob bytes)
    else throw (.core (.malformed "spill object failed hash verification"))

/-! ## Persistent backend -/

def writeObjectFile (zstd : Zstd) (id : ObjectId) (bytes : Bytes) : M Unit := do
  let s ← get
  if s.disk.loose[id]?.isSome then pure ()
  else do
    attempt
    writeLooseFile id (zstd.compress bytes)

/-- The result of a pure decoder. -/
def ofExcept {α : Type} : Except CoreError α → M α
  | .ok a => pure a
  | .error e => throw (.core e)

def readObjectFile (hash : Bytes → Bytes) (zstd : Zstd) (id : ObjectId) (raw : Bytes) : M Object := do
  attempt
  ofExcept (Object.decodeVerified hash (.malformed "object failed hash verification on read") id
    ((zstd.decompress raw).getD raw))

def readPackObject (hash : Bytes → Bytes) (zstd : Zstd) (id : ObjectId) : M Object := do
  let s ← get
  match s.disk.packed[id]? with
  | none => throw (.core (.notFound id))
  | some payload => do
    attempt
    match zstd.decompress payload with
    | none => throw (.core (.packCorrupt "zstd decode failed"))
    | some canonical =>
      ofExcept (Object.decodeVerified hash (.malformed "packed object failed hash verification")
        id canonical)

def loadObject (hash : Bytes → Bytes) (zstd : Zstd) (id : ObjectId) : M Object := do
  let s ← get
  match s.existingLoose id with
  | some raw => readObjectFile hash zstd id raw
  | none => readPackObject hash zstd id

/-! ## Eviction -/

def evictToSpill (id : ObjectId) : M Unit := do
  let s ← get
  match s.resident[id]? with
  | none => throw (.abort "victim resident")
  | some r =>
    match r.obj with
    | .blob bytes => do
      writeSpill id bytes
      modify (fun s => { s.removeResident id r with
        spilled := s.spilled.insert id r.blobSize
        evictions := s.evictions + 1 })
    | _ => throw (.abort "only blobs are evicted")

def dropResidentBlob (id : ObjectId) : M Unit := do
  let s ← get
  match s.resident[id]? with
  | none => pure ()
  | some r => modify (fun s => { s.removeResident id r with evictions := s.evictions + 1 })

/-- The bound counts the resident objects: every round removes one. -/
def ensureCapacityLoop (needed : Nat) (incoming : ObjectId) : Nat → M Unit
  | 0 => throw .fuel
  | fuel + 1 => do
    let s ← get
    if s.residentBlobBytes + needed ≤ s.cfg.budgetBytes then pure ()
    else
      match s.victim incoming with
      | none => throw (.budgetExceeded needed s.residentBlobBytes s.cfg.budgetBytes)
      | some victim =>
        match s.cfg.backend with
        | .ephemeral .disallow =>
          throw (.budgetExceeded needed (s.evictableBytes incoming) s.cfg.budgetBytes)
        | .ephemeral .spillTo => do
          evictToSpill victim
          ensureCapacityLoop needed incoming fuel
        | .persistent => do
          dropResidentBlob victim
          ensureCapacityLoop needed incoming fuel

def ensureCapacity (needed : Nat) (incoming : ObjectId) : M Unit := do
  let s ← get
  if s.residentBlobBytes + needed ≤ s.cfg.budgetBytes then pure ()
  else ensureCapacityLoop needed incoming (s.resident.size + 1)

/-- `if blob_size > 0` of `put` and `get`: room for the bytes, which are then counted. -/
def reserve (blobSize : Nat) (id : ObjectId) : M Unit :=
  if 0 < blobSize then do
    ensureCapacity blobSize id
    modify (fun s => { s with residentBlobBytes := s.residentBlobBytes + blobSize })
  else pure ()

/-! ## Operations -/

/-- Written to disk before it is admitted to memory. -/
def writeThrough (zstd : Zstd) (id : ObjectId) (obj : Object) : M Unit := do
  let s ← get
  if s.isPersistent then writeObjectFile zstd id obj.encode else pure ()

/-- The part of `put` behind its early returns. -/
def putNew (zstd : Zstd) (id : ObjectId) (obj : Object) : M ObjectId := do
  writeThrough zstd id obj
  reserve obj.blobSize id
  modify (insertResident id obj obj.blobSize)
  pure id

def put (hash : Bytes → Bytes) (zstd : Zstd) (obj : Object) : M ObjectId := do
  let s ← get
  let id := obj.id hash
  if s.resident.contains id || s.spilled.contains id then pure id
  -- Already durable on disk: admitting it here would count its bytes twice.
  else if s.isPersistent && (s.existingLoose id).isSome then pure id
  else putNew zstd id obj

/-- The blob comes back from the spill directory. -/
def rehydrateSpill (hash : Bytes → Bytes) (id : ObjectId) (size : Nat) : M Object := do
  let obj ← readSpill hash id
  ensureCapacity size id
  modify (fun s => { s with
    spilled := s.spilled.erase id
    residentBlobBytes := s.residentBlobBytes + size
    rehydrations := s.rehydrations + 1 })
  modify (insertResident id obj size)
  pure obj

def rehydratePersistent (hash : Bytes → Bytes) (zstd : Zstd) (id : ObjectId) : M Object := do
  let obj ← loadObject hash zstd id
  reserve obj.blobSize id
  modify (fun s => { s with rehydrations := s.rehydrations + 1 })
  modify (insertResident id obj obj.blobSize)
  pure obj

/-- `Store::get`. -/
def fetch (hash : Bytes → Bytes) (zstd : Zstd) (id : ObjectId) : M Object := do
  let s ← get
  match s.resident[id]? with
  | some r => do
    modify (touch id r)
    pure r.obj
  | none =>
    match s.spilled[id]? with
    | some size => rehydrateSpill hash id size
    | none =>
      if s.isPersistent then rehydratePersistent hash zstd id else throw (.core (.notFound id))

def removeLoose (id : ObjectId) : M Unit := do
  let s ← get
  if s.isPersistent && (s.existingLoose id).isSome then do
    attempt
    modify (unlinkLoose id)
  else pure ()

def delete (id : ObjectId) : M Unit := do
  removeLoose id
  let s ← get
  match s.resident[id]? with
  | some r => modify (fun s => { s.removeResident id r with spilled := s.spilled.erase id })
  | none => modify (fun s => { s with spilled := s.spilled.erase id })

/-! ## Runs -/

inductive Op
  | put (obj : Object)
  | get (id : ObjectId)
  | delete (id : ObjectId)
deriving DecidableEq

inductive Answer
  | id (id : ObjectId)
  | object (obj : Object)
  | done
deriving DecidableEq

def Op.exec (hash : Bytes → Bytes) (zstd : Zstd) : Op → M Answer
  | .put obj => do
    let id ← Budgeted.put hash zstd obj
    pure (.id id)
  | .get id => do
    let obj ← fetch hash zstd id
    pure (.object obj)
  | .delete id => do
    Budgeted.delete id
    pure .done

section Runs

variable (hash : Bytes → Bytes) (zstd : Zstd)

def answer (s : Store) (op : Op) : Except Failure Answer :=
  match op.exec hash zstd s with
  | .ok a _ => .ok a
  | .error e _ => .error e

/-- A failed operation leaves what it did before it failed. -/
def step (s : Store) (op : Op) : Store :=
  match op.exec hash zstd s with
  | .ok _ s' => s'
  | .error _ s' => s'

def run (s : Store) (ops : List Op) : Store := ops.foldl (step hash zstd) s

/-- An operation of the run reaches an unreachable branch. -/
def Aborts : Store → List Op → Prop
  | _, [] => False
  | s, op :: ops =>
    (∃ msg, answer hash zstd s op = .error (.abort msg)) ∨ Aborts (step hash zstd s op) ops

end Runs

end Budgeted

end SrcControl
