import SrcControl.Core.Pack
import SrcControl.Objio.DirBucket
import SrcControl.Repo.WalFormat

/-!
# The bucket transport

A remote whose refs live in a bucket: immutable packs, log entries that name their parent, and one
manifest, swapped by its tag, as the only commit point. A client is a long-lived transport with a
cached view; its calls take one bucket operation at a time, in any order with those of the others,
and an operation may fail with or without its effect.
-/

namespace SrcControl.BucketTransport

open Checked (Stop)
open Objio (Path Fetched mapApply)
open Pack (Zstd IndexEntry buildPack parseIndex)
open WalFormat (Manifest RefUpdate LogEntry Checkpoint MAX_LIST wal)

/-! ## Keys -/

def MANIFEST : Path := "manifest".toList

/-- `{n:020}`. -/
def padded (n : Nat) : List Char :=
  List.replicate (20 - (LineText.showNat n).length) '0' ++ LineText.showNat n

def logKey (seq : UInt64) : Path := "log/".toList ++ padded seq.toNat

def checkpointKey (seq : UInt64) : Path := "checkpoints/".toList ++ padded seq.toNat

def packKey (hash : String) : Path := "packs/".toList ++ hash.toList ++ ".pack".toList

def idxKey (hash : String) : Path := "packs/".toList ++ hash.toList ++ ".idx".toList

/-! ## Bounds -/

def MAX_RESTARTS : Nat := 8
def MAX_CAS_RETRIES : Nat := 16
def CHECKPOINT_INTERVAL : Nat := 64
def DEFAULT_MAX_OBJECT_SIZE : Nat := 256 * 1024 * 1024

def capped (what : String) (bytes : Bytes) : Except (Stop Error) Bytes :=
  if bytes.length > DEFAULT_MAX_OBJECT_SIZE then
    .error (wal s!"{what} exceeds the {DEFAULT_MAX_OBJECT_SIZE}-byte metadata limit")
  else .ok bytes

def foldWouldOverflow (nrefs npacks : Nat) : Bool := nrefs > MAX_LIST || npacks > MAX_LIST

/-! ## Views -/

/-- The branch tips, and the packs on the chain in its order. -/
structure Fold where
  refs : BTreeMap String ObjectId
  packs : List String

structure WalView (Tag : Type) where
  tag : Tag
  manifest : Manifest
  refs : BTreeMap String ObjectId
  /-- The pack of an object, and its place there. -/
  index : BTreeMap ObjectId (String × Nat × Nat)
  packs : List String

/-- A branch name of the bucket is checked before it is taken over. -/
def insertRef (refs : BTreeMap String ObjectId) (branch : String) (id : ObjectId) :
    Except (Stop Error) (BTreeMap String ObjectId) :=
  match Refs.validateBranchName branch with
  | .error e => .error (.error e)
  | .ok () => .ok (refs.insert branch id)

def seedOf (c : Checkpoint) : Except (Stop Error) Fold := do
  let refs ← c.refs.foldlM (fun refs r => insertRef refs r.1 r.2) ∅
  .ok ⟨refs, c.packs⟩

def foldEntry (s : Fold) (e : LogEntry) : Except (Stop Error) Fold := do
  let refs ← e.updates.foldlM (fun refs u => insertRef refs u.branch u.new) s.refs
  .ok ⟨refs, s.packs ++ e.packs⟩

def insertRows (index : BTreeMap ObjectId (String × Nat × Nat)) (hash : String)
    (rows : List IndexEntry) : BTreeMap ObjectId (String × Nat × Nat) :=
  rows.foldl (fun index r => index.insert r.id (hash, r.offset, r.length)) index

/-! ## `refresh` -/

/-- How a call fails: by an error or a fault of its own, or by an error of the bucket. -/
inductive Failure
  | own (st : Stop Error)
  | bucket
deriving DecidableEq, Repr

section Tags

variable (Tag : Type)

/-- What a `refresh_once` reads next. The log is read backwards, so the entries come out oldest
first. -/
inductive Reading
  | manifest
  | checkpoint (tag : Tag) (m : Manifest)
  | log (tag : Tag) (m : Manifest) (seed : Fold) (seq : UInt64) (entries : List LogEntry)
  | index (v : WalView Tag) (hash : String) (rest : List String)

/-- What an operation has led a `refresh_once` to: its next one, a view, or a failure with
`saw_absent` and `attempt_tag`. -/
inductive Turn
  | more (r : Reading Tag)
  | read (view : Option (WalView Tag))
  | failed (sawAbsent : Bool) (attemptTag : Option Tag) (e : Failure)

structure Refresh where
  attempt : Nat
  failedOn : Option Tag
  reading : Reading Tag

inductive Refreshed
  | more (r : Refresh Tag)
  | done (view : Option (WalView Tag))
  | failed (e : Failure)

end Tags

variable {Tag : Type}

namespace Reading

def op (cached : Option Tag) : Reading Tag → Objio.Op Tag
  | .manifest => .get MANIFEST cached
  | .checkpoint _ m => .get (checkpointKey m.checkpointSeq) none
  | .log _ _ _ seq _ => .get (logKey seq) none
  | .index _ hash _ => .get (idxKey hash) none

def gone (tag : Tag) (msg : String) : Turn Tag := .failed true (some tag) (.own (wal msg))

def stopped (tag : Tag) (st : Stop Error) : Turn Tag := .failed false (some tag) (.own st)

def nextIdx (v : WalView Tag) : List String → Turn Tag
  | [] => .read (some v)
  | hash :: rest => .more (.index v hash rest)

/-- The chain has been read down to the checkpoint. -/
def foldTail (tag : Tag) (m : Manifest) (seed : Fold) (entries : List LogEntry) : Turn Tag :=
  match entries.foldlM foldEntry seed with
  | .error st => stopped tag st
  | .ok s => nextIdx ⟨tag, m, s.refs, ∅, s.packs⟩ s.packs

def walk (tag : Tag) (m : Manifest) (seed : Fold) (seq : UInt64) (entries : List LogEntry) :
    Turn Tag :=
  if seq = m.checkpointSeq then foldTail tag m seed entries
  else if seq < m.checkpointSeq then
    stopped tag (wal s!"log chain bypasses checkpoint {m.checkpointSeq} (reached {seq})")
  else .more (.log tag m seed seq entries)

def readManifest (tag : Tag) (bytes : Bytes) : Turn Tag :=
  match capped "manifest" bytes >>= Manifest.decode with
  | .error st => stopped tag st
  | .ok m =>
    if m.checkpointSeq ≠ 0 then .more (.checkpoint tag m) else walk tag m ⟨∅, []⟩ m.headSeq []

def readCheckpoint (tag : Tag) (m : Manifest) (bytes : Bytes) : Turn Tag :=
  match capped "checkpoint" bytes >>= Checkpoint.decode with
  | .error st => stopped tag st
  | .ok c =>
    if c.seq ≠ m.checkpointSeq then
      stopped tag (wal s!"checkpoint at {m.checkpointSeq} claims seq {c.seq}")
    else
      match seedOf c with
      | .error st => stopped tag st
      | .ok seed => walk tag m seed m.headSeq []

def readEntry (tag : Tag) (m : Manifest) (seed : Fold) (seq : UInt64) (entries : List LogEntry)
    (bytes : Bytes) : Turn Tag :=
  match capped "log entry" bytes >>= LogEntry.decode with
  | .error st => stopped tag st
  | .ok e =>
    if e.seq ≠ seq then stopped tag (wal s!"log entry at {seq} claims seq {e.seq}")
    else if e.parentSeq ≥ e.seq then
      stopped tag (wal s!"log entry {e.seq} has non-decreasing parent {e.parentSeq}")
    else walk tag m seed e.parentSeq (e :: entries)

def readIdx (v : WalView Tag) (hash : String) (rest : List String) (bytes : Bytes) : Turn Tag :=
  match capped "pack idx" bytes with
  | .error st => stopped v.tag st
  | .ok bytes =>
    match parseIndex bytes with
    | .error (.error e) => stopped v.tag (.error (.core e))
    | .error .overflow => stopped v.tag .overflow
    | .error .outOfRange => stopped v.tag .outOfRange
    | .ok rows => nextIdx { v with index := insertRows v.index hash rows } rest

/-- What a `refresh_once` that had `view` does with an answer of the bucket. -/
def turn (view : Option (WalView Tag)) : Reading Tag → Objio.Res Tag → Turn Tag
  | .manifest, .fetched .unchanged => .read view
  | .manifest, .fetched .absent => .read none
  | .manifest, .fetched (.new bytes tag) => readManifest tag bytes
  | .checkpoint tag m, .fetched (.new bytes _) => readCheckpoint tag m bytes
  | .checkpoint tag m, .fetched _ =>
    gone tag s!"checkpoint {m.checkpointSeq} referenced by manifest but absent"
  | .log tag m seed seq entries, .fetched (.new bytes _) => readEntry tag m seed seq entries bytes
  | .log tag _ _ seq _, .fetched _ => gone tag s!"log entry {seq} referenced by chain but absent"
  | .index v hash rest, .fetched (.new bytes _) => readIdx v hash rest bytes
  | .index v hash _, .fetched _ => gone v.tag s!"pack {hash} on chain but idx absent"
  | _, _ => .failed false none .bucket

end Reading

namespace Refresh

def begin : Refresh Tag := ⟨0, none, .manifest⟩

/-- A read that finds a named key absent starts over from the manifest, unless that is the one it
failed on before. -/
def turn [DecidableEq Tag] (view : Option (WalView Tag)) (r : Refresh Tag) (res : Objio.Res Tag) :
    Refreshed Tag :=
  match r.reading.turn view res with
  | .more reading => .more { r with reading := reading }
  | .read view => .done view
  | .failed sawAbsent tag e =>
    if sawAbsent ∧ r.attempt < MAX_RESTARTS then
      if tag = none ∨ tag = r.failedOn then .failed e
      else .more ⟨r.attempt + 1, tag, .manifest⟩
    else .failed e

end Refresh

/-! ## Calls -/

inductive Op
  | updateRef (branch : String) (id : ObjectId) (expectedOld : Option ObjectId)
  | listRefs
  | putPack (objects : List (ObjectId × Bytes))
deriving DecidableEq, Repr

inductive Reply
  | updated
  | refs (rs : List (String × ObjectId))
  | ids (ids : List ObjectId)
deriving DecidableEq, Repr

/-- How a call ends without a reply. -/
inductive CallError
  | failed (f : Failure)
  | nonFastForward
  | contention (msg : String)
deriving DecidableEq, Repr

abbrev Res := Except CallError Reply

def contention : CallError :=
  .contention s!"manifest cas contention: gave up after {MAX_CAS_RETRIES} attempts"

def swept (hash : String) : CallError :=
  .failed (.own (.error (.remote (s!"pack {hash} was removed from the bucket before this push " ++
    "committed (bucket compaction swept it); retry the push"))))

def overflowed : CallError := .failed (.own .overflow)

/-- A pack with its index on the way up, and the staged objects it was built from. -/
structure Upload where
  hash : String
  pack : Bytes
  idx : Bytes
  objects : List (ObjectId × Bytes)

section Tags

variable (Tag : Type)

/-- One client. -/
structure Transport where
  view : Option (WalView Tag)
  staged : List (ObjectId × Bytes)
  pendingPacks : List String

/-- What one round of `update_ref` commits, the slot of its entry left open. -/
structure Attempt where
  n : Nat
  entry : LogEntry
  prevTag : Option Tag
  checkpointSeq : UInt64
  headBranch : String

/-- What a `refresh` is made for. -/
inductive Next
  | attempt (n : Nat) (pending : List String)
  | committed
  | folded
  | listed

/-- The next bucket operation of a call. -/
inductive Pc
  | putPack (u : Upload)
  | putIdx (u : Upload)
  | refresh (r : Refresh Tag) (next : Next)
  | claim (a : Attempt Tag) (seq : UInt64)
  | packPresent (a : Attempt Tag) (seq : UInt64) (hash : String) (rest : List String)
  | idxPresent (a : Attempt Tag) (seq : UInt64) (hash : String) (rest : List String)
  | commit (a : Attempt Tag) (seq : UInt64)
  | fold (c : Checkpoint) (m : Manifest) (tag : Tag)
  | foldCommit (m : Manifest) (tag : Tag)
  | done (r : Res)

end Tags

def Transport.empty : Transport Tag := ⟨none, [], []⟩

namespace Attempt

def entryAt (a : Attempt Tag) (seq : UInt64) : LogEntry := { a.entry with seq := seq }

def manifestAt (a : Attempt Tag) (seq : UInt64) : Manifest :=
  ⟨seq, a.checkpointSeq, a.headBranch⟩

end Attempt

namespace Pc

/-- The operation a call waits for; `none` when it has returned. -/
def op (view : Option (WalView Tag)) : Pc Tag → Option (Objio.Op Tag)
  | .putPack u => some (.putNew (packKey u.hash) u.pack)
  | .putIdx u => some (.putNew (idxKey u.hash) u.idx)
  | .refresh r _ => some (r.reading.op (view.map (·.tag)))
  | .claim a seq => some (.putNew (logKey seq) (a.entryAt seq).encode)
  | .packPresent _ _ hash _ => some (.exists (packKey hash))
  | .idxPresent _ _ hash _ => some (.exists (idxKey hash))
  | .commit a seq => some (.putIfTag MANIFEST (a.manifestAt seq).encode a.prevTag)
  | .fold c m _ => some (.putNew (checkpointKey m.headSeq) c.encode)
  | .foldCommit m tag => some (.putIfTag MANIFEST m.encode (some tag))
  | .done _ => none

/-- The head of the loop of `update_ref`. -/
def attempt (n : Nat) (pending : List String) : Pc Tag :=
  if n < MAX_CAS_RETRIES then .refresh .begin (.attempt n pending) else .done (.error contention)

/-- The slot behind `seq`. -/
def claimAfter (a : Attempt Tag) (seq : UInt64) : Pc Tag :=
  if seq.toNat + 1 < 2 ^ 64 then .claim a (seq + 1) else .done (.error overflowed)

/-- `ensure_packs_present`. -/
def ensurePresent (a : Attempt Tag) (seq : UInt64) : List String → Pc Tag
  | [] => .commit a seq
  | hash :: rest => .packPresent a seq hash rest

/-- `update_ref` with a fresh view. -/
def decide (view : Option (WalView Tag)) (n : Nat) (pending : List String) (branch : String)
    (id : ObjectId) (expectedOld : Option ObjectId) : Pc Tag :=
  let current := view.bind (fun v => v.refs[branch]?)
  let headSeq := (view.map (·.manifest.headSeq)).getD 0
  if current = some id then .done (.ok .updated)
  else if current ≠ expectedOld then .done (.error .nonFastForward)
  else claimAfter ⟨n, ⟨0, headSeq, pending, [⟨branch, current, id⟩]⟩, view.map (·.tag),
    (view.map (·.manifest.checkpointSeq)).getD 0,
    (view.map (·.manifest.headBranch)).getD branch⟩ headSeq

/-- `maybe_fold_checkpoint`; whatever comes of it, the update has been made. -/
def maybeFold : Option (WalView Tag) → Pc Tag
  | none => .done (.ok .updated)
  | some v =>
    if v.manifest.headSeq < v.manifest.checkpointSeq then .done (.error overflowed)
    else if v.manifest.headSeq.toNat - v.manifest.checkpointSeq.toNat ≤ CHECKPOINT_INTERVAL then
      .done (.ok .updated)
    else if foldWouldOverflow v.refs.toList.length v.packs.eraseDups.length then
      .done (.ok .updated)
    else .fold ⟨v.manifest.headSeq, v.refs.toList, v.packs.eraseDups⟩
      ⟨v.manifest.headSeq, v.manifest.headSeq, v.manifest.headBranch⟩ v.tag

/-- A call behind a `refresh` that ended with `view`. -/
def refreshed (view : Option (WalView Tag)) (op : Op) : Next → Pc Tag
  | .attempt n pending =>
    match op with
    | .updateRef branch id expectedOld => decide view n pending branch id expectedOld
    | _ => .done (.error (.failed .bucket))
  | .committed => maybeFold view
  | .folded => .done (.ok .updated)
  | .listed => .done (.ok (.refs ((view.map (·.refs.toList)).getD [])))

/-- A call behind a `refresh` that failed. -/
def refreshFailed (e : Failure) : Next → Pc Tag
  | .folded => .done (.ok .updated)
  | _ => .done (.error (.failed e))

end Pc

/-! ## One operation of a call -/

variable [DecidableEq Tag]

/-- The loop of `update_ref` takes the pending packs for itself. -/
def takePending (t : Transport Tag) : Transport Tag × Pc Tag :=
  ({ t with pendingPacks := [] }, .attempt 0 t.pendingPacks)

/-- A call takes the answer to its operation. -/
def advance (t : Transport Tag) (op : Op) : Pc Tag → Objio.Res Tag → Transport Tag × Pc Tag
  | .putPack u, .created _ => (t, .putIdx u)
  | .putIdx u, .created _ =>
    let t := { t with pendingPacks := t.pendingPacks ++ [u.hash] }
    match op with
    | .putPack _ => (t, .done (.ok (.ids (u.objects.map (·.1)))))
    | _ => takePending t
  | .putPack u, _ | .putIdx u, _ =>
    match op with
    | .putPack _ => (t, .done (.error (.failed .bucket)))
    | _ => ({ t with staged := u.objects }, .done (.error (.failed .bucket)))
  | .refresh r next, res =>
    match r.turn t.view res with
    | .more r => (t, .refresh r next)
    | .done view => ({ t with view := view }, .refreshed view op next)
    | .failed e => (t, .refreshFailed e next)
  | .claim a seq, .created true => (t, .ensurePresent a seq a.entry.packs)
  | .claim a seq, .created false => (t, .claimAfter a seq)
  | .packPresent a seq hash rest, .found true => (t, .idxPresent a seq hash rest)
  | .packPresent _ _ hash _, .found false => (t, .done (.error (swept hash)))
  | .idxPresent a seq _ rest, .found true => (t, .ensurePresent a seq rest)
  | .idxPresent _ _ hash _, .found false => (t, .done (.error (swept hash)))
  | .commit _ _, .swapped (some _) => (t, .refresh .begin .committed)
  | .commit a _, .swapped none => (t, .attempt (a.n + 1) a.entry.packs)
  | .fold _ m tag, .created _ => (t, .foldCommit m tag)
  | .foldCommit _ _, .swapped (some _) => (t, .refresh .begin .folded)
  | .fold _ _ _, _ | .foldCommit _ _, _ => (t, .done (.ok .updated))
  | .done r, _ => (t, .done r)
  | _, _ => (t, .done (.error (.failed .bucket)))

section Codec

variable (z : Zstd) (hash : Bytes → Bytes)

/-- `upload_pack` of the objects; a pack that cannot be built is a failed call. -/
def upload (objects : List (ObjectId × Bytes)) : Except Failure Upload :=
  match buildPack z objects with
  | .error e => .error (.own (.error (.core e)))
  | .ok (pack, idx) => .ok ⟨hexEncode (hash pack), pack, idx, objects⟩

/-- A call is made. -/
def start (t : Transport Tag) : Op → Transport Tag × Pc Tag
  | .listRefs => (t, .refresh .begin .listed)
  | .putPack objects =>
    match upload z hash objects with
    | .error e => (t, .done (.error (.failed e)))
    | .ok u => (t, .putPack u)
  | .updateRef branch _ _ =>
    match Refs.validateBranchName branch with
    | .error e => (t, .done (.error (.failed (.own (.error e)))))
    | .ok () =>
      if t.staged = [] then takePending t
      else
        match upload z hash t.staged with
        | .error e => (t, .done (.error (.failed e)))
        | .ok u => ({ t with staged := [] }, .putPack u)

/-! ## Runs -/

open Linearizability (Event)

structure Call (Tag : Type) where
  id : Nat
  op : Op
  pc : Pc Tag

/-- The bucket, the clients and the call each of them is in. -/
structure Config (Tag : Type) where
  bucket : Path → Option Bytes
  clients : Nat → Transport Tag
  calls : Nat → Option (Call Tag)
  nextId : Nat

/-- What becomes of a bucket operation. -/
inductive Fate
  | answered
  | unanswered
  | lost
deriving DecidableEq, Repr

/-- The bucket takes operations one at a time, as a map. -/
def meets (tagOf : Bytes → Tag) (bucket : Path → Option Bytes) (op : Objio.Op Tag) :
    Fate → (Path → Option Bytes) × Objio.Res Tag
  | .answered => mapApply tagOf bucket op
  | .unanswered => ((mapApply tagOf bucket op).1, .failed)
  | .lost => (bucket, .failed)

/-- A client calls, stages an object, has one operation done, returns, or dies and is replaced. -/
inductive Move
  | invoke (pid : Nat) (op : Op)
  | stage (pid : Nat) (id : ObjectId) (bytes : Bytes)
  | step (pid : Nat) (fate : Fate)
  | respond (pid : Nat)
  | die (pid : Nat)

/-- The results a caller can build on; any other error leaves open what was done. -/
def observed (id : Nat) : Res → List (Event Op Res)
  | .ok reply => [.respond id (.ok reply)]
  | .error .nonFastForward => [.respond id (.error .nonFastForward)]
  | .error _ => []

variable (tagOf : Bytes → Tag)

/-- One move, with what is seen of it. -/
def act (c : Config Tag) : Move → Option (Config Tag × List (Event Op Res))
  | .invoke pid op =>
    match c.calls pid with
    | some _ => none
    | none =>
      let (t, pc) := start z hash (c.clients pid) op
      some (⟨c.bucket, Function.update c.clients pid t,
        Function.update c.calls pid (some ⟨c.nextId, op, pc⟩), c.nextId + 1⟩,
        [.invoke c.nextId op])
  | .stage pid id bytes =>
    match c.calls pid with
    | some _ => none
    | none =>
      if hash bytes = id.bytes then
        let t := c.clients pid
        let t := { t with staged := t.staged ++ [(id, bytes)] }
        some (⟨c.bucket, Function.update c.clients pid t, c.calls, c.nextId⟩, [])
      else none
  | .step pid fate =>
    match c.calls pid with
    | none => none
    | some ⟨id, op, pc⟩ =>
      (pc.op (c.clients pid).view).map (fun bop =>
        let (bucket, res) := meets tagOf c.bucket bop fate
        let (t, pc) := advance (c.clients pid) op pc res
        (⟨bucket, Function.update c.clients pid t,
          Function.update c.calls pid (some ⟨id, op, pc⟩), c.nextId⟩, []))
  | .respond pid =>
    match c.calls pid with
    | some ⟨id, _, .done r⟩ =>
      some (⟨c.bucket, c.clients, Function.update c.calls pid none, c.nextId⟩, observed id r)
    | _ => none
  | .die pid =>
    some (⟨c.bucket, Function.update c.clients pid .empty, Function.update c.calls pid none,
      c.nextId⟩, [])

/-- An empty bucket and clients that have done nothing. -/
def Config.initial : Config Tag := ⟨fun _ => none, fun _ => .empty, fun _ => none, 0⟩

/-- Moves one after the other, each allowed where it is made, and what is seen of them. -/
inductive Run (allowed : Config Tag → Move → Prop) (c₀ : Config Tag) :
    List (Event Op Res) → Config Tag → Prop
  | nil : Run allowed c₀ [] c₀
  | snoc {H ev : List (Event Op Res)} {c c' : Config Tag} {mv : Move} (h : Run allowed c₀ H c)
      (ok : allowed c mv) (hact : act z hash tagOf c mv = some (c', ev)) :
      Run allowed c₀ (H ++ ev) c'

end Codec

/-! ## What the refs are for -/

/-- A map of branches with a conditional move. -/
def apply (refs : BTreeMap String ObjectId) : Op → BTreeMap String ObjectId × Res
  | .listRefs => (refs, .ok (.refs refs.toList))
  | .putPack objects => (refs, .ok (.ids (objects.map (·.1))))
  | .updateRef branch id expectedOld =>
    if refs[branch]? = some id then (refs, .ok .updated)
    else if refs[branch]? ≠ expectedOld then (refs, .error .nonFastForward)
    else (refs.insert branch id, .ok .updated)

end SrcControl.BucketTransport
