import SrcControl.Repo.Backfill
import SrcControl.Repo.ReachablePartial
import SrcControl.Repo.Transcripts
import SrcControl.Core.ObjectsDir

/-!
# Garbage collection

A pass of `gc` trims the operation log, marks what the roots reach with the transcripts and
signatures of it, writes one pack of the marked objects, takes away their loose copies and the
loose copies of unmarked objects past the grace window, and then the other packs.
-/

namespace SrcControl.Gc

open Reachable CrashTrace ObjectsDir
open Transcripts (DropEntry)

structure GcStats where
  packed : Nat
  loosePruned : Nat
  looseKept : Nat
  packsRemoved : Nat
  signaturesPruned : Nat
  transcriptsPruned : Nat
deriving DecidableEq, Repr

/-- What a pass reads of a repository beside its objects: the roots are those of `PartialClone`,
whose own store is not read. -/
structure GcRepo where
  clone : PartialClone
  mergeDecidedRoot : Option ObjectId
  pickDecidedRoot : Option ObjectId
  rebaseDecidedRoot : Option ObjectId
  transcripts : List (ObjectId × ObjectId)
  drops : List DropEntry
  pending : List ObjectId
  signatures : List Signatures.Entry

/-! ## Marking -/

/-- `walk_decided_root`. -/
def walkDecidedRoot (fuel : Nat) (s : Store) (isPartial : Bool) (tree : ObjectId)
    (reachable : BTreeSet ObjectId) : Except Error (BTreeSet ObjectId) :=
  if isPartial then (walkTreePartial s fuel tree tree reachable ∅).map (·.1)
  else walkTree s fuel tree reachable

/-- The decided roots that count: that of a merge or a pick only beside its HEAD. -/
def GcRepo.decidedRoots (r : GcRepo) : List ObjectId :=
  (if r.clone.mergeHead.isSome then r.mergeDecidedRoot.toList else []) ++
    ((if r.clone.pickHead.isSome then r.pickDecidedRoot.toList else []) ++
      r.rebaseDecidedRoot.toList)

/-- The walk from the roots, then from each decided root. -/
def walkRoots (fuel : Nat) (s : Store) (isPartial : Bool) (roots decided : List ObjectId) :
    Except Error (BTreeSet ObjectId) := do
  let reachable ← if isPartial then (reachableObjectsPartial fuel s roots).map (·.present)
    else reachableObjects fuel s roots
  decided.foldlM (fun seen tree => walkDecidedRoot fuel s isPartial tree seen) reachable

/-- An index of what is attached to marked objects: a kept entry marks what it attaches, for the
entries after it. -/
def pruneIndex {E : Type} (target attached : E → ObjectId) (skip : E → Bool) (entries : List E)
    (reachable : BTreeSet ObjectId) : BTreeSet ObjectId × List E :=
  entries.foldl (fun acc e =>
    if skip e then acc
    else if acc.1.contains (target e) then (acc.1.insert (attached e), acc.2 ++ [e])
    else acc) (reachable, [])

/-- `transcripts::gc_prune`: tombstones and held-back transcripts are marked whatever they hang
on, dropped transcripts never. -/
def pruneTranscripts (r : GcRepo) (reachable : BTreeSet ObjectId) :
    BTreeSet ObjectId × List (ObjectId × ObjectId) :=
  pruneIndex Prod.fst Prod.snd (fun e => (r.drops.map (·.dropped)).contains e.2) r.transcripts
    (markAll (r.drops.map (·.tomb) ++ r.pending) reachable)

/-- `signatures::gc_prune`. -/
def pruneSignatures (r : GcRepo) (reachable : BTreeSet ObjectId) :
    BTreeSet ObjectId × List Signatures.Entry :=
  pruneIndex (·.target) (·.sig) (fun _ => false) r.signatures reachable

/-- The log is trimmed before its records count as roots. -/
def GcRepo.trim (cutoff : Int) (r : GcRepo) : GcRepo :=
  { r with clone := { r.clone with log := OpLog.trimOlderThan cutoff r.clone.log } }

/-- What is marked, and the repository with its log and indexes rewritten. -/
def mark (fuel : Nat) (cutoff : Int) (r : GcRepo) (s : Store) :
    Except Error (BTreeSet ObjectId × GcRepo) := do
  let r := r.trim cutoff
  let roots ← r.clone.roots
  let reachable ← walkRoots fuel s r.clone.promisor.isSome roots r.decidedRoots
  let transcripts := pruneTranscripts r reachable
  let signatures := pruneSignatures r transcripts.1
  .ok (signatures.1, { r with transcripts := transcripts.2, signatures := signatures.2 })

/-! ## Packing and sweeping -/

section

variable (env : Env)

/-- `now.duration_since(mtime)` fails for a file from the future. -/
def oldEnough (now grace mtime : Nat) : Bool := mtime ≤ now && grace ≤ now - mtime

/-- One loose file of the listing. -/
def sweepOne (now grace : Nat) (reachable : BTreeSet ObjectId) (stats : GcStats) (id : ObjectId) :
    DirM GcStats :=
  if reachable.contains id then do
    delete env id
    pure stats
  else do
    let mtime ← looseMtime env id
    if mtime.any (oldEnough now grace) then do
      delete env id
      pure { stats with loosePruned := stats.loosePruned + 1 }
    else pure { stats with looseKept := stats.looseKept + 1 }

def dropOne (keep : String) (stats : GcStats) (stem : String) : DirM GcStats :=
  if stem = keep then pure stats
  else do
    deletePack env stem
    pure { stats with packsRemoved := stats.packsRemoved + 1 }

/-- The new pack, unless nothing is marked. -/
def packMarked (reachable : BTreeSet ObjectId) : DirM (Option String) :=
  if reachable.isEmpty then pure none else some <$> writePack env reachable.toList

/-- A pass from its marked objects on. -/
def collect (now grace : Nat) (reachable : BTreeSet ObjectId) (stats : GcStats) :
    DirM GcStats := do
  let keep ← packMarked env reachable
  let packed := if keep.isSome then reachable.size else 0
  let listed ← listLoose env
  let swept ← listed.foldlM (sweepOne env now grace reachable) { stats with packed := packed }
  match keep with
  | none => pure swept
  | some keep => do
    let s ← MonadState.get
    (packHashes s.handle).foldlM (dropOne env keep) swept

/-- `gc::run`, once an older signature index is imported. The cutoff is of the log's clock. -/
def run (fuel now grace : Nat) (cutoff : Int) (r : GcRepo) : DirM (GcStats × GcRepo) := do
  let s ← MonadState.get
  let marked ← orThrow ((mark fuel cutoff r (view env s.disk s.handle)).mapError .error)
  let stats ← collect env now grace marked.1
    { packed := 0, loosePruned := 0, looseKept := 0, packsRemoved := 0,
      signaturesPruned := r.signatures.length - marked.2.signatures.length,
      transcriptsPruned := r.transcripts.length - marked.2.transcripts.length }
  pure (stats, marked.2)

end

end SrcControl.Gc
