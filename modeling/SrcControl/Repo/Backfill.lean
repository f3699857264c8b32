import SrcControl.Repo.Materialize
import SrcControl.Repo.OpLog

/-!
# Filling a partial clone

`backfill_all` fetches what the origin sends for its tips, walks the origin's tips and the
local branches, and then unlinks the promisor marker. Beside it stand the roots that `gc`
collects for the same repository.
-/

namespace SrcControl

namespace OpLog

/-- `referenced_ids`. -/
def referencedIds (log : List OpRecord) : List ObjectId :=
  log.flatMap (fun r => r.refs.flatMap (fun (_, before, after) => before.toList ++ after.toList))

end OpLog

/-- What `roots` reads of a stopped rebase. -/
structure RebaseState where
  accTip : ObjectId
deriving DecidableEq, Repr

structure PendingWs where
  candidate : ObjectId
  result : ObjectId
deriving DecidableEq, Repr

structure PendingRefresh where
  target : ObjectId
  workspaces : List PendingWs
deriving DecidableEq, Repr

/-- What `roots` reads of a workspace session. -/
structure Session where
  baseSnapshot : ObjectId
  pendingRefresh : Option PendingRefresh
deriving DecidableEq, Repr

/-- A repository with the state files that name snapshots, and the files of the promisor
marker: the marker itself, its blob limit and the lazy flag. -/
structure PartialClone where
  store : Store
  refs : Refs
  promisor : Option Promisor
  blobLimitFile : Bool
  lazy : Bool
  mergeHead : Option ObjectId
  pickHead : Option ObjectId
  rebase : Option RebaseState
  sessions : List Session
  log : List OpRecord

def PendingRefresh.ids (p : PendingRefresh) : List ObjectId :=
  p.target :: p.workspaces.flatMap (fun w => [w.candidate, w.result])

def Session.ids (s : Session) : List ObjectId :=
  s.baseSnapshot :: s.pendingRefresh.toList.flatMap PendingRefresh.ids

namespace PartialClone

/-- `gc::roots`. -/
def roots (c : PartialClone) : Except Error (List ObjectId) := do
  let heads := c.refs.listHeads.map (·.2)
  let head ← c.refs.headTip
  let remotes := c.refs.listRemoteTips.map (·.2)
  let stopped := c.mergeHead.toList ++ c.pickHead.toList ++ c.rebase.toList.map (·.accTip)
  let sessions := c.sessions.flatMap Session.ids
  pure (Reachable.markAll (heads ++ head.toList ++ remotes ++ stopped ++ sessions ++
    OpLog.referencedIds c.log) ∅).toList

end PartialClone

namespace Backfill

open Reachable Transport

abbrev BackfillM := EStateM Error PartialClone

/-- The files that `promisor::remove` unlinks, in its order. -/
inductive MarkerFile
  | promisor
  | blobLimit
  | lazy
deriving DecidableEq, Repr

def orThrow {α : Type} : Except Error α → BackfillM α
  | .ok a => pure a
  | .error e => throw e

/-- A file that is not there counts as removed. -/
def removeFileIfExists (unlink : Except Error Unit) (present : PartialClone → Bool)
    (gone : PartialClone → PartialClone) : BackfillM Unit := do
  if present (← get) then
    orThrow unlink
    modify gone

/-- `promisor::remove`: the marker first. -/
def remove (unlink : MarkerFile → Except Error Unit) : BackfillM Unit := do
  removeFileIfExists (unlink .promisor) (fun c => c.promisor.isSome)
    (fun c => { c with promisor := none })
  removeFileIfExists (unlink .blobLimit) (fun c => c.blobLimitFile)
    (fun c => { c with blobLimitFile := false })
  removeFileIfExists (unlink .lazy) (fun c => c.lazy) (fun c => { c with lazy := false })

/-- What the origin sends for wants and haves, without a filter. -/
abbrev GetPack := List ObjectId → List ObjectId → Except Error (List Record)

def transferObjects (idOf : Object → ObjectId) (getPack : GetPack) (s : Store)
    (tips haves : List ObjectId) : Except Error Store := do
  ingestPack idOf false s (← getPack tips haves)

/-- The tips under `refs/remotes/origin`. -/
def originTips (r : Refs) : List ObjectId :=
  (r.listRemoteTips.filter (fun h => (Refs.components h.1).head? = some "origin")).map (·.2)

/-- The tips that `backfill_all` walks before it unlinks the marker. -/
def verifyTips (r : Refs) : List ObjectId := originTips r ++ r.listHeads.map (·.2)

def backfillAll (fuel : Nat) (idOf : Object → ObjectId)
    (openTransport : String → Except Error GetPack) (unlink : MarkerFile → Except Error Unit) :
    BackfillM Unit := do
  let c ← get
  match c.promisor with
  | none =>
    throw (.invalidArgument "not a partial clone (.sc/promisor absent); nothing to backfill")
  | some promisor =>
    let getPack ← orThrow (openTransport promisor.origin)
    let tips := originTips c.refs
    if tips.isEmpty then
      throw (.invalidArgument
        "no refs/remotes/origin/* tracking refs recorded; run `sc fetch origin` first")
    else
      let store ← orThrow (transferObjects idOf getPack c.store tips [])
      set { c with store := store }
      let _ ← orThrow (reachableObjects fuel store (verifyTips c.refs))
      remove unlink

end Backfill

end SrcControl
