import SrcControl.Repo.Transport

/-!
# Operation log

Every local operation moves its refs first and then appends one record of what it
moved. `undo` restores the before-values of the last record and appends its inverse.
Pushes received through `update_ref`, and operations cut between the two, move refs
without a record.
-/

namespace SrcControl

structure OpRecord where
  seq : Nat
  ts : Int
  desc : String
  headBefore : String
  headAfter : String
  refs : List (String × Option ObjectId × Option ObjectId)
deriving DecidableEq

/-- The repository with its log. `written` counts the ref writes done so far, so that an
error can be said to come before the first one. -/
structure Logged where
  repo : Repository
  log : List OpRecord
  written : Nat

namespace OpLog

abbrev OpM := EStateM Error Logged

def liftExcept {α : Type} : Except Error α → OpM α
  | .ok a => pure a
  | .error e => throw e

/-- Replace the refs and count the write. -/
def setRefs (st : Logged) (refs : Refs) : Logged :=
  { st with repo := { st.repo with refs := refs }, written := st.written + 1 }

/-- One ref write, refused before it is done or counted. -/
def editRefs (f : Refs → Except Error Refs) : OpM Unit := fun st =>
  match f st.repo.refs with
  | .ok refs => .ok () (setRefs st refs)
  | .error e => .error e st

def writeBranchTip (branch : String) (id : ObjectId) : OpM Unit :=
  editRefs (fun r => r.writeBranchTip branch id)

def writeHead (branch : String) : OpM Unit := editRefs (fun r => r.writeHead branch)

/-- `remove_file(ref_path(name))`; an absent file is fine, and nothing is written. -/
def removeRef (branch : String) : OpM Unit := fun st =>
  if st.repo.refs.heads.contains branch then
    .ok () (setRefs st { st.repo.refs with heads := st.repo.refs.heads.erase branch })
  else .ok () st

/-- `desc` stays one line. -/
def oneLine (desc : String) : String :=
  String.ofList (desc.toList.map (fun c => if c = '\n' ∨ c = '\r' then ' ' else c))

def unparseable (name : String) : Bool :=
  name.toList.any (fun c => Refs.isWhitespace c || Refs.isControl c)

/-- `record`: one block past the last well-formed one. -/
def record (now : Int) (desc headBefore headAfter : String)
    (refs : List (String × Option ObjectId × Option ObjectId)) : OpM Unit := do
  match refs.find? (fun r => unparseable r.1) with
  | some r =>
    throw (.invalidArgument ("ref name " ++ r.1 ++
      " contains whitespace/control characters; would corrupt the oplog grammar"))
  | none =>
    modify (fun st => { st with log := st.log ++
      [⟨(st.log.getLast?.map (·.seq + 1)).getD 1, now, oneLine desc, headBefore, headAfter, refs⟩] })

/-- `trim_older_than`: the newest record is always kept. -/
def trimOlderThan (cutoff : Int) (log : List OpRecord) : List OpRecord :=
  match log.getLast? with
  | none => []
  | some newest => log.filter (fun r => cutoff ≤ r.ts || r.seq = newest.seq)

/-- What `undo` asks of the working tree, any answer being possible. -/
structure Worktree where
  now : Int
  dirty : Logged → Except Error Bool
  prepare : Logged → Option ObjectId → Snapshot → Except Error Unit
  materialize : Logged → Option ObjectId → Snapshot → Except Error (List String)

structure UndoOutcome where
  desc : String
  skipped : List String
deriving DecidableEq, Repr

def tipIsManifest (s : Store) : Option ObjectId → Except Error Bool
  | none => .ok false
  | some id => do
    match ← s.get id with
    | .manifest _ => .ok true
    | _ => .ok false

/-- `head_root`. -/
def headRoot (r : Repository) : Except Error (Option ObjectId) := do
  match ← r.refs.headTip with
  | none => .ok none
  | some tip => do pure (some (← r.store.getSnapshot tip).root)

/-- Whether the record moves the tip of the restored branch, and to what. -/
def restoredTip (r : Repository) (rec : OpRecord) : Except Error (Bool × Option ObjectId) :=
  match rec.refs.find? (fun e => e.1 = rec.headBefore) with
  | some (_, before, after) => .ok (before ≠ after, before)
  | none => do pure (false, ← r.refs.readBranchTip rec.headBefore)

def anyManifest (s : Store) (cur willBe : Option ObjectId) : Except Error Bool := do
  if ← tipIsManifest s cur then pure true else tipIsManifest s willBe

/-- The refusals of `undo` and the tree it will lay out, read before any ref moves. -/
def undoPlan (wt : Worktree) (st : Logged) (rec : OpRecord) :
    Except Error (Option (Option ObjectId × Snapshot)) := do
  let (moves, willBe) ← restoredTip st.repo rec
  let cur ← st.repo.refs.headTip
  let manifest ← anyManifest st.repo.store cur willBe
  if (rec.headBefore ≠ rec.headAfter ∨ moves = true) ∧ manifest = false then
    match willBe with
    | none =>
      .error (.invalidArgument "cannot undo the initial commit (would unbear the branch)")
    | some target => do
      if ← wt.dirty st then
        .error (.invalidArgument "working tree has uncommitted changes; commit before undo")
      else do
        let oldRoot ← headRoot st.repo
        let snap ← st.repo.store.getSnapshot target
        wt.prepare st oldRoot snap
        pure (some (oldRoot, snap))
  else pure none

def restoreRef (name : String) : Option ObjectId → OpM Unit
  | some id => writeBranchTip name id
  | none => removeRef name

/-- Put each branch of the record back to its before-value. -/
def restoreRefs : List (String × Option ObjectId × Option ObjectId) → OpM Unit
  | [] => pure ()
  | (name, before, _) :: rest => do
    restoreRef name before
    restoreRefs rest

def moveHead (current target : String) : OpM Unit :=
  if current = target then pure () else writeHead target

def restoreHead (rec : OpRecord) : OpM Unit := moveHead rec.headAfter rec.headBefore

def layOut (wt : Worktree) : Option (Option ObjectId × Snapshot) → OpM (List String)
  | none => pure []
  | some (oldRoot, snap) => do liftExcept (wt.materialize (← get) oldRoot snap)

def inverse (refs : List (String × Option ObjectId × Option ObjectId)) :
    List (String × Option ObjectId × Option ObjectId) :=
  refs.map (fun (name, before, after) => (name, after, before))

/-- The record `undo` will undo, and what it plans to do about the working tree. -/
def undoStart (wt : Worktree) : OpM (OpRecord × Option (Option ObjectId × Snapshot)) := do
  let st ← get
  match st.log.getLast? with
  | none => throw .nothingToUndo
  | some rec =>
    match Transport.stoppedError st.repo.stopped with
    | some e => throw e
    | none => do pure (rec, ← liftExcept (undoPlan wt st rec))

/-- `Repo::undo`. -/
def undo (wt : Worktree) : OpM UndoOutcome := do
  let (rec, plan) ← undoStart wt
  restoreRefs rec.refs
  restoreHead rec
  let skipped ← layOut wt plan
  record wt.now ("undo of op " ++ toString rec.seq ++ ": " ++ rec.desc) rec.headAfter rec.headBefore
    (inverse rec.refs)
  pure ⟨rec.desc, skipped⟩

/-- Move the refs of one operation. -/
def moveRefs : List (String × ObjectId) → OpM Unit
  | [] => pure ()
  | (branch, id) :: rest => do
    writeBranchTip branch id
    moveRefs rest

/-- A local operation: its refs move, then `HEAD`, then it is logged with the values it
read at its start (`commit`, `merge`, `branch`, `switch`, ...). -/
def operate (now : Int) (desc : String) (moves : List (String × ObjectId)) (newHead : String) :
    OpM Unit := do
  let st ← get
  moveRefs moves
  moveHead st.repo.refs.head newHead
  record now desc st.repo.refs.head newHead
    (moves.map (fun m => (m.1, st.repo.refs.heads[m.1]?, some m.2)))

end OpLog

end SrcControl
