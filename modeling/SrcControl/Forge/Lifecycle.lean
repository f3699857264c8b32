import Mathlib.Data.List.Range
import Mathlib.Logic.Function.Basic
import Mathlib.Logic.Relation
import Mathlib.Tactic.Common
import SrcControl.Forge.RefPolicy

/-!
# Repository lifecycle

Creating and deleting a repository and changing its default branch alternate transactions of the
database with renames of directories. The process can stop between any two of these steps; the
startup pass then tells from the rows and the directories what was under way.
-/

namespace SrcControl.Lifecycle

open RefPolicy (branchRef)

variable {B : Type}

inductive RepoState
  | creating
  | live
  | deleting
deriving DecidableEq

/-- A row of `repos`; what it says of owner and name is unique. -/
structure Row where
  owner : Nat
  lowerName : String
  defaultBranch : String
  state : RepoState
deriving DecidableEq

/-- A bare repository: what `HEAD` names, and the rest. -/
structure Dir (B : Type) where
  head : String
  content : B
deriving DecidableEq

/-- The database and the data directory. `next` is the sequence of the ids, which are never used
again; `orphans id` are `<id>.git`, `<id>.git.1` and so on in `orphans/`. -/
structure Disk (B : Type) where
  rows : Nat → Option Row
  next : Nat
  repos : Nat → Option (Dir B)
  trash : Nat → Option (Dir B)
  orphans : Nat → List (Dir B)

/-- `git symbolic-ref HEAD`, and which branches a repository has. -/
structure Git (B : Type) where
  symbolicRef : Dir B → String → Option (Dir B)
  hasBranch : Dir B → String → Bool
  symbolicRef_some : ∀ dir full dir', symbolicRef dir full = some dir' →
    dir'.head = full ∧ dir'.content = dir.content

namespace Disk

def setRow (d : Disk B) (id : Nat) (row : Option Row) : Disk B :=
  { d with rows := Function.update d.rows id row }

def setDir (d : Disk B) (id : Nat) (dir : Option (Dir B)) : Disk B :=
  { d with repos := Function.update d.repos id dir }

def setTrash (d : Disk B) (id : Nat) (dir : Option (Dir B)) : Disk B :=
  { d with trash := Function.update d.trash id dir }

/-- `insert_creating`: the owner has no row of the name. -/
def NameFree (d : Disk B) (owner : Nat) (lowerName : String) : Prop :=
  ∀ id r, d.rows id = some r → ¬(r.owner = owner ∧ r.lowerName = lowerName)

def insertCreating (d : Disk B) (owner : Nat) (lowerName defaultBranch : String) : Disk B :=
  { d.setRow d.next (some ⟨owner, lowerName, defaultBranch, .creating⟩) with next := d.next + 1 }

/-- Only where the row is in `old`. -/
def setState (d : Disk B) (id : Nat) (old new : RepoState) : Option (Disk B) :=
  match d.rows id with
  | some r => if r.state = old then some (d.setRow id (some { r with state := new })) else none
  | none => none

/-- `update_live` of the default branch. -/
def updateLive (d : Disk B) (id : Nat) (branch : String) : Option (Disk B) :=
  match d.rows id with
  | some r =>
    if r.state = .live then some (d.setRow id (some { r with defaultBranch := branch })) else none
  | none => none

def listInState (d : Disk B) (state : RepoState) : List Nat :=
  (List.range d.next).filter (fun id => (d.rows id).any (fun r => r.state = state))

/-- `rename` from `repos/` to `trash/`. -/
def toTrash (d : Disk B) (id : Nat) (dir : Dir B) : Disk B :=
  (d.setDir id none).setTrash id (some dir)

/-- The first name that `orphans/` does not have. -/
def toOrphans (d : Disk B) (id : Nat) (dir : Dir B) : Disk B :=
  { d.setDir id none with orphans := Function.update d.orphans id (d.orphans id ++ [dir]) }

end Disk

/-- How far `create` has come. -/
inductive BuildStage
  | inserted
  | initialized
  | rollingBack
deriving DecidableEq

inductive DeleteStage
  | marked
  | renamed
  | rowDeleted
deriving DecidableEq

/-- How far `reconcile` has come, with what its loop has still before it. -/
inductive Phase
  | creating (todo : List Nat)
  | deleting (todo : List Nat)
  | emptying (id : Nat) (todo : List Nat)
  | trash (todo : List Nat)
  | repos (todo : List Nat)
  | live (todo : List Nat)

/-- What the process does. -/
inductive Proc
  | down
  | serving
  | create (id : Nat) (stage : BuildStage)
  | delete (id : Nat) (stage : DeleteStage)
  | setDefault (id : Nat) (branch : String)
  | reconcile (phase : Phase)

/-- An operation is under way. -/
def Proc.Busy : Proc → Prop
  | .create _ _ => True
  | .delete _ _ => True
  | .setDefault _ _ => True
  | _ => False

structure Sys (B : Type) where
  disk : Disk B
  proc : Proc

inductive Event
  | crash
  | start
  | giveUp
  | create (id : Nat)
  | mark (id : Nat)
  | delete (id : Nat)
  | setDefault (id : Nat)
  | reconcile

/-- `reconcile`, one change of the disk at a time. A failure that stops it is a crash. -/
inductive Reconcile (git : Git B) : Disk B → Phase → Disk B → Phase → Prop
  | orphanCreating {d : Disk B} {id : Nat} {todo : List Nat} {dir : Dir B}
      (there : d.repos id = some dir) :
      Reconcile git d (.creating (id :: todo)) (d.toOrphans id dir) (.creating (id :: todo))
  | rollBack {d : Disk B} {id : Nat} {todo : List Nat} (gone : d.repos id = none) :
      Reconcile git d (.creating (id :: todo)) (d.setRow id none) (.creating todo)
  | creatingDone {d : Disk B} :
      Reconcile git d (.creating []) d (.deleting (d.listInState .deleting))
  | clearTrash {d : Disk B} {id : Nat} {todo : List Nat} {dir old : Dir B}
      (there : d.repos id = some dir) (occupied : d.trash id = some old) :
      Reconcile git d (.deleting (id :: todo)) (d.setTrash id none) (.deleting (id :: todo))
  | rename {d : Disk B} {id : Nat} {todo : List Nat} {dir : Dir B}
      (there : d.repos id = some dir) (free : d.trash id = none) :
      Reconcile git d (.deleting (id :: todo)) (d.toTrash id dir) (.deleting (id :: todo))
  | finishDelete {d : Disk B} {id : Nat} {todo : List Nat} (gone : d.repos id = none) :
      Reconcile git d (.deleting (id :: todo)) (d.setRow id none) (.emptying id todo)
  | emptied {d : Disk B} {id : Nat} {todo : List Nat} :
      Reconcile git d (.emptying id todo) (d.setTrash id none) (.deleting todo)
  | notEmptied {d : Disk B} {id : Nat} {todo : List Nat} :
      Reconcile git d (.emptying id todo) d (.deleting todo)
  | deletingDone {d : Disk B} {entries : List Nat}
      (listed : ∀ id, id ∈ entries ↔ (d.trash id).isSome) :
      Reconcile git d (.deleting []) d (.trash entries)
  | trashKnown {d : Disk B} {id : Nat} {todo : List Nat} (known : (d.rows id).isSome) :
      Reconcile git d (.trash (id :: todo)) d (.trash todo)
  | trashRemoved {d : Disk B} {id : Nat} {todo : List Nat} (unknown : d.rows id = none) :
      Reconcile git d (.trash (id :: todo)) (d.setTrash id none) (.trash todo)
  | trashDone {d : Disk B} {entries : List Nat}
      (listed : ∀ id, id ∈ entries ↔ (d.repos id).isSome) :
      Reconcile git d (.trash []) d (.repos entries)
  | repoKnown {d : Disk B} {id : Nat} {todo : List Nat} (known : (d.rows id).isSome) :
      Reconcile git d (.repos (id :: todo)) d (.repos todo)
  | orphan {d : Disk B} {id : Nat} {todo : List Nat} {dir : Dir B} (unknown : d.rows id = none)
      (there : d.repos id = some dir) :
      Reconcile git d (.repos (id :: todo)) (d.toOrphans id dir) (.repos todo)
  | reposDone {d : Disk B} :
      Reconcile git d (.repos []) d (.live (d.listInState .live))
  | missingDir {d : Disk B} {id : Nat} {todo : List Nat} (gone : d.repos id = none) :
      Reconcile git d (.live (id :: todo)) d (.live todo)
  | headRight {d : Disk B} {id : Nat} {todo : List Nat} {r : Row} {dir : Dir B}
      (row : d.rows id = some r) (there : d.repos id = some dir)
      (right : dir.head = branchRef r.defaultBranch) :
      Reconcile git d (.live (id :: todo)) d (.live todo)
  | headRepaired {d : Disk B} {id : Nat} {todo : List Nat} {r : Row} {dir dir' : Dir B}
      (row : d.rows id = some r) (there : d.repos id = some dir)
      (wrong : dir.head ≠ branchRef r.defaultBranch)
      (ran : git.symbolicRef dir (branchRef r.defaultBranch) = some dir') :
      Reconcile git d (.live (id :: todo)) (d.setDir id (some dir')) (.live todo)
  | headFailed {d : Disk B} {id : Nat} {todo : List Nat} {r : Row} {dir : Dir B}
      (row : d.rows id = some r) (there : d.repos id = some dir)
      (wrong : dir.head ≠ branchRef r.defaultBranch)
      (failed : git.symbolicRef dir (branchRef r.defaultBranch) = none) :
      Reconcile git d (.live (id :: todo)) d (.live todo)

/-- What can happen next. An operation runs alone; it can stop with the process, and it can fail
after any of its steps and leave the rest undone. -/
inductive Step (git : Git B) : Sys B → Event → Sys B → Prop
  | crash {s : Sys B} : Step git s .crash { s with proc := .down }
  | start {d : Disk B} :
      Step git ⟨d, .down⟩ .start ⟨d, .reconcile (.creating (d.listInState .creating))⟩
  | reconcile {d d' : Disk B} {p p' : Phase} (h : Reconcile git d p d' p') :
      Step git ⟨d, .reconcile p⟩ .reconcile ⟨d', .reconcile p'⟩
  | reconciled {d : Disk B} : Step git ⟨d, .reconcile (.live [])⟩ .reconcile ⟨d, .serving⟩
  | giveUp {d : Disk B} {proc : Proc} (busy : proc.Busy) :
      Step git ⟨d, proc⟩ .giveUp ⟨d, .serving⟩
  | insert {d : Disk B} {owner : Nat} {lowerName defaultBranch : String}
      (free : d.NameFree owner lowerName) :
      Step git ⟨d, .serving⟩ (.create d.next)
        ⟨d.insertCreating owner lowerName defaultBranch, .create d.next .inserted⟩
  | initPart {d : Disk B} {id : Nat} {dir : Option (Dir B)} :
      Step git ⟨d, .create id .inserted⟩ (.create id) ⟨d.setDir id dir, .create id .inserted⟩
  | init {d : Disk B} {id : Nat} {r : Row} {content : B} (row : d.rows id = some r) :
      Step git ⟨d, .create id .inserted⟩ (.create id)
        ⟨d.setDir id (some ⟨branchRef r.defaultBranch, content⟩), .create id .initialized⟩
  | commit {d : Disk B} {id : Nat} {dir : Dir B} {content : B} (there : d.repos id = some dir) :
      Step git ⟨d, .create id .initialized⟩ (.create id)
        ⟨d.setDir id (some { dir with content := content }), .create id .initialized⟩
  | publish {d d' : Disk B} {id : Nat} (row : d.setState id .creating .live = some d') :
      Step git ⟨d, .create id .initialized⟩ (.create id) ⟨d', .serving⟩
  | removeDir {d : Disk B} {id : Nat} {stage : BuildStage} (building : stage ≠ .rollingBack) :
      Step git ⟨d, .create id stage⟩ (.create id) ⟨d.setDir id none, .create id .rollingBack⟩
  | removeFailed {d : Disk B} {id : Nat} {stage : BuildStage} {left : Option (Dir B)}
      (building : stage ≠ .rollingBack) :
      Step git ⟨d, .create id stage⟩ (.create id) ⟨d.setDir id left, .serving⟩
  | removeRow {d : Disk B} {id : Nat} :
      Step git ⟨d, .create id .rollingBack⟩ (.create id) ⟨d.setRow id none, .serving⟩
  | mark {d d' : Disk B} {id : Nat} (row : d.setState id .live .deleting = some d') :
      Step git ⟨d, .serving⟩ (.mark id) ⟨d', .delete id .marked⟩
  | unmark {d d' : Disk B} {id : Nat} (row : d.setState id .deleting .live = some d') :
      Step git ⟨d, .delete id .marked⟩ (.delete id) ⟨d', .serving⟩
  | rename {d : Disk B} {id : Nat} {dir : Dir B} (there : d.repos id = some dir)
      (free : d.trash id = none) :
      Step git ⟨d, .delete id .marked⟩ (.delete id) ⟨d.toTrash id dir, .delete id .renamed⟩
  | deleteRow {d : Disk B} {id : Nat} :
      Step git ⟨d, .delete id .renamed⟩ (.delete id) ⟨d.setRow id none, .delete id .rowDeleted⟩
  | removeTrash {d : Disk B} {id : Nat} :
      Step git ⟨d, .delete id .rowDeleted⟩ (.delete id) ⟨d.setTrash id none, .serving⟩
  | writeHead {d : Disk B} {id : Nat} {r : Row} {dir dir' : Dir B} {branch : String}
      (row : d.rows id = some r) (live : r.state = .live) (other : r.defaultBranch ≠ branch)
      (there : d.repos id = some dir) (present : git.hasBranch dir (branchRef branch) = true)
      (ran : git.symbolicRef dir (branchRef branch) = some dir') :
      Step git ⟨d, .serving⟩ (.setDefault id) ⟨d.setDir id (some dir'), .setDefault id branch⟩
  | recordDefault {d d' : Disk B} {id : Nat} {branch : String}
      (row : d.updateLive id branch = some d') :
      Step git ⟨d, .setDefault id branch⟩ (.setDefault id) ⟨d', .serving⟩

/-- An empty data directory. -/
def Disk.empty : Disk B := ⟨fun _ => none, 1, fun _ => none, fun _ => none, fun _ => []⟩

/-- Steps that are all `ok`. -/
inductive Steps (git : Git B) (ok : Event → Prop) : Sys B → Sys B → Prop
  | refl {s : Sys B} : Steps git ok s s
  | tail {s s' s'' : Sys B} {e : Event} (run : Steps git ok s s') (hok : ok e)
      (step : Step git s' e s'') : Steps git ok s s''

/-- What can happen to a data directory that was empty at first. -/
def Reachable (git : Git B) (s : Sys B) : Prop :=
  Steps git (fun _ => True) ⟨.empty, .down⟩ s

/-- The events without a request. -/
def Quiet : Event → Prop
  | .crash => True
  | .start => True
  | .reconcile => True
  | _ => False

end SrcControl.Lifecycle
