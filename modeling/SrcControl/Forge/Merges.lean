import Mathlib.Logic.Function.Basic
import Mathlib.Logic.Relation
import Mathlib.Tactic.Common

/-!
# The merge journal

A pull request is merged by a row in the journal, a compare-and-swap of the base branch and a
database transaction, with the outcome of the swap asked of git in between. Whoever holds the
write gate of the repository takes these steps one at a time and may fail or crash after any of
them; git pushes are not gated, and a ref transaction outlives the request that started it.
-/

namespace SrcControl.Forge

variable {C : Type}

/-- One journal row; the numbers it carries for display are left out. -/
structure Intent (C : Type) where
  id : Nat
  pullNumber : Nat
  baseRef : String
  headRef : String
  baseOid : C
  headOid : C
  mergeOid : C
deriving DecidableEq

inductive IntentState
  | pending
  | done
  | aborted
deriving DecidableEq, Repr

structure Row (C : Type) where
  intent : Intent C
  state : IntentState
deriving DecidableEq

inductive PullState (C : Type)
  | opened
  | closed
  | merged (mergeCommit : C)
deriving DecidableEq

structure Pull (C : Type) where
  state : PullState C
  baseRef : String
  headRef : String
deriving DecidableEq

/-- What git has told the holder of the write gate. -/
inductive Belief (C : Type)
  | nothing
  | landed (i : Intent C)
  | absent (i : Intent C)

/-- A repository with its journal. `landed` says which markers `refs/forge/merge/<id>/landed`
exist, and `running` are the ref transactions started and not yet over. `tips` and `merges`
record what happened: every tip a branch has had, and the pull requests that were set merged. -/
structure Repo (C : Type) where
  branches : String → Option C
  landed : Nat → Bool
  rows : Nat → Option (Row C)
  pulls : Nat → Option (Pull C)
  running : List (Intent C)
  belief : Belief C
  tips : List (String × C)
  merges : List Nat

def Ancestor (parents : C → List C) : C → C → Prop :=
  Relation.ReflTransGen (fun a b => a ∈ parents b)

/-- The commit is part of the branch's history. -/
def InHistory (parents : C → List C) (s : Repo C) (branch : String) (c : C) : Prop :=
  ∃ tip, s.branches branch = some tip ∧ Ancestor parents c tip

/-- `is_landed`: the marker, or the base branch's history. -/
def isLanded (parents : C → List C) (s : Repo C) (i : Intent C) : Prop :=
  s.landed i.id = true ∨ InHistory parents s i.baseRef i.mergeOid

def setRow (s : Repo C) (i : Intent C) (state : IntentState) : Repo C :=
  { s with rows := Function.update s.rows i.id (some ⟨i, state⟩) }

/-- A branch moves to a tip, or is deleted. -/
def moveBranch (s : Repo C) (branch : String) (tip : Option C) : Repo C :=
  { s with
    branches := Function.update s.branches branch tip
    tips := tip.toList.map (fun c => (branch, c)) ++ s.tips }

def markLanded (s : Repo C) (i : Intent C) : Repo C :=
  { s with landed := Function.update s.landed i.id true }

/-- `finalize_rows`: the pull request becomes merged and the intent done, or neither. -/
def finalizeRows [DecidableEq C] (s : Repo C) (i : Intent C) : Option (Repo C) :=
  match s.pulls i.pullNumber with
  | none => none
  | some p =>
    if p.state = .opened ∧ p.baseRef = i.baseRef ∧ p.headRef = i.headRef then
      some (setRow { s with
        pulls := Function.update s.pulls i.pullNumber (some { p with state := .merged i.mergeOid })
        merges := i.pullNumber :: s.merges } i .done)
    else if p.state = .merged i.mergeOid then some (setRow s i .done)
    else none

def Pull.isMerged (p : Pull C) : Prop := ∃ c, p.state = .merged c

inductive Event (C : Type)
  | insert (i : Intent C)
  | retarget (i : Intent C)
  | publish (i : Intent C)
  | commit (i : Intent C) (seen : Bool)
  | killed (i : Intent C)
  | ask (i : Intent C)
  | mark (i : Intent C)
  | finalize (i : Intent C)
  | abort (i : Intent C)
  | leave
  | push (branch : String) (tip : Option C)
  | edit (number : Nat) (p : Pull C)
  | dropMarker (id : Nat)

/-- What can happen next. A step of the gate's holder needs what `attempt_loop` or
`recover_locked` have checked before it; `leave` is a request that ends, a crash or a restart.
A ref transaction commits while it runs, whether or not anyone is left to see its exit status. -/
inductive Step [DecidableEq C] (parents : C → List C) : Repo C → Event C → Repo C → Prop
  | insert {s : Repo C} {i : Intent C}
      (settled : ∀ id r, s.rows id = some r → r.state ≠ .pending) (fresh : s.rows i.id = none)
      (commit : parents i.mergeOid = [i.baseOid, i.headOid]) :
      Step parents s (.insert i) { setRow s i .pending with belief := .nothing }
  | retarget {s : Repo C} {i j : Intent C} (row : s.rows i.id = some ⟨i, .pending⟩)
      (told : s.belief = .absent i)
      (same : j.id = i.id ∧ j.pullNumber = i.pullNumber ∧ j.baseRef = i.baseRef ∧
        j.headRef = i.headRef)
      (commit : parents j.mergeOid = [j.baseOid, j.headOid]) :
      Step parents s (.retarget j) { setRow s j .pending with belief := .nothing }
  | publish {s : Repo C} {i : Intent C} (row : s.rows i.id = some ⟨i, .pending⟩)
      (told : s.belief = .nothing) :
      Step parents s (.publish i) { s with running := i :: s.running }
  | commit {s : Repo C} {i : Intent C} {seen : Bool} (running : i ∈ s.running)
      (head : s.branches i.headRef = some i.headOid) (base : s.branches i.baseRef = some i.baseOid)
      (waiting : seen = true → s.rows i.id = some ⟨i, .pending⟩ ∧ s.belief = .nothing) :
      Step parents s (.commit i seen)
        { moveBranch s i.baseRef (some i.mergeOid) with
          running := s.running.erase i
          belief := if seen then .landed i else s.belief }
  | killed {s : Repo C} {i : Intent C} :
      Step parents s (.killed i) { s with running := s.running.erase i }
  | askLanded {s : Repo C} {i : Intent C} (row : s.rows i.id = some ⟨i, .pending⟩)
      (answer : isLanded parents s i) : Step parents s (.ask i) { s with belief := .landed i }
  | askAbsent {s : Repo C} {i : Intent C} (row : s.rows i.id = some ⟨i, .pending⟩)
      (answer : ¬ isLanded parents s i) : Step parents s (.ask i) { s with belief := .absent i }
  | mark {s : Repo C} {i : Intent C} (told : s.belief = .landed i) :
      Step parents s (.mark i) (markLanded s i)
  | finalize {s s' : Repo C} {i : Intent C} (told : s.belief = .landed i)
      (rows : finalizeRows s i = some s') :
      Step parents s (.finalize i) { s' with belief := .nothing }
  | abort {s : Repo C} {i : Intent C} (told : s.belief = .absent i) :
      Step parents s (.abort i) { setRow s i .aborted with belief := .nothing }
  | leave {s : Repo C} : Step parents s .leave { s with belief := .nothing }
  | push {s : Repo C} {branch : String} {tip : Option C} :
      Step parents s (.push branch tip) (moveBranch s branch tip)
  | edit {s : Repo C} {number : Nat} {p : Pull C}
      (unmerged : ∀ q, s.pulls number = some q → ¬ q.isMerged) (result : ¬ p.isMerged) :
      Step parents s (.edit number p) { s with pulls := Function.update s.pulls number (some p) }
  | dropMarker {s : Repo C} {id : Nat} (stale : ∀ r, s.rows id = some r → r.state ≠ .pending) :
      Step parents s (.dropMarker id) { s with landed := Function.update s.landed id false }

/-- Before any merge. -/
structure Initial (s : Repo C) : Prop where
  rows : ∀ id, s.rows id = none
  landed : ∀ id, s.landed id = false
  belief : s.belief = .nothing
  merges : s.merges = []

/-- The states reached by steps that are all `ok`. -/
inductive Run [DecidableEq C] (parents : C → List C) (ok : Repo C → Event C → Prop) :
    Repo C → Prop
  | start {s : Repo C} (h : Initial s) : Run parents ok s
  | step {s s' : Repo C} {e : Event C} (h : Run parents ok s) (hok : ok s e)
      (hs : Step parents s e s') : Run parents ok s'

end SrcControl.Forge
