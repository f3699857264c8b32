import Mathlib.Data.List.Range
import SrcControl.Forge.Merges

/-!
# Keeping what a pull request names

A pull request names commits that its branches may leave behind. Refs under `refs/forge/pull` hold
them: synchronization moves these with the branches, the repair of a repository restores them from
the rows, and maintenance prunes only after it has checked them.
-/

namespace SrcControl.Retention

open Forge (Intent Ancestor)

variable {C : Type}

inductive PullState
  | opened
  | closed
  | merged
deriving DecidableEq

structure Pull (C : Type) where
  headRef : String
  baseRef : String
  baseSha : C
  headSha : C
  state : PullState
  finalHead : Option C
  mergeCommit : Option C
  headGone : Bool
deriving DecidableEq

/-- A repository: its branches, the refs `refs/forge/pull/<n>/head`, `/base` and `/merge` and
`refs/forge/merge/<id>/landed`, the rows of the pull requests with their numbers below `numbers`,
the pending rows of the merge journal, and the commits that exist. -/
structure Repo (C : Type) where
  branches : String → Option C
  heads : Nat → Option C
  bases : Nat → Option C
  merges : Nat → Option C
  landed : Nat → Option C
  pulls : Nat → Option (Pull C)
  numbers : Nat
  pending : Nat → Option (Intent C)
  objects : C → Bool

namespace Repo

def retain (s : Repo C) (n : Nat) (oid : C) : Repo C :=
  { s with heads := Function.update s.heads n (some oid) }

/-- Only where the ref still holds `expected`. -/
def retainCas [DecidableEq C] (s : Repo C) (n : Nat) (oid : C) (expected : Option C) :
    Repo C :=
  if s.heads n = expected then s.retain n oid else s

def save (s : Repo C) (n : Nat) (p : Pull C) : Repo C :=
  { s with pulls := Function.update s.pulls n (some p) }

def setBranch (s : Repo C) (b : String) (tip : Option C) : Repo C :=
  { s with branches := Function.update s.branches b tip }

def openPulls (s : Repo C) : List Nat :=
  (List.range s.numbers).filter (fun n => (s.pulls n).any (fun p => p.state = .opened))

end Repo

/-- `sync_one`, with the retention refs and the tips that `sync_locked` has read. -/
def syncOne [DecidableEq C] (kept : Nat → Option C) (tips : String → Option C) (s : Repo C)
    (n : Nat) (p : Pull C) : Repo C :=
  match tips p.headRef with
  | some t =>
    let s := if kept n = some t then s else s.retainCas n t (kept n)
    if p.headSha ≠ t ∨ p.headGone = true then
      s.save n { p with headSha := t, headGone := false }
    else s
  | none =>
    if p.headGone = true then s
    else
      let head := (s.heads n).getD p.headSha
      (s.retain n head).save n
        { p with headSha := head, finalHead := some head, state := .closed }

/-- The retention ref that `reconcile_repo` leaves for a row, which may be missing. -/
def repairedHead (row : Option (Pull C)) (kept : Option C) : Option C :=
  match row with
  | none => none
  | some p =>
    if p.state = .opened then if p.headGone = true then some p.headSha else kept
    else p.finalHead.or kept

def repairedMerge (row : Option (Pull C)) (kept : Option C) : Option C :=
  match row with
  | none => none
  | some p => if p.state = .merged then p.mergeCommit.or kept else kept

def repairedBase (objects : C → Bool) (row : Option (Pull C)) (kept : Option C) : Option C :=
  match row with
  | none => none
  | some p => if p.state ≠ .merged ∧ objects p.baseSha = true then some p.baseSha else kept

/-- The repairs of `reconcile_repo` after the synchronization. -/
def repairRefs (s : Repo C) : Repo C :=
  { s with
    heads := fun n => repairedHead (s.pulls n) (s.heads n)
    merges := fun n => repairedMerge (s.pulls n) (s.merges n)
    bases := fun n => repairedBase s.objects (s.pulls n) (s.bases n) }

/-- The check of `verify_roots` on one row. -/
def rootsHeld [DecidableEq C] (s : Repo C) (n : Nat) (p : Pull C) : Bool :=
  let ok := if p.state = .opened then
      (!p.headGone && (s.branches p.headRef).isSome) || s.heads n = some p.headSha
    else p.finalHead.all (fun h => s.heads n = some h)
  let mergeOk := p.state ≠ .merged || p.mergeCommit.all (fun m => s.merges n = some m)
  let baseOk := p.state = .merged || s.bases n = some p.baseSha || !s.objects p.baseSha
  ok && mergeOk && baseOk

def verifyRoots [DecidableEq C] (s : Repo C) : Bool :=
  (List.range s.numbers).all (fun n => (s.pulls n).all (fun p => rootsHeld s n p))

/-- `finalize_rows`; `none` where the row is neither open for the merge nor merged by it. -/
def finalizeRows [DecidableEq C] (s : Repo C) (i : Intent C) : Option (Repo C) :=
  let done := { s with pending := Function.update s.pending i.id none }
  match s.pulls i.pullNumber with
  | none => none
  | some p =>
    if p.state = .opened ∧ p.baseRef = i.baseRef ∧ p.headRef = i.headRef then
      some (done.save i.pullNumber
        { p with
          state := .merged
          mergeCommit := some i.mergeOid
          finalHead := some i.headOid
          headSha := i.headOid
          baseSha := i.baseOid
          headGone := false })
    else if p.state = .merged ∧ p.mergeCommit = some i.mergeOid then some done
    else none

/-- A ref holds the commit. -/
inductive Root (s : Repo C) (c : C) : Prop
  | branch (b : String) (h : s.branches b = some c)
  | head (n : Nat) (h : s.heads n = some c)
  | base (n : Nat) (h : s.bases n = some c)
  | merge (n : Nat) (h : s.merges n = some c)
  | landed (id : Nat) (h : s.landed id = some c)

def Reaches (parents : C → List C) (s : Repo C) (c : C) : Prop :=
  ∃ root, Root s root ∧ Ancestor parents c root

/-- What a row of a pull request names. -/
inductive Names (p : Pull C) : C → Prop
  | head : Names p p.headSha
  | final {c : C} (h : p.finalHead = some c) : Names p c
  | merge {c : C} (h : p.mergeCommit = some c) : Names p c
  | base : Names p p.baseSha

/-- `prune`: only commits that no ref reaches go. -/
structure Pruned (parents : C → List C) (s s' : Repo C) : Prop where
  rest : s' = { s with objects := s'.objects }
  old : ∀ c, s'.objects c = true → s.objects c = true
  kept : ∀ c, s.objects c = true → Reaches parents s c → s'.objects c = true

/-- One write of a push, or of a deletion of a branch, which may come at any time: new commits, a
branch, or the record of a head that is about to be deleted. -/
inductive PushStep : Repo C → Repo C → Prop
  | objects {s : Repo C} {objects : C → Bool}
      (grown : ∀ c, s.objects c = true → objects c = true) :
      PushStep s { s with objects := objects }
  | branch {s : Repo C} {b : String} {tip : Option C}
      (there : ∀ c, tip = some c → s.objects c = true) : PushStep s (s.setBranch b tip)
  | record {s : Repo C} {n : Nat} {old : C} (there : s.objects old = true) :
      PushStep s (s.retain n old)

/-- A write of a push that leaves the retention refs as they are. -/
def Quiet (s s' : Repo C) : Prop :=
  PushStep s s' ∧ s'.heads = s.heads

variable [DecidableEq C]

/-- One write of `recover_locked` or `finish`. An abort needs the answer that the merge has not
landed, which the model leaves open. -/
inductive SettleStep : Repo C → Repo C → Prop
  | mark {s : Repo C} {i : Intent C} (row : s.pending i.id = some i) :
      SettleStep s { s with landed := Function.update s.landed i.id (some i.mergeOid) }
  | retainHead {s : Repo C} {i : Intent C} (row : s.pending i.id = some i) :
      SettleStep s (s.retain i.pullNumber i.headOid)
  | retainMerge {s : Repo C} {i : Intent C} (row : s.pending i.id = some i) :
      SettleStep s { s with merges := Function.update s.merges i.pullNumber (some i.mergeOid) }
  | finalize {s s' : Repo C} {i : Intent C} (row : s.pending i.id = some i)
      (rows : finalizeRows s i = some s') : SettleStep s s'
  | abort {s : Repo C} {i : Intent C} (row : s.pending i.id = some i) :
      SettleStep s { s with pending := Function.update s.pending i.id none }
  | dropMarker {s : Repo C} {id : Nat} (stale : s.pending id = none) :
      SettleStep s { s with landed := Function.update s.landed id none }

/-- The loop of `sync_locked` over the open pull requests, with writes of others in between. -/
inductive SyncRun (others : Repo C → Repo C → Prop) (kept : Nat → Option C)
    (tips : String → Option C) : List Nat → Repo C → Repo C → Prop
  | done {s s' : Repo C} (before : Relation.ReflTransGen others s s') :
      SyncRun others kept tips [] s s'
  | one {s s₁ s' : Repo C} {n : Nat} {rest : List Nat} {p : Pull C}
      (before : Relation.ReflTransGen others s s₁) (row : s₁.pulls n = some p)
      (after : SyncRun others kept tips rest (syncOne kept tips s₁ n p) s') :
      SyncRun others kept tips (n :: rest) s s'

/-- `sync_locked` once no merge is pending: it reads the retention refs before the branches. -/
def SyncLocked (others : Repo C → Repo C → Prop) (s s' : Repo C) : Prop :=
  ∃ s₁, Relation.ReflTransGen others s s₁ ∧
    SyncRun others s.heads s₁.branches s.openPulls s₁ s'

/-- The second stage of `maintain_repo` up to the prune: merges are settled until none is pending,
rows and refs are synchronized and repaired, and the check of the roots passes. It holds the write
gate, so that only pushes come in between; `others` are those that do once the retention refs have
been read. -/
def Maintained (others : Repo C → Repo C → Prop) (s s' : Repo C) : Prop :=
  ∃ s₁ s₂ s₃ s₄, Relation.ReflTransGen (fun a b => SettleStep a b ∨ PushStep a b) s s₁ ∧
    (∀ id, s₁.pending id = none) ∧ SyncLocked others s₁ s₂ ∧
    Relation.ReflTransGen others s₂ s₃ ∧ Relation.ReflTransGen others (repairRefs s₃) s₄ ∧
    verifyRoots s₄ = true ∧ Relation.ReflTransGen others s₄ s'

/-- What can happen to a repository, one write at a time: a crash or a race leaves the rest of an
operation undone. A commit that is written into a ref or a row existed when it was read. No push
records a deleted head while maintenance works on what it has read. -/
inductive Step (parents : C → List C) : Repo C → Repo C → Prop
  | push {s s' : Repo C} (h : PushStep s s') : Step parents s s'
  -- A pull request is opened or closed: its retention ref first, then its row.
  | retain {s : Repo C} {n : Nat} {oid : C} (there : s.objects oid = true) :
      Step parents s (s.retain n oid)
  | insert {s : Repo C} {headRef baseRef : String} {headTip baseTip : C}
      (there : s.objects headTip = true ∧ s.objects baseTip = true) :
      Step parents s { s.save s.numbers
        ⟨headRef, baseRef, baseTip, headTip, .opened, none, none, false⟩ with
          numbers := s.numbers + 1 }
  | close {s : Repo C} {n : Nat} {p : Pull C} {head : C} (row : s.pulls n = some p)
      (opened : p.state = .opened) (there : s.objects head = true) :
      Step parents s (s.save n { p with headSha := head, finalHead := some head, state := .closed })
  | reopen {s : Repo C} {n : Nat} {p : Pull C} {gone : Bool} (row : s.pulls n = some p)
      (closed : p.state = .closed)
      -- A tip that could not be read counts as gone.
      (read : gone = false → (s.branches p.headRef).isSome) :
      Step parents s (s.save n
        { p with headGone := gone, state := .opened, finalHead := none })
  | retarget {s : Repo C} {n : Nat} {p : Pull C} {base : String} {tip : C}
      (row : s.pulls n = some p) (unmerged : p.state ≠ .merged) (there : s.objects tip = true) :
      Step parents s (s.save n { p with baseRef := base, baseSha := tip })
  | syncRef {s : Repo C} {n : Nat} {tip : C} {expected : Option C}
      (there : s.objects tip = true) : Step parents s (s.retainCas n tip expected)
  | syncRow {s : Repo C} {n : Nat} {p : Pull C} {tip : C} (row : s.pulls n = some p)
      (opened : p.state = .opened) (there : s.objects tip = true) :
      Step parents s (s.save n { p with headSha := tip, headGone := false })
  | repairHead {s : Repo C} {n : Nat} :
      Step parents s
        { s with heads := Function.update s.heads n (repairedHead (s.pulls n) (s.heads n)) }
  | repairMerge {s : Repo C} {n : Nat} :
      Step parents s
        { s with merges := Function.update s.merges n (repairedMerge (s.pulls n) (s.merges n)) }
  | repairBase {s : Repo C} {n : Nat} :
      Step parents s { s with
        bases := Function.update s.bases n (repairedBase s.objects (s.pulls n) (s.bases n)) }
  | journal {s : Repo C} {i : Intent C} (fresh : s.pending i.id = none)
      (commit : parents i.mergeOid = [i.baseOid, i.headOid])
      (there : s.objects i.baseOid = true ∧ s.objects i.headOid = true ∧
        s.objects i.mergeOid = true) :
      Step parents s { s with pending := Function.update s.pending i.id (some i) }
  | publish {s : Repo C} {i : Intent C} (row : s.pending i.id = some i)
      (head : s.branches i.headRef = some i.headOid)
      (base : s.branches i.baseRef = some i.baseOid) :
      Step parents s (s.setBranch i.baseRef (some i.mergeOid))
  | settle {s s' : Repo C} (h : SettleStep s s') : Step parents s s'
  | maintain {s s' s'' : Repo C} (h : Maintained Quiet s s') (pruned : Pruned parents s' s'') :
      Step parents s s''

/-- Before the first commit. -/
def Repo.empty : Repo C :=
  ⟨fun _ => none, fun _ => none, fun _ => none, fun _ => none, fun _ => none, fun _ => none, 1,
    fun _ => none, fun _ => false⟩

def Reachable (parents : C → List C) (s : Repo C) : Prop :=
  Relation.ReflTransGen (Step parents) .empty s

end SrcControl.Retention
