import SrcControl.Vfs.Flatten

/-!
# In-memory worktrees

A worktree is an overlay of writes and removals over a base snapshot. A commit flattens
the base, applies the overlay and rebuilds the whole tree from the flat map.
-/

namespace SrcControl.Vfs

open SlashPath Puts TreeBuilder TreeEntries

/-- A copy-on-write overlay entry. -/
inductive Staged
  | written (bytes : Bytes) (mode : FileMode)
  | removed
deriving DecidableEq

structure Worktree where
  baseSnapshot : ObjectId
  baseRoot : ObjectId
  overlay : BTreeMap String Staged
  secrets : BTreeMap String ObjectId
  protection : Protection
  label : String

def fork (store : Store) (snapshot : ObjectId) (label : String) : Except Error Worktree := do
  let snap ← store.getSnapshot snapshot
  pure ⟨snapshot, snap.root, ∅, snap.secrets, snap.protection, label⟩

/-- Flatten into (path, blob id, mode) triples, appended to `out`. -/
def walk (store : Store) : Nat → ObjectId → String → List (String × ObjectId × FileMode) →
    Except Error (List (String × ObjectId × FileMode))
  | 0, _, _, _ => .error .fuel
  | fuel + 1, treeId, pre, out => do
    let tree ← store.getTree treeId
    tree.entries.foldlM (fun out e =>
      let path := if pre = "" then e.name else pre ++ "/" ++ e.name
      match e.kind with
      | .blob => pure (out ++ [(path, e.id, e.mode)])
      | .tree => walk store fuel e.id path out) out

/-- The blob id at a component path. -/
def resolve (store : Store) : ObjectId → List String → Except Error (Option ObjectId)
  | _, [] => .ok none
  | treeId, comp :: rest => do
    let tree ← store.getTree treeId
    match tree.get comp with
    | none => pure none
    | some entry =>
      match entry.kind, rest with
      | .blob, [] => pure (some entry.id)
      | .tree, _ :: _ => resolve store entry.id rest
      | _, _ => pure none

/-- `build_tree`: no entry keeps a perms bit. -/
def buildTree (idOf : Object → ObjectId) (files : BTreeMap String (ObjectId × FileMode)) :
    Puts ObjectId :=
  buildRoot idOf (files.map (fun _ f => ⟨f.1, f.2, 0⟩)) ∅

namespace Worktree

variable (wt : Worktree)

def write (path : String) (bytes : Bytes) (mode : FileMode) : Worktree :=
  { wt with overlay := wt.overlay.insert (normalize path) (.written bytes mode) }

def remove (path : String) : Worktree :=
  { wt with overlay := wt.overlay.insert (normalize path) .removed }

def resolveBase (store : Store) (path : String) : Except Error (Option ObjectId) :=
  resolve store wt.baseRoot ((split path).filter (· ≠ ""))

def walkBase (fuel : Nat) (store : Store) : Except Error (List (String × ObjectId × FileMode)) :=
  walk store fuel wt.baseRoot "" []

/-- The bytes of a resolved blob id. -/
def readBlob (store : Store) (path : String) (id : ObjectId) : Except Error Bytes := do
  match ← store.get id with
  | .blob b => .ok b
  | _ => .error (.pathNotFound path)

def read (store : Store) (path : String) : Except Error Bytes :=
  let path := normalize path
  match wt.overlay[path]? with
  | some (.written b _) => .ok b
  | some .removed => .error (.pathNotFound path)
  | none => do
    match ← wt.resolveBase store path with
    | none => .error (.pathNotFound path)
    | some id => readBlob store path id

def listOverlay (set : BTreeSet String) (staged : String × Staged) : BTreeSet String :=
  match staged.2 with
  | .written _ _ => set.insert staged.1
  | .removed => set.erase staged.1

/-- The effective file set: base, with overlay writes, without overlay removals. -/
def list (fuel : Nat) (store : Store) : Except Error (List String) := do
  let base ← wt.walkBase fuel store
  let set := base.foldl (fun (set : BTreeSet String) f => set.insert f.1) ∅
  pure (wt.overlay.toList.foldl listOverlay set).toList

def flush (idOf : Object → ObjectId) (map : BTreeMap String (ObjectId × FileMode))
    (staged : String × Staged) : Puts (BTreeMap String (ObjectId × FileMode)) :=
  match staged.2 with
  | .written b mode => do pure (map.insert staged.1 (← put idOf (.blob b), mode))
  | .removed => pure (map.erase staged.1)

/-- Flush the effective file set into the store as a new snapshot. -/
def commit (fuel : Nat) (idOf : Object → ObjectId) (store : Store) (author message : String) :
    Puts ObjectId := do
  let base ← (wt.walkBase fuel store : Except Error _)
  let map := base.foldl (fun (map : BTreeMap String (ObjectId × FileMode)) f =>
    map.insert f.1 f.2) ∅
  let map ← wt.overlay.toList.foldlM (flush idOf) map
  let root ← buildTree idOf map
  put idOf (.snapshot ⟨root, [wt.baseSnapshot], author, 0, message, wt.secrets, wt.protection⟩)

end Worktree

inductive Edit
  | write (path : String) (bytes : Bytes) (mode : FileMode)
  | remove (path : String)

def Edit.apply (wt : Worktree) : Edit → Worktree
  | .write path bytes mode => wt.write path bytes mode
  | .remove path => wt.remove path

/-! ## Edits -/

/-- Every staged path is normal. -/
def Worktree.Normal (wt : Worktree) : Prop :=
  ∀ p s, wt.overlay[p]? = some s → ∃ cs, (∀ c ∈ cs, IsName c ∧ c ≠ ".") ∧ p = ofNames cs

theorem fork_normal {store : Store} {snapshot : ObjectId} {label : String} {wt : Worktree}
    (h : fork store snapshot label = .ok wt) :
    wt.Normal ∧ wt.baseSnapshot = snapshot ∧ wt.overlay = ∅ := by
  obtain ⟨snap, -, h⟩ := Fallible.bind_ok h
  cases h
  exact ⟨fun p s hs => by simp at hs, rfl, rfl⟩

theorem Edit.apply_normal {wt : Worktree} (h : wt.Normal) (e : Edit) : (e.apply wt).Normal := by
  have hinsert : ∀ (path : String) (staged : Staged),
      ({ wt with overlay := wt.overlay.insert (normalize path) staged } : Worktree).Normal := by
    intro path staged p s hs
    change (wt.overlay.insert (normalize path) staged)[p]? = some s at hs
    rw [BTreeMap.getElem?_insert] at hs
    split_ifs at hs with hp
    · obtain ⟨cs, hcs, hnorm⟩ := normalize_names path
      exact ⟨cs, hcs, hp ▸ hnorm⟩
    · exact h p s hs
  cases e with
  | write path bytes mode => exact hinsert path (.written bytes mode)
  | remove path => exact hinsert path .removed

theorem Edit.apply_base (wt : Worktree) (e : Edit) :
    (e.apply wt).baseRoot = wt.baseRoot ∧ (e.apply wt).baseSnapshot = wt.baseSnapshot := by
  cases e <;> exact ⟨rfl, rfl⟩

theorem edits_normal {wt : Worktree} (h : wt.Normal) (edits : List Edit) :
    (edits.foldl Edit.apply wt).Normal := by
  induction edits generalizing wt with
  | nil => exact h
  | cons e edits ih => exact ih (e.apply_normal h)

theorem edits_base (wt : Worktree) (edits : List Edit) :
    (edits.foldl Edit.apply wt).baseRoot = wt.baseRoot := by
  induction edits generalizing wt with
  | nil => rfl
  | cons e edits ih => exact (ih _).trans (e.apply_base wt).1

end SrcControl.Vfs
