import SrcControl.Lib.FileTree
import SrcControl.Repo.SparseView

/-!
# Laying a tree out on disk

`materialize_impl` with the functions it calls: the removal pass over the tree being
replaced, the two refusals before the first removal, and the writes. A working tree is
a disk and the marker of an interrupted view change; an error keeps whatever was done
to the disk before it.
-/

namespace SrcControl

open SlashPath FileTree TreeEntries

/-- A name in a directory: text, or bytes that are no UTF-8. -/
inductive OsName
  | text (name : String) (single : IsName name)
  | raw (bytes : Bytes)
deriving DecidableEq

namespace OsName

def toStr : OsName → Option String
  | text name _ => some name
  | raw _ => none

def ofString (name : String) : Option OsName :=
  if h : IsName name then some (text name h) else none

end OsName

structure FileData where
  bytes : Bytes
  mode : FileMode
deriving DecidableEq, Repr

abbrev WorkDisk := Disk OsName FileData

inductive Scope
  | allPaths
  | prefixes (ps : List String)
deriving DecidableEq, Repr

/-- The marker of a partial clone. -/
structure Promisor where
  scope : Scope
  blobLimit : Option UInt64
  origin : String
deriving DecidableEq, Repr

namespace Promisor

def prefixes (p : Promisor) : List String :=
  match p.scope with
  | .allPaths => []
  | .prefixes ps => ps

def matchesPath (p : Promisor) (path : String) : Bool :=
  match p.scope with
  | .allPaths => true
  | .prefixes ps => ps.any (fun q =>
      path = MergeTree.trimEndSlashes q || startsWith path (MergeTree.trimEndSlashes q ++ "/"))

end Promisor

/-- Where the working tree lies, and what `.sc` says about the clone. -/
structure Layout where
  root : Path OsName
  promisor : Option Promisor

/-- What a run changes: the disk, and the spec an interrupted `sparse set` left behind. -/
structure Checkout where
  disk : WorkDisk
  sparsePrev : Option Sparse

namespace Worktree

/-- The components of a tree-relative path. -/
def names (rel : String) : Path OsName := (split rel).filterMap OsName.ofString

def unsafePart (c : String) : Bool := c = "" || c = "." || c = ".."

/-- `safe_join`, relative to the root. -/
def safeJoin (rel : String) : Except Error (Path OsName) :=
  if (split rel).any unsafePart then .error (.badRef ("unsafe path in tree: " ++ rel))
  else .ok (names rel)

section Reading

variable (layout : Layout) (disk : WorkDisk)

def lstat (full : Path OsName) : Except Error (Option (Node OsName FileData)) :=
  match disk.lstat layout.root full with
  | .ok n => .ok (some n)
  | .error .notFound => .ok none
  | .error .notADirectory => .ok none
  | .error _ => .error (.core .io)

/-- `full.symlink_metadata().is_ok_and(test)`. -/
def standsAs (full : Path OsName) (test : Node OsName FileData → Bool) : Bool :=
  (disk.lstat layout.root full).toOption.any test

def underSymlink (rel : String) : Bool :=
  (ancestors rel).any (fun parent => standsAs layout disk (names parent) Node.isSymlink)

def diskBlobId (idOf : Object → ObjectId) (full : Path OsName) : Option ObjectId :=
  match disk.lstat layout.root full with
  | .ok (.file c) => some (idOf (.blob c.bytes))
  | _ => none

def diskIsBlob (idOf : Object → ObjectId) (full : Path OsName) (blobId : ObjectId) : Bool :=
  diskBlobId layout disk idOf full = some blobId

/-- `refuse_blocked_parents`; a parent met again is not looked at again there. -/
def refuseBlockedParents (paths : List String) (removable : String → Bool) : Except Error Unit :=
  paths.forM (fun path => (ancestors path).forM (fun parent =>
    if standsAs layout disk (names parent) (fun m => !m.isDir) && !removable parent then
      .error (.invalidArgument ("cannot write " ++ path ++ ": " ++ parent ++
        " is a file or symlink of yours where a directory must be; move it away, then retry"))
    else .ok ()))

/-- The path of what stands at `names` below the tracked path `rel`. -/
def childPath (rel : String) (children : List String) : String :=
  children.foldl (fun p name => p ++ "/" ++ name) rel

/-- `dir_clearable`: its recursion visits everything below the directory. -/
def dirClearable (dir : Path OsName) (rel : String) (removable : String → Bool) : Bool :=
  match disk.locate layout.root dir with
  | .error _ => false
  | .ok p => disk.dirAt p && (disk.below p).all (fun r =>
      match r.mapM OsName.toStr with
      | none => false
      | some children => match disk.node (p ++ r) with
        | some .dir => true
        | some (.file _) => removable (childPath rel children)
        | _ => false)

end Reading

/-! ## Changing the disk -/

abbrev Io := EStateM Error Checkout

def attempt {α : Type} (x : Except Error α) : Io α := fun s =>
  match x with
  | .ok a => .ok a s
  | .error e => .error e s

/-- A call that either happens or fails. -/
def call (f : WorkDisk → Except Fault WorkDisk) : Io Unit := fun s =>
  match f s.disk with
  | .ok d => .ok () { s with disk := d }
  | .error _ => .error (.core .io) s

/-- `remove_file`, content with a file that is not there. -/
def removeFile (layout : Layout) (full : Path OsName) : Io Unit := fun s =>
  match s.disk.unlink layout.root full with
  | .ok d => .ok () { s with disk := d }
  | .error .notFound => .ok () s
  | .error _ => .error (.core .io) s

def createDirAll (layout : Layout) (dir : Path OsName) : Io Unit := fun s =>
  match Disk.mkdirAll layout.root dir.reverse s.disk with
  | .ok _ d => .ok () { s with disk := d }
  | .error _ d => .error (.core .io) { s with disk := d }

def writeFile (layout : Layout) (full : Path OsName) (bytes : Bytes) (mode : FileMode) : Io Unit :=
  call (fun d => d.write layout.root full ⟨bytes, mode⟩)

def dirInTheWay (path : String) : Error :=
  .invalidArgument ("cannot write " ++ path ++ ": a directory with untracked or ignored content " ++
    "stands there; move it away, then retry")

def clearDirObstruction (layout : Layout) (full : Path OsName) (path : String) : Io Unit := fun s =>
  if standsAs layout s.disk full Node.isDir then
    if dirClearable layout s.disk full path (fun _ => false) then
      match s.disk.prune layout.root full with
      | .ok d => .ok () { s with disk := d }
      | .error _ => .error (dirInTheWay path) s
    else .error (dirInTheWay path) s
  else .ok () s

/-! ## The view's closure -/

def viewGap (promisor : Promisor) (path : String) (isBlob : Bool) : Error :=
  let sized := if isBlob && promisor.matchesPath path then promisor.blobLimit else none
  let covering := promisor.prefixes.find? (fun p =>
    path = MergeTree.trimEndSlashes p || startsWith path (MergeTree.trimEndSlashes p ++ "/"))
  let pre :=
    if promisor.blobLimit.isSome && path ≠ "" then path
    else ((covering <|> (if path ≠ "" then some path else none)) <|>
      promisor.prefixes.head?).getD ""
  .gapInView (if path = "" then "(root tree)" else path) pre sized

def preflightLoop (store : Store) (sparse : Sparse) (promisor : Promisor) :
    Nat → List (ObjectId × String) → Except Error Unit
  | _, [] => .ok ()
  | 0, _ => .error .fuel
  | fuel + 1, (treeId, path) :: stack => do
    let tree ← store.getTree treeId
    let stack ← tree.entries.foldlM (fun stack e =>
      let child := join path e.name
      match e.kind with
      | .blob =>
        if sparse.matchesPath child && !store.contains e.id then .error (viewGap promisor child true)
        else .ok stack
      | .tree =>
        if sparse.shouldDescend child then
          if store.contains e.id then .ok ((e.id, child) :: stack)
          else .error (viewGap promisor child false)
        else .ok stack) stack
    preflightLoop store sparse promisor fuel stack

def preflightView (fuel : Nat) (layout : Layout) (store : Store) (root : ObjectId)
    (sparse : Sparse) : Except Error Unit :=
  match layout.promisor with
  | none => .ok ()
  | some promisor =>
    if store.contains root then preflightLoop store sparse promisor fuel [(root, "")]
    else .error (viewGap promisor "" false)

/-! ## Materializing -/

/-- What a run reports: protected paths left absent, in-view paths left as the user has them,
and the sealed files the cache is told of. -/
structure Materialized where
  skipped : List String
  kept : List String
  recorded : List (String × Bytes × ObjectId)
deriving DecidableEq, Repr

/-- What every step of one run has: the layout, the store, the view, how blobs are named and
opened, and on a restore the paths the stop owns. -/
structure Laying where
  layout : Layout
  store : Store
  fuel : Nat
  idOf : Object → ObjectId
  decryptProtected : Bytes → ObjectId → Option Bytes
  sparse : Sparse
  owned : Option (BTreeSet String)

namespace Laying

variable (env : Laying)

/-- Whether the removal pass may delete the file at `p`, which the replaced tree tracks. -/
def ours (disk : WorkDisk) (p : String) (full : Path OsName) (e : FileEntry) : Bool :=
  !underSymlink env.layout disk p &&
    if e.perms &&& PROTECTED ≠ 0 then
      standsAs env.layout disk full Node.isFile && env.owned.all (fun owned => owned.contains p)
    else
      diskIsBlob env.layout disk env.idOf full e.id ||
        (env.owned.any (fun owned => owned.contains p) &&
          standsAs env.layout disk full Node.isFile)

/-- One step of deciding the removals: the paths to remove, and the paths kept. -/
def decideRemoval (disk : WorkDisk) (target : FileMap) (acc : List String × List String)
    (entry : String × FileEntry) : Except Error (List String × List String) := do
  let p := entry.1
  if target.contains p && env.sparse.matchesPath p then return acc
  let full ← safeJoin p
  match ← lstat env.layout disk full with
  | none => return acc
  | some _ =>
    if env.ours disk p full entry.2 then return (acc.1 ++ [p], acc.2)
    else if env.sparse.matchesPath p then return (acc.1, acc.2 ++ [p])
    else return acc

def inView (target : FileMap) : List String := target.keys.filter env.sparse.matchesPath

/-- The refusals before the first removal: a directory at a target path must hold only what
the pass removes, and nothing but that may stand where a directory must be. -/
def refuseObstructions (disk : WorkDisk) (target : FileMap) (removals : List String) :
    Except Error Unit := do
  (env.inView target).forM (fun path => do
    let full ← safeJoin path
    if standsAs env.layout disk full Node.isDir &&
        !dirClearable env.layout disk full path (fun c => removals.contains c) then
      .error (dirInTheWay path)
    else .ok ())
  refuseBlockedParents env.layout disk (env.inView target) (fun c => removals.contains c)

/-- The bound of the removal walk, whether it passes absent subtrees, and whether it was
widened by the marker of an interrupted `sparse set`. -/
def walkBound (oldView : Option Sparse) (sparsePrev : Option Sparse) : Sparse × Bool × Bool :=
  match env.layout.promisor with
  | none => ([], false, false)
  | some _ => match sparsePrev with
    | some prev => ((oldView.getD env.sparse).union prev, true, true)
    | none => (oldView.getD env.sparse, true, false)

/-- What the replaced tree tracks, within the removal walk's bound. -/
def oldFiles (oldView : Option Sparse) (sparsePrev : Option Sparse) (old : ObjectId) :
    Except Error FileMap :=
  let (bound, isPartial, _) := env.walkBound oldView sparsePrev
  if isPartial then treeFileEntriesPresent env.fuel env.store old bound
  else treeFileEntriesWithPermsSparse env.fuel env.store old bound

/-- The removal pass; returns what the replaced tree tracks and the paths kept. -/
def removalPass (target : FileMap) (old : ObjectId) (oldView : Option Sparse) :
    Io (FileMap × List String) := do
  let s ← get
  let tracked ← attempt (env.oldFiles oldView s.sparsePrev old)
  let (removals, kept) ← attempt (tracked.toList.foldlM (env.decideRemoval s.disk target) ([], []))
  attempt (env.refuseObstructions s.disk target removals)
  removals.forM (fun p => do removeFile env.layout (← attempt (safeJoin p)))
  return (tracked, kept)

/-- The removal pass, if there is an old tree. -/
def removeOld (target : FileMap) (oldRoot : Option ObjectId) (oldView : Option Sparse) :
    Io (Option FileMap × List String) :=
  match oldRoot with
  | none => pure (none, [])
  | some old => do
    let r ← env.removalPass target old oldView
    pure (some r.1, r.2)

/-- Whether a restore leaves the file at `path` to the user. -/
def left (disk : WorkDisk) (replaced : Option FileMap) (path : String) (full : Path OsName)
    (blobId : ObjectId) : Bool :=
  match env.owned with
  | none => false
  | some owned =>
    standsAs env.layout disk full Node.isSymlink ||
      match replaced with
      | none => false
      | some tracked =>
        !owned.contains path && standsAs env.layout disk full (fun m => !m.isDir) &&
          let onDisk := diskBlobId env.layout disk env.idOf full
          onDisk ≠ some blobId && !(tracked[path]?).any (fun e => onDisk = some e.id)

/-- The closure of that name: with no old tree an empty directory is the user's. -/
def clear (hasOld : Bool) (full : Path OsName) (path : String) : Io Unit :=
  if hasOld then clearDirObstruction env.layout full path else pure ()

def layBytes (hasOld : Bool) (full : Path OsName) (path : String) (bytes : Bytes)
    (mode : FileMode) : Io Unit := do
  env.clear hasOld full path
  createDirAll env.layout full.dropLast
  writeFile env.layout full bytes mode

/-- One target entry of the write pass. -/
def writeEntry (replaced : Option FileMap) (m : Materialized) (entry : String × FileEntry) :
    Io Materialized := do
  let path := entry.1
  let e := entry.2
  if !env.sparse.matchesPath path then return m
  let full ← attempt (safeJoin path)
  let s ← get
  if env.left s.disk replaced path full e.id then return { m with kept := m.kept ++ [path] }
  match ← attempt (env.store.get e.id) with
  | .blob bytes =>
    if e.perms &&& PROTECTED ≠ 0 then
      match env.decryptProtected bytes e.id with
      | some plain =>
        env.layBytes replaced.isSome full path plain e.mode
        if e.perms &&& RANDOMIZED ≠ 0 then
          return { m with recorded := m.recorded ++ [(path, plain, e.id)] }
        else return m
      | none =>
        env.clear replaced.isSome full path
        removeFile env.layout full
        return { m with skipped := m.skipped ++ [path] }
    else
      env.layBytes replaced.isSome full path bytes e.mode
      return m
  | _ => return m

end Laying

/-- `clear_prev`, once the tree is laid out under the view. -/
def clearPrev (prevMarkerUsed : Bool) : Io Unit :=
  if prevMarkerUsed then modify (fun s => { s with sparsePrev := none }) else pure ()

/-- `materialize_impl`. -/
def materializeImpl (env : Laying) (targetRoot : ObjectId) (oldRoot : Option ObjectId)
    (oldView : Option Sparse) : Io Materialized := do
  attempt (preflightView env.fuel env.layout env.store targetRoot env.sparse)
  let target ← attempt (treeFileEntriesWithPermsSparse env.fuel env.store targetRoot env.sparse)
  let before ← get
  let replaced ← env.removeOld target oldRoot oldView
  let m ← target.toList.foldlM (env.writeEntry replaced.1) ⟨[], replaced.2, []⟩
  clearPrev (oldRoot.isSome && (env.walkBound oldView before.sparsePrev).2.2)
  return { m with kept := m.kept.mergeSort (fun a b => a ≤ b) }

/-- The environment of an abort: no key, and the paths the stop owns. -/
def restoring (layout : Layout) (store : Store) (fuel : Nat) (idOf : Object → ObjectId)
    (sparse : Sparse) (owned : BTreeSet String) : Laying :=
  ⟨layout, store, fuel, idOf, fun _ _ => none, sparse, some owned⟩

def materializeRestore (layout : Layout) (store : Store) (fuel : Nat) (idOf : Object → ObjectId)
    (targetRoot : ObjectId) (oldRoot : Option ObjectId) (sparse : Sparse)
    (owned : BTreeSet String) : Io Materialized :=
  materializeImpl (restoring layout store fuel idOf sparse owned) targetRoot oldRoot none

end Worktree

end SrcControl
