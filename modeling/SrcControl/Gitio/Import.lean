import SrcControl.Vfs.Emit

/-!
# Import of a git history

The walk that turns a git branch into snapshots, parents before children, reusing the
commits whose marks name a stored snapshot. Beside it stands what an import of a commit is
as a function of the git history alone.
-/

namespace SrcControl

namespace Gitio

/-! ## What `gix` reads -/

structure GitId where
  bytes : Bytes
deriving DecidableEq, Repr

inductive GitEntryKind
  | tree
  | blob
  | blobExecutable
  | link
  | commit
deriving DecidableEq, Repr

structure GitEntry where
  filename : String
  kind : GitEntryKind
  oid : GitId
deriving DecidableEq, Repr

structure GitSignature where
  name : String
  email : String
  seconds : Int64
deriving DecidableEq

/-- A decoded commit. The author line is parsed when it is asked for. -/
structure GitCommit where
  parents : List GitId
  tree : GitId
  author : Option GitSignature
  message : String
deriving DecidableEq

/-- An object as the kind it is stored as; `none` stands for what does not decode. -/
inductive GitKind
  | commit (c : Option GitCommit)
  | tree (entries : List (Option GitEntry))
  | other
deriving DecidableEq

structure GitObject where
  data : Bytes
  kind : GitKind
deriving DecidableEq

/-- An opened repository: its branches, peeled to commits, and its objects. -/
structure GitRepo where
  branches : String → Option GitId
  objects : GitId → Option GitObject

/-- The hex form of git ids, in which marks are kept. -/
structure HexText where
  toHex : GitId → String
  fromHex : String → Option GitId
  fromHex_toHex : ∀ oid, fromHex (toHex oid) = some oid

/-! ## The import -/

/-- How an import fails: an error with its context, or a panic. -/
inductive ImportError
  | context (msg : String)
  | panic
  | fuel
deriving DecidableEq, Repr

/-- A fallible import with the objects it has put so far. -/
abbrev Import := ExceptT ImportError (StateM (List Object))

def orFail {α : Type} (e : ImportError) : Option α → Import α
  | some a => pure a
  | none => throw e

def put (idOf : Object → ObjectId) (o : Object) : Import ObjectId := do
  modify (· ++ [o])
  pure (idOf o)

def blobMode : GitEntryKind → FileMode
  | .blobExecutable => .EXEC
  | .link => ⟨0o120000⟩
  | _ => .FILE

def treeEntry (e : GitEntry) (id : ObjectId) : TreeEntry := ⟨e.filename, .tree, id, ⟨0o755⟩, 0⟩

def blobEntry (e : GitEntry) (id : ObjectId) : TreeEntry :=
  ⟨e.filename, .blob, id, blobMode e.kind, 0⟩

/-- `into_tree`. -/
def GitObject.intoTree (o : GitObject) : Option (List (Option GitEntry)) :=
  match o.kind with
  | .tree entries => some entries
  | _ => none

/-- `into_commit`. -/
def GitObject.intoCommit (o : GitObject) : Option (Option GitCommit) :=
  match o.kind with
  | .commit c => some c
  | _ => none

variable (idOf : Object → ObjectId) (repo : GitRepo)

/-- The entries of one tree, each with the subtree or blob it names put before it. A
submodule is left out. -/
def importEntries (importTree : List (Option GitEntry) → Import ObjectId) :
    List (Option GitEntry) → Import (List TreeEntry)
  | [] => pure []
  | none :: _ => throw (.context "decoding tree entry")
  | some e :: es =>
    match e.kind with
    | .tree => do
      let obj ← orFail (.context "finding subtree") (repo.objects e.oid)
      let subtree ← orFail .panic obj.intoTree
      let id ← importTree subtree
      let rest ← importEntries importTree es
      pure (treeEntry e id :: rest)
    | .commit => importEntries importTree es
    | _ => do
      let obj ← orFail (.context "finding blob") (repo.objects e.oid)
      let id ← put idOf (.blob obj.data)
      let rest ← importEntries importTree es
      pure (blobEntry e id :: rest)

def importTree : Nat → List (Option GitEntry) → Import ObjectId
  | 0, _ => throw .fuel
  | fuel + 1, entries => do
    let entries ← importEntries idOf repo (importTree fuel) entries
    put idOf (.tree (Tree.new entries))

/-- The message without the one newline git ends it with. -/
def stripNewline (raw : String) : String :=
  match raw.toList.reverse with
  | '\n' :: rest => String.ofList rest.reverse
  | _ => raw

def authorText (sig : GitSignature) : String :=
  if sig.email = "" then sig.name else sig.name ++ " <" ++ sig.email ++ ">"

def GitCommit.snapshot (c : GitCommit) (sig : GitSignature) (root : ObjectId)
    (parents : List ObjectId) : Snapshot :=
  ⟨root, parents, authorText sig, sig.seconds, stripNewline c.message, ∅, default⟩

/-- The ids of the commits resolved so far. -/
abbrev Mapped := GitId → Option ObjectId

/-- `find_object`, `into_commit`, `decode`. -/
def findCommit (oid : GitId) : Import GitCommit := do
  let obj ← orFail (.context "finding commit") (repo.objects oid)
  let commit ← orFail .panic obj.intoCommit
  orFail (.context "decoding commit") commit

/-- A commit whose parents are all mapped becomes a snapshot. -/
def importCommit (fuel : Nat) (mapped : Mapped) (c : GitCommit) : Import ObjectId := do
  let parents ← c.parents.mapM (fun p => orFail .panic (mapped p))
  let obj ← orFail (.context "reading commit tree") (repo.objects c.tree)
  let entries ← orFail (.context "reading commit tree") obj.intoTree
  let root ← importTree idOf repo fuel entries
  let sig ← orFail (.context "parsing commit author") c.author
  put idOf (.snapshot (c.snapshot sig root parents))

/-- The parents still to be resolved go on top of their child, the last one first. -/
def pushParents (mapped : Mapped) (oid : GitId) (c : GitCommit) (stack : List (GitId × Bool)) :
    List (GitId × Bool) :=
  ((c.parents.filter (fun p => (mapped p).isNone)).map (fun p => (p, false))).reverse ++
    (oid, true) :: stack

structure Walk where
  mapped : Mapped
  newMarks : List (String × ObjectId)

def Walk.record (toHex : GitId → String) (w : Walk) (oid : GitId) (id : ObjectId) : Walk :=
  ⟨Function.update w.mapped oid (some id), w.newMarks ++ [(toHex oid, id)]⟩

/-- The walk: an entry marked ready is built, another one waits for its parents. -/
def importLoop (toHex : GitId → String) (treeFuel : Nat) :
    Nat → List (GitId × Bool) → Walk → Import Walk
  | 0, _, _ => throw .fuel
  | _ + 1, [], w => pure w
  | fuel + 1, (oid, ready) :: stack, w =>
    if (w.mapped oid).isSome then importLoop toHex treeFuel fuel stack w
    else do
      let c ← findCommit repo oid
      match ready with
      | true => do
        let id ← importCommit idOf repo treeFuel w.mapped c
        importLoop toHex treeFuel fuel stack (w.record toHex oid id)
      | false => importLoop toHex treeFuel fuel (pushParents w.mapped oid c stack) w

/-- A mark whose snapshot is not stored is stale and skipped. -/
def seedMark (fromHex : String → Option GitId) (s : Store) (mapped : Mapped)
    (mark : String × ObjectId) : Mapped :=
  if s.contains mark.2 then
    match fromHex mark.1 with
    | some oid => Function.update mapped oid (some mark.2)
    | none => mapped
  else mapped

def seed (fromHex : String → Option GitId) (s : Store) (known : List (String × ObjectId)) :
    Mapped :=
  known.foldl (seedMark fromHex s) (fun _ => none)

structure ImportReport where
  tip : ObjectId
  newMarks : List (String × ObjectId)

/-- `import_history`. -/
def importHistory (hex : HexText) (fuel treeFuel : Nat) (s : Store) (branch : String)
    (known : List (String × ObjectId)) : Import ImportReport := do
  let tip ← orFail (.context ("resolving branch " ++ branch)) (repo.branches branch)
  let w ← importLoop idOf repo hex.toHex treeFuel fuel [(tip, false)] ⟨seed hex.fromHex s known, []⟩
  let id ← orFail .panic (w.mapped tip)
  pure ⟨id, w.newMarks⟩

/-! ## An import as a function of the history -/

/-- The tree entries git entries become, and the objects put on the way. -/
inductive EntriesImport : List (Option GitEntry) → List TreeEntry → List Object → Prop
  | nil : EntriesImport [] [] []
  | tree {e : GitEntry} {es sub : List (Option GitEntry)} {obj : GitObject}
      {ts ts' : List TreeEntry} {os os' : List Object} (hk : e.kind = .tree)
      (ho : repo.objects e.oid = some obj) (hsub : obj.intoTree = some sub)
      (h : EntriesImport sub ts os) (hrest : EntriesImport es ts' os') :
      EntriesImport (some e :: es) (treeEntry e (idOf (.tree (Tree.new ts))) :: ts')
        (os ++ .tree (Tree.new ts) :: os')
  | submodule {e : GitEntry} {es : List (Option GitEntry)} {ts : List TreeEntry}
      {os : List Object} (hk : e.kind = .commit) (h : EntriesImport es ts os) :
      EntriesImport (some e :: es) ts os
  | blob {e : GitEntry} {es : List (Option GitEntry)} {obj : GitObject} {ts : List TreeEntry}
      {os : List Object} (ht : e.kind ≠ .tree) (hc : e.kind ≠ .commit)
      (ho : repo.objects e.oid = some obj) (h : EntriesImport es ts os) :
      EntriesImport (some e :: es) (blobEntry e (idOf (.blob obj.data)) :: ts)
        (.blob obj.data :: os)

def IsCommit (oid : GitId) (c : GitCommit) : Prop :=
  ∃ obj, repo.objects oid = some obj ∧ obj.intoCommit = some (some c)

/-- The snapshot `sn` of a commit whose parents have the ids `ids`, with what is put for it. -/
def Builds (c : GitCommit) (ids : List ObjectId) (sn : Snapshot) (os : List Object) : Prop :=
  ∃ obj entries ts os' sig, repo.objects c.tree = some obj ∧ obj.intoTree = some entries ∧
    EntriesImport idOf repo entries ts os' ∧ c.author = some sig ∧
    sn = c.snapshot sig (idOf (.tree (Tree.new ts))) ids ∧
    os = os' ++ [.tree (Tree.new ts), .snapshot sn]

/-- The id of a commit's import: a function of the history below it. -/
inductive Imports : GitId → ObjectId → Prop
  | commit {oid : GitId} {c : GitCommit} {ids : List ObjectId} {sn : Snapshot} {os : List Object}
      (hc : IsCommit repo oid c) (hlen : c.parents.length = ids.length)
      (hp : ∀ q ∈ c.parents.zip ids, Imports q.1 q.2) (hb : Builds idOf repo c ids sn os) :
      Imports oid (idOf (.snapshot sn))

/-- The objects an import of one commit puts for it. -/
def Owns (oid : GitId) (o : Object) : Prop :=
  ∃ c ids sn os, IsCommit repo oid c ∧ c.parents.length = ids.length ∧
    (∀ q ∈ c.parents.zip ids, Imports idOf repo q.1 q.2) ∧ Builds idOf repo c ids sn os ∧ o ∈ os

def ParentOf (a b : GitId) : Prop := ∃ c, IsCommit repo a c ∧ b ∈ c.parents

/-- The objects of a commit and all its ancestors. -/
def History (oid : GitId) (o : Object) : Prop :=
  ∃ a, Relation.ReflTransGen (ParentOf repo) oid a ∧ Owns idOf repo a o

end Gitio

end SrcControl
