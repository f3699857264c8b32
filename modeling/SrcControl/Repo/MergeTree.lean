import SrcControl.Repo.MergePaths

/-!
# Tree-recursive three-way merge

`merge_trees` merges one directory level at a time. Where the three sides settle
a subtree by id alone, the subtree is carried unread; everything else is read and
resolved by the per-path rules of the flatten merge. An object the store lacks is
not an error: the pass records it and returns what it needs.
-/

namespace SrcControl

open Merge SlashPath

/-- The versions of one name on the base, on ours and on theirs. -/
structure Three (α : Type) where
  b : Option α
  o : Option α
  t : Option α

namespace Three

variable {α β : Type}

/-- `ents.iter().flatten()`. -/
def present (x : Three α) : List α := [x.b, x.o, x.t].reduceOption

def bind (x : Three α) (f : α → Option β) : Three β := ⟨x.b.bind f, x.o.bind f, x.t.bind f⟩

def mapM (x : Three α) (f : α → Except Error β) : Except Error (Three β) := do
  let b ← x.b.mapM f
  let o ← x.o.mapM f
  let t ← x.t.mapM f
  pure ⟨b, o, t⟩

end Three

/-- What the merge carried by id instead of reading. -/
inductive Carried
  | root (id : ObjectId)
  | entries (es : List (String × TreeEntry))

/-- An object a pass could not read, where it was found and whether it is a directory. -/
structure Need where
  id : ObjectId
  path : String
  tree : Bool
deriving DecidableEq

structure TreeMergeDone where
  merge : MergeAcc
  carried : Carried

inductive TreeMerge
  | needs (ns : List Need)
  | done (d : TreeMergeDone)

namespace MergeTree

/-- The part of the walk that changes. -/
structure Walk where
  acc : MergeAcc := {}
  carried : List (String × TreeEntry) := []
  carriedRoot : Option ObjectId := none
  needs : List Need := []
  needsSeen : BTreeSet ObjectId := ∅

/-- The part of the walk that is fixed: policies, rule prefixes and identity. -/
structure Context (crypto : PathCrypto) where
  prots : List Protection
  rules : List String
  identity : Option crypto.SecretKey

def Walk.need (w : Walk) (id : ObjectId) (path : String) (tree : Bool) : Walk :=
  if w.needsSeen.contains id then w
  else { w with needs := w.needs ++ [⟨id, path, tree⟩], needsSeen := w.needsSeen.insert id }

variable {crypto : PathCrypto}

/-- Does any rule cover `path` or lie inside it, at `/` boundaries? -/
def Context.intersectsRule (ctx : Context crypto) (path : String) : Bool :=
  ctx.rules.any (fun bare => path = "" || path = bare || startsWith path (bare ++ "/") ||
    startsWith bare (path ++ "/"))

/-- `path.rsplit('/').next()`. -/
def lastName (path : String) : String := (split path).getLast?.getD path

def carry (w : Walk) (path : String) (entry : TreeEntry) : Walk :=
  if path = "" then { w with carriedRoot := some entry.id }
  else { w with carried := w.carried ++ [(path, { entry with name := lastName path })] }

/-- Resolve one path into the walk; a blob the leaf must read and the store lacks
is asked for. -/
def visitLeaf (ctx : Context crypto) (store : Store) (path : String) (ents : Three FileEntry)
    (w : Walk) : Except Error Walk :=
  match mergePath crypto store path ents.b ents.o ents.t ctx.prots ctx.identity w.acc with
  | .ok _ acc => .ok { w with acc := acc }
  | .error (.core (.notFound id)) acc => .ok ({ w with acc := acc }.need id path false)
  | .error e _ => .error e

/-- One popped directory of `flattenPresent`: blobs are written, subtrees pushed. -/
def flattenEntries (p : String) (entries : List TreeEntry) (stack : List (ObjectId × String))
    (out : FileMap) : List (ObjectId × String) × FileMap :=
  entries.foldl (fun (stack, out) e =>
    let child := join p e.name
    match e.kind with
    | .blob => (stack, out.insert child (fileEntry e))
    | .tree => ((e.id, child) :: stack, out)) (stack, out)

/-- Flatten the subtrees on the stack to leaf entries, asking for any tree the store lacks. -/
def flattenPresent (store : Store) :
    Nat → List (ObjectId × String) → FileMap → Walk → Except Error (FileMap × Walk)
  | 0, _, _, _ => .error .fuel
  | _ + 1, [], out, w => .ok (out, w)
  | fuel + 1, (id, p) :: stack, out, w =>
    if store.contains id then do
      let tree ← store.getTree id
      let (stack, out) := flattenEntries p tree.entries stack out
      flattenPresent store fuel stack out w
    else flattenPresent store fuel stack out (w.need id p true)

/-- One side of a mixed name, flattened: a blob is the path itself. -/
def mixedSide (store : Store) (fuel : Nat) (path : String) (e : Option TreeEntry) (w : Walk) :
    Except Error (FileMap × Walk) :=
  match e with
  | none => .ok (∅, w)
  | some e =>
    match e.kind with
    | .blob => .ok ((∅ : FileMap).insert path (fileEntry e), w)
    | .tree => flattenPresent store fuel [(e.id, path)] ∅ w

/-- A name that is a blob on some sides and a tree on others is resolved per path. -/
def enumerateMixed (ctx : Context crypto) (store : Store) (fuel : Nat) (path : String)
    (ents : Three TreeEntry) (w : Walk) : Except Error Walk := do
  let (bm, w) ← mixedSide store fuel path ents.b w
  let (om, w) ← mixedSide store fuel path ents.o w
  let (tm, w) ← mixedSide store fuel path ents.t w
  let paths := (BTreeSet.ofList (bm.keys ++ om.keys ++ tm.keys)).toList
  paths.foldlM (fun w p => visitLeaf ctx store p ⟨bm[p]?, om[p]?, tm[p]?⟩ w) w

/-- Visit one name at `path`; `node` handles three trees. -/
def visit (ctx : Context crypto) (store : Store) (fuel : Nat)
    (node : String → Three TreeEntry → Walk → Except Error Walk) (path : String)
    (ents : Three TreeEntry) (w : Walk) : Except Error Walk :=
  if ents.present.all (fun e => e.kind = .blob) then
    visitLeaf ctx store path ⟨ents.b.map fileEntry, ents.o.map fileEntry, ents.t.map fileEntry⟩ w
  else if ents.present.all (fun e => e.kind = .tree) then node path ents w
  else enumerateMixed ctx store fuel path ents w

/-- Which entry would be carried: `some none` when the surviving result is a deletion. -/
def carryFrom (ents : Three TreeEntry) : Option (Option TreeEntry) :=
  let bi : Option ObjectId := ents.b.map (·.id)
  let oi : Option ObjectId := ents.o.map (·.id)
  let ti : Option ObjectId := ents.t.map (·.id)
  if oi = ti ∨ bi = ti then some ents.o
  else if bi = oi then some ents.t
  else none

def identical (ents : Three TreeEntry) : Bool :=
  ents.b.map (·.id) = ents.o.map (·.id) && ents.o.map (·.id) = ents.t.map (·.id)

/-- Read each present node, or ask for the ones the store lacks, and visit the union
of their names. -/
def descend (store : Store) (visit : String → Three TreeEntry → Walk → Except Error Walk)
    (path : String) (ents : Three TreeEntry) (w : Walk) : Except Error Walk :=
  let absent := ents.present.filter (fun e => ¬ store.contains e.id)
  if absent ≠ [] then
    .ok (absent.foldl (fun w e => w.need e.id path (e.kind = .tree)) w)
  else do
    let trees ← ents.mapM (fun e => store.getTree e.id)
    let names := (BTreeSet.ofList
      (trees.present.flatMap (fun t => t.entries.map (·.name)))).toList
    names.foldlM (fun w name => visit (join path name) (trees.bind (·.get name)) w) w

/-- All present entries at `path` are trees. -/
def treeNode (ctx : Context crypto) (store : Store) :
    Nat → String → Three TreeEntry → Walk → Except Error Walk
  | 0, _, _, _ => .error .fuel
  | fuel + 1, path, ents, w =>
    let read := descend store (visit ctx store fuel (treeNode ctx store fuel)) path ents w
    match carryFrom ents with
    | some none => .ok w
    | some (some entry) =>
      if identical ents || !ctx.intersectsRule path then .ok (carry w path entry) else read
    | none => read

/-- `trim_end_matches('/')`. -/
def trimEndSlashes (s : String) : String := String.ofList (s.toList.rdropWhile (· == '/'))

def rootEntry (id : ObjectId) : TreeEntry := ⟨"", .tree, id, .FILE, 0⟩

/-- The carried paths the collision check sees: they count as directories. -/
def carriedPaths : Carried → List String
  | .entries es => es.map (·.1)
  | .root _ => []

def mergeTrees (crypto : PathCrypto) (fuel : Nat) (store : Store) (base : Option Side)
    (ours theirs : Side) (identity : Option crypto.SecretKey) : Except Error TreeMerge := do
  let baseProt := (base.map (·.2)).getD default
  let prots := [ours.2, theirs.2, baseProt]
  let rules := BTreeSet.ofList
    (prots.flatMap (fun p => p.prefixes.map (fun r => trimEndSlashes r.pathPrefix)))
  let ctx : Context crypto := ⟨prots, rules.toList, identity⟩
  let w ← treeNode ctx store fuel ""
    ⟨base.map (fun b => rootEntry b.1), some (rootEntry ours.1), some (rootEntry theirs.1)⟩ {}
  if w.needs ≠ [] then pure (.needs w.needs)
  else do
    let carried := match w.carriedRoot with
      | some id => Carried.root id
      | none => Carried.entries w.carried
    checkPathCollisions (w.acc.files.map (·.path) ++ carriedPaths carried)
    pure (.done ⟨w.acc, carried⟩)

end MergeTree

end SrcControl
