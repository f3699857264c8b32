import SrcControl.Repo.Materialize
import SrcControl.Repo.Reachable

/-!
# Reachability under a path filter and a size limit

The walk of the strict reachability narrowed to what a filtered clone asks for. A subtree
outside the filter and a blob outside it are gaps, never read. Under a limit a blob of that
size is a gap too, unless a tip's own tree holds it or the receiver does.
-/

namespace SrcControl

open SlashPath MergeTree

/-- The predicate on paths that a filtered walk needs. -/
structure PrefixFilter where
  matchesPath : String → Bool
  shouldDescend : String → Bool

namespace Promisor

/-- `should_descend`. -/
def shouldDescend (p : Promisor) (path : String) : Bool :=
  match p.scope with
  | .allPaths => true
  | .prefixes ps => path = "" || p.matchesPath path ||
      ps.any (fun q => startsWith (trimEndSlashes q) (path ++ "/"))

def filter (p : Promisor) : PrefixFilter := ⟨p.matchesPath, p.shouldDescend⟩

end Promisor

namespace Store

/-- `blob_size`. -/
def blobSize (s : Store) (id : ObjectId) : Except Error Nat := do
  match ← s.get id with
  | .blob b => .ok b.length
  | _ => .error (.core (.wrongKind id "blob"))

end Store

namespace Reachable

/-- `Reachable`: the ids taken, and those referenced but left out. -/
structure Limited where
  included : BTreeSet ObjectId
  gaps : BTreeSet ObjectId

def u64Max : Nat := 2 ^ 64 - 1

abbrev Verdicts := BTreeMap ObjectId Bool

/-- The rule for blob sizes in the walk of one snapshot's tree. -/
structure SizeGate where
  limit : Nat
  exempt : Bool
  held : BTreeSet ObjectId

namespace SizeGate

def measure (g : SizeGate) (s : Store) (verdicts : Verdicts) (id : ObjectId) :
    Except Error (Bool × Verdicts) :=
  match verdicts[id]? with
  | some keep => .ok (keep, verdicts)
  | none => do
    let size ← s.blobSize id
    .ok (decide (size < g.limit), verdicts.insert id (decide (size < g.limit)))

/-- `keeps`. -/
def keeps (g : SizeGate) (s : Store) (verdicts : Verdicts) (id : ObjectId) :
    Except Error (Bool × Verdicts) :=
  if g.exempt || g.held.contains id then .ok (true, verdicts)
  else if g.limit = 0 then .ok (false, verdicts)
  else if g.limit = u64Max then .ok (true, verdicts)
  else g.measure s verdicts id

end SizeGate

/-- A tree and the path it is met at. -/
abbrev Node := ObjectId × String

/-- The state of the descent from one root. -/
structure TreeWalk where
  stack : List Node
  included : BTreeSet ObjectId
  gaps : BTreeSet ObjectId
  expanded : Finset Node
  sizes : Verdicts

namespace TreeWalk

/-- A subtree in scope is taken, and expanded once at each path. -/
def push (w : TreeWalk) (n : Node) : TreeWalk :=
  if n ∈ w.expanded then { w with included := w.included.insert n.1 }
  else { w with
    stack := n :: w.stack
    included := w.included.insert n.1
    expanded := insert n w.expanded }

def gap (w : TreeWalk) (id : ObjectId) : TreeWalk := { w with gaps := w.gaps.insert id }

def take (w : TreeWalk) (id : ObjectId) : TreeWalk := { w with included := w.included.insert id }

def settleBlob (w : TreeWalk) (id : ObjectId) (verdict : Bool × Verdicts) : TreeWalk :=
  if verdict.1 then { w with sizes := verdict.2 }.take id
  else { w with sizes := verdict.2 }.gap id

end TreeWalk

variable (s : Store) (f : PrefixFilter)

/-- Whether the blob `id` at `path` is kept. One that is taken already is not measured. -/
def keepBlob (gate : Option SizeGate) (w : TreeWalk) (path : String) (id : ObjectId) :
    Except Error (Bool × Verdicts) :=
  if f.matchesPath path then
    match gate with
    | some g => if w.included.contains id then .ok (true, w.sizes) else g.keeps s w.sizes id
    | none => .ok (true, w.sizes)
  else .ok (false, w.sizes)

def sizedEntry (gate : Option SizeGate) (path : String) (w : TreeWalk) (e : TreeEntry) :
    Except Error TreeWalk :=
  match e.kind with
  | .blob => do
    let verdict ← keepBlob s f gate w (join path e.name) e.id
    .ok (w.settleBlob e.id verdict)
  | .tree =>
    if f.shouldDescend (join path e.name) then .ok (w.push (e.id, join path e.name))
    else .ok (w.gap e.id)

def walkTreeSizedLoop (gate : Option SizeGate) : Nat → TreeWalk → Except Error TreeWalk
  | 0, _ => .error .fuel
  | fuel + 1, w =>
    match w.stack with
    | [] => .ok w
    | n :: stack => do
      match ← s.get n.1 with
      | .tree t =>
        let w ← t.entries.foldlM (sizedEntry s f gate n.2) { w with stack := stack }
        walkTreeSizedLoop gate fuel w
      | _ => .error (.badRef ("expected tree " ++ n.1.short))

/-- What the walks of one request share beside `included`. -/
structure SizedState where
  gaps : BTreeSet ObjectId
  expanded : Finset Node
  sizes : Verdicts

/-- `walk_tree_sized`. Without a filter it is `walk_tree`, where no path matters and the
gate on `included` alone decides what is expanded. -/
def walkTreeSized (fuel : Nat) (filter : Option PrefixFilter) (gate : Option SizeGate)
    (root : ObjectId) (included : BTreeSet ObjectId) (st : SizedState) :
    Except Error (BTreeSet ObjectId × SizedState) :=
  match filter with
  | none => do pure (← walkTree s fuel root included, st)
  | some f => do
    let w : TreeWalk := ⟨[], included, st.gaps, st.expanded, st.sizes⟩
    let w ← walkTreeSizedLoop s f gate fuel (w.push (root, ""))
    pure (w.included, ⟨w.gaps, w.expanded, w.sizes⟩)

def sizeGate (tips : List ObjectId) (limit : Option Nat) (held : BTreeSet ObjectId)
    (snapshot : ObjectId) : Option SizeGate :=
  limit.map (fun limit => ⟨limit, tips.contains snapshot, held⟩)

def reachableObjectsLimited (fuel : Nat) (tips : List ObjectId) (filter : Option PrefixFilter)
    (limit : Option Nat) (held : BTreeSet ObjectId) : Except Error Limited :=
  if limit.isSome && filter.isNone then
    .error (.invalidArgument "blob limit without a path filter")
  else do
    let (queue, included) := markNew tips [] ∅
    let (included, st) ← walkSnapshots s (fun sid root included st =>
      walkTreeSized s fuel filter (sizeGate tips limit held sid) root included st)
      fuel queue included ⟨∅, ∅, ∅⟩
    pure ⟨included, st.gaps.filter (fun id => !included.contains id)⟩

end Reachable

end SrcControl
