import SrcControl.Core.Store

/-!
# Ancestry

The inclusive ancestor set of a tip: snapshots contribute their parents, branch
manifests their superseded manifest and their public base.
-/

namespace SrcControl.Ancestry

def kindName : Object → String
  | .blob _ => "blob"
  | .tree _ => "tree"
  | .snapshot _ => "snapshot"
  | .secret _ => "secret"
  | .signature _ => "signature"
  | .transcript _ => "transcript"
  | .sealed _ => "sealed"
  | .manifest _ => "manifest"

def parents (id : ObjectId) : Object → Except Error (List ObjectId)
  | .snapshot s => .ok s.parents
  | .manifest m => .ok (m.prev.toList ++ [m.base])
  | other => .error (.badRef ("expected snapshot or manifest at " ++ id.short ++ ", found " ++
      kindName other))

/-- Queue the parents seen for the first time. -/
def enqueue (ps : List ObjectId) (queue : List ObjectId) (set : BTreeSet ObjectId) :
    List ObjectId × BTreeSet ObjectId :=
  ps.foldl (fun (queue, set) p =>
    if set.contains p then (queue, set) else (queue ++ [p], set.insert p)) (queue, set)

def ancestorsLoop (s : Store) :
    Nat → List ObjectId → BTreeSet ObjectId → Except Error (BTreeSet ObjectId)
  | 0, _, _ => .error .fuel
  | _ + 1, [], set => .ok set
  | fuel + 1, cur :: queue, set => do
    let ps ← parents cur (← s.get cur)
    let (queue, set) := enqueue ps queue set
    ancestorsLoop s fuel queue set

def ancestors (fuel : Nat) (s : Store) (id : ObjectId) : Except Error (BTreeSet ObjectId) :=
  ancestorsLoop s fuel [id] (BTreeSet.ofList [id])

/-- Whether `anc` is an ancestor of (or equal to) `desc`. -/
def isAncestor (fuel : Nat) (s : Store) (anc desc : ObjectId) : Except Error Bool := do
  pure ((← ancestors fuel s desc).contains anc)

def mergeBaseLoop (s : Store) (aAnc : BTreeSet ObjectId) :
    Nat → List ObjectId → BTreeSet ObjectId → Except Error (Option ObjectId)
  | 0, _, _ => .error .fuel
  | _ + 1, [], _ => .ok none
  | fuel + 1, id :: q, seen =>
    if aAnc.contains id then .ok (some id)
    else do
      let sn ← s.getSnapshot id
      let (q, seen) := enqueue sn.parents q seen
      mergeBaseLoop s aAnc fuel q seen

/-- The first ancestor of `b`, breadth first, that is an ancestor of `a`. -/
def mergeBase (fuel : Nat) (s : Store) (a b : ObjectId) : Except Error (Option ObjectId) := do
  mergeBaseLoop s (← ancestors fuel s a) fuel [b] (BTreeSet.ofList [b])

end SrcControl.Ancestry
