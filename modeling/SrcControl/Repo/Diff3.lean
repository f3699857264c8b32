import SrcControl.Lib.OrderedMap

/-!
# Line-level three-way merge

Each side is diffed against the base into replacement hunks by a longest common
subsequence; hunks of the two sides whose base ranges interact are clustered, and
each cluster is reconciled: one-sided changes and identical changes are taken,
divergent ones are written between markers and flag a conflict.
-/

namespace SrcControl.Diff3

structure Merged where
  text : String
  conflicted : Bool
deriving DecidableEq, Repr

inductive Side
  | ours
  | theirs
deriving DecidableEq, Repr

/-- Base lines `[baseStart, baseEnd)` are replaced by `replacement`. -/
structure Hunk where
  baseStart : Nat
  baseEnd : Nat
  replacement : List String
deriving DecidableEq, Repr

/-- `&xs[lo..hi]`. -/
def slice (xs : List String) (lo hi : Nat) : List String := (xs.drop lo).take (hi - lo)

def splitLines (s : String) : List String × Bool :=
  if s = "" then ([], false)
  else
    let trailing := s.toList.getLast? == some '\n'
    let body := if trailing then s.toList.dropLast else s.toList
    ((body.splitOn '\n').map String.ofList, trailing)

/-- Row `i` of the table from row `i + 1`: entry `j` is the longest common
subsequence length of `base[i..]` and `other[j..]`. -/
def dpRow (x : String) : List String → List Nat → List Nat
  | [], _ => [0]
  | y :: ys, next =>
    let rest := dpRow x ys next.tail
    (if x = y then next.tail.headD 0 + 1 else max (next.headD 0) (rest.headD 0)) :: rest

def dpTable : List String → List String → List (List Nat)
  | [], other => [List.replicate (other.length + 1) 0]
  | x :: xs, other =>
    let below := dpTable xs other
    dpRow x other (below.headD []) :: below

def dpAt (dp : List (List Nat)) (i j : Nat) : Nat := (dp.getD i []).getD j 0

/-- The walk over the table; `i + j` grows at every turn. -/
def matchWalk (base other : List String) (dp : List (List Nat)) :
    Nat → Nat → Nat → List (Option Nat) → List (Option Nat)
  | 0, _, _, res => res
  | fuel + 1, i, j, res =>
    if i < base.length ∧ j < other.length then
      if base.getD i "" = other.getD j "" then
        matchWalk base other dp fuel (i + 1) (j + 1) (res.set i (some j))
      else if dpAt dp i (j + 1) ≤ dpAt dp (i + 1) j then
        matchWalk base other dp fuel (i + 1) j res
      else matchWalk base other dp fuel i (j + 1) res
    else res

def matchMap (base other : List String) : List (Option Nat) :=
  matchWalk base other (dpTable base other) (base.length + other.length) 0 0
    (List.replicate base.length none)

def diffHunks (base other : List String) : List Hunk :=
  let kept : List (Int × Int) := (matchMap base other).zipIdx.filterMap
    (fun (om, bi) => om.map (fun oi => ((bi : Int), (oi : Int))))
  let anchors : List (Int × Int) :=
    (-1, -1) :: kept ++ [((base.length : Int), (other.length : Int))]
  (anchors.zip anchors.tail).filterMap (fun ((pb, po), (cb, co)) =>
    let baseR := slice base (pb + 1).toNat cb.toNat
    let otherR := slice other (po + 1).toNat co.toNat
    if baseR = otherR then none
    else some ⟨(pb + 1).toNat, cb.toNat, otherR⟩)

def interacts (a b : Hunk) : Bool :=
  match decide (a.baseStart = a.baseEnd), decide (b.baseStart = b.baseEnd) with
  | true, true => a.baseStart = b.baseStart
  | true, false => b.baseStart ≤ a.baseStart ∧ a.baseStart ≤ b.baseEnd
  | false, true => a.baseStart ≤ b.baseStart ∧ b.baseStart ≤ a.baseEnd
  | false, false => a.baseStart < b.baseEnd ∧ b.baseStart < a.baseEnd

def findRoot (parent : List Nat) : Nat → Nat → Nat
  | 0, r => r
  | fuel + 1, r => if parent.getD r r = r then r else findRoot parent fuel (parent.getD r r)

def compressPath (r : Nat) : Nat → Nat → List Nat → List Nat
  | 0, _, parent => parent
  | fuel + 1, c, parent =>
    if parent.getD c r = r then parent
    else compressPath r fuel (parent.getD c r) (parent.set c r)

/-- `find` with path compression: the representative and the compressed forest. -/
def find (parent : List Nat) (x : Nat) : Nat × List Nat :=
  let r := findRoot parent parent.length x
  (r, compressPath r parent.length x parent)

def clusterHunks (all : List (Side × Hunk)) : List (List Nat) :=
  let n := all.length
  let pairs := (List.range n).flatMap (fun i =>
    ((List.range n).filter (fun j => i < j)).map (fun j => (i, j)))
  let parent := pairs.foldl (fun parent (i, j) =>
    match all[i]?, all[j]? with
    | some (si, hi), some (sj, hj) =>
      if si ≠ sj ∧ interacts hi hj then
        let (ri, parent) := find parent i
        let (rj, parent) := find parent j
        if ri ≠ rj then parent.set ri rj else parent
      else parent
    | _, _ => parent) (List.range n)
  let (groups, _) := (List.range n).foldl (fun (groups, parent) i =>
    let (r, parent) := find parent i
    (groups.insert r (groups.getD r [] ++ [i]), parent))
    ((∅ : BTreeMap Nat (List Nat)), parent)
  let start := fun c : List Nat =>
    (c.filterMap (fun i => (all[i]?).map (·.2.baseStart))).min?.getD 0
  groups.values.mergeSort (fun a b => decide (start a ≤ start b))

/-- `base[lo..hi]` with one side's hunks of the cluster applied. -/
def applySide (b : List String) (lo hi : Nat) (all : List (Side × Hunk)) (cluster : List Nat)
    (side : Side) : List String :=
  let hunks := (cluster.filterMap (fun i => all[i]?)).filterMap
    (fun (s, h) => if s = side then some h else none)
  let sorted := hunks.mergeSort (fun h h' => decide (h.baseStart < h'.baseStart ∨
    h.baseStart = h'.baseStart ∧ h.baseEnd ≤ h'.baseEnd))
  let (out, cursor) := sorted.foldl (fun (out, cursor) h =>
    (out ++ slice b cursor h.baseStart ++ h.replacement,
      max (max cursor h.baseStart) h.baseEnd)) (([] : List String), lo)
  out ++ slice b cursor hi

structure MergeState where
  out : List String
  conflicted : Bool
  bi : Nat

def reconcile (b : List String) (all : List (Side × Hunk)) (st : MergeState)
    (cluster : List Nat) : MergeState :=
  let hunks := cluster.filterMap (fun i => (all[i]?).map (·.2))
  let lo := (hunks.map (·.baseStart)).min?.getD 0
  let hi := (hunks.map (·.baseEnd)).max?.getD 0
  let out := st.out ++ slice b st.bi lo
  let baseRegion := slice b lo hi
  let oursText := applySide b lo hi all cluster .ours
  let theirsText := applySide b lo hi all cluster .theirs
  if oursText = baseRegion then ⟨out ++ theirsText, st.conflicted, hi⟩
  else if theirsText = baseRegion ∨ oursText = theirsText then
    ⟨out ++ oursText, st.conflicted, hi⟩
  else
    ⟨out ++ ["<<<<<<< ours"] ++ oursText ++ ["======="] ++ theirsText ++ [">>>>>>> theirs"],
      true, hi⟩

def mergeLines (base ours theirs : String) : Merged :=
  let (b, bNl) := splitLines base
  let (o, oNl) := splitLines ours
  let (t, tNl) := splitLines theirs
  let all := (diffHunks b o).map (fun h => (Side.ours, h)) ++
    (diffHunks b t).map (fun h => (Side.theirs, h))
  let st := (clusterHunks all).foldl (reconcile b all) ⟨[], false, 0⟩
  let text := "\n".intercalate (st.out ++ slice b st.bi b.length)
  let trailing := if o ≠ [] then oNl else if t ≠ [] then tNl else bNl
  ⟨if text ≠ "" ∧ trailing then text ++ "\n" else text, st.conflicted⟩

end SrcControl.Diff3
