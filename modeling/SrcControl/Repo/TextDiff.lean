import SrcControl.Lib.WholeLines
import SrcControl.Repo.Diff3

/-!
# The displayed diff

The changes between two texts line by line: an edit script from the longest common subsequence,
cut into hunks with three lines of context. Above the budget of the table the script deletes
every old line and adds every new one.
-/

namespace SrcControl.TextDiff

open Diff3 (dpTable dpAt)

inductive Op
  | keep
  | del
  | add
deriving DecidableEq, Repr

def CONTEXT : Nat := 3

def LCS_BUDGET : Nat := 4000000

/-! ## The edit script -/

/-- The walk over the table; `i + j` grows at every turn. -/
def scriptWalk (o n : List String) (dp : List (List Nat)) : Nat → Nat → Nat → List Op
  | 0, _, _ => []
  | fuel + 1, i, j =>
    if i < o.length ∧ j < n.length then
      if o.getD i "" = n.getD j "" then .keep :: scriptWalk o n dp fuel (i + 1) (j + 1)
      else if dpAt dp i (j + 1) ≤ dpAt dp (i + 1) j then .del :: scriptWalk o n dp fuel (i + 1) j
      else .add :: scriptWalk o n dp fuel i (j + 1)
    else List.replicate (o.length - i) .del ++ List.replicate (n.length - j) .add

/-- The product of the lengths saturates far above the budget. -/
def editScript (o n : List String) : List Op :=
  if LCS_BUDGET < o.length * n.length then
    List.replicate o.length .del ++ List.replicate n.length .add
  else scriptWalk o n (dpTable o n) (o.length + n.length + 1) 0 0

/-! ## Hunks -/

/-- A hunk with the 0-based positions of its first lines; each line of the body has its mark. -/
structure Hunk where
  ostart : Nat
  nstart : Nat
  ocount : Nat
  ncount : Nat
  body : List (Op × String)
deriving DecidableEq, Repr

/-- The hunk being filled and the lines of both texts consumed. -/
structure HunkState where
  oline : Nat
  nline : Nat
  ocount : Nat
  ncount : Nat
  body : List (Op × String)

def HunkState.del (o : List String) (st : HunkState) : HunkState :=
  ⟨st.oline + 1, st.nline, st.ocount + 1, st.ncount, st.body ++ [(.del, o.getD st.oline "")]⟩

def HunkState.add (n : List String) (st : HunkState) : HunkState :=
  ⟨st.oline, st.nline + 1, st.ocount, st.ncount + 1, st.body ++ [(.add, n.getD st.nline "")]⟩

def HunkState.context (o : List String) (st : HunkState) : HunkState :=
  ⟨st.oline + 1, st.nline + 1, st.ocount + 1, st.ncount + 1,
    st.body ++ [(.keep, o.getD st.oline "")]⟩

def HunkState.contexts (o : List String) : Nat → HunkState → HunkState
  | 0, st => st
  | k + 1, st => contexts o k (st.context o)

/-- The length of the unchanged run that the script begins with. -/
def keepRun (script : List Op) : Nat := (script.takeWhile (· = .keep)).length

def consumeChanges (o n : List String) : List Op → HunkState → List Op × HunkState
  | .del :: script, st => consumeChanges o n script (st.del o)
  | .add :: script, st => consumeChanges o n script (st.add n)
  | script, st => (script, st)

/-- Changes and interior context until the end or a longer unchanged run, of which the hunk takes
the first lines and the counters the rest. -/
def growHunk (o n : List String) : Nat → List Op → HunkState → List Op × HunkState
  | 0, script, st => (script, st)
  | fuel + 1, script, st =>
    let (script, st) := consumeChanges o n script st
    let run := keepRun script
    if run < script.length ∧ run ≤ 2 * CONTEXT then
      growHunk o n fuel (script.drop run) (st.contexts o run)
    else
      let tail := min run CONTEXT
      let st := st.contexts o tail
      (script.drop run, { st with
        oline := st.oline + (run - tail)
        nline := st.nline + (run - tail) })

/-- One turn skips an unchanged run and makes a hunk. -/
def hunksFrom (o n : List String) : Nat → List Op → Nat → Nat → List Hunk
  | 0, _, _, _ => []
  | fuel + 1, script, oline, nline =>
    let run := keepRun script
    let script := script.drop run
    let oline := oline + run
    let nline := nline + run
    if script = [] then []
    else
      let lead := min CONTEXT (min oline nline)
      let ostart := oline - lead
      let nstart := nline - lead
      let body := (List.range lead).map (fun k => (Op.keep, o.getD (ostart + k) ""))
      let (script, st) := growHunk o n script.length script ⟨oline, nline, lead, lead, body⟩
      ⟨ostart, nstart, st.ocount, st.ncount, st.body⟩ :: hunksFrom o n fuel script st.oline st.nline

def hunks (o n : List String) : List Hunk :=
  hunksFrom o n (editScript o n).length (editScript o n) 0 0

/-! ## The text -/

def Op.mark : Op → String
  | .keep => " "
  | .del => "-"
  | .add => "+"

def Hunk.text (h : Hunk) : String :=
  "@@ -" ++ toString (h.ostart + 1) ++ "," ++ toString h.ocount ++ " +" ++
    toString (h.nstart + 1) ++ "," ++ toString h.ncount ++ " @@\n" ++
    String.join (h.body.map (fun (op, line) => op.mark ++ line ++ "\n"))

/-- `lines()`. -/
def linesOf (s : String) : List String := (LineText.lines s.toList).map String.ofList

def unified (path old new : String) : String :=
  if old = new then ""
  else "--- a/" ++ path ++ "\n+++ b/" ++ path ++ "\n" ++
    String.join ((hunks (linesOf old) (linesOf new)).map Hunk.text)

end SrcControl.TextDiff
