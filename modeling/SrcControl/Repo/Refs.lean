import SrcControl.Core.Error
import SrcControl.Lib.SlashPath

/-!
# Refs

Branch refs, remote-tracking refs and the symbolic `HEAD`. A ref file is one map
entry, since every ref write is a temp file and a rename. A remote-tracking ref is
keyed by its path `<remote>/<branch>` under `refs/remotes`.
-/

namespace SrcControl

structure Refs where
  heads : BTreeMap String ObjectId
  remotes : BTreeMap String ObjectId
  head : String

namespace Refs

/-- `char::is_whitespace`: the code points with the White_Space property. -/
def isWhitespace (c : Char) : Bool :=
  (9 ≤ c.toNat && c.toNat ≤ 13) || (0x2000 ≤ c.toNat && c.toNat ≤ 0x200a) ||
    [0x20, 0x85, 0xa0, 0x1680, 0x2028, 0x2029, 0x202f, 0x205f, 0x3000].contains c.toNat

/-- `char::is_control`: the general category Cc. -/
def isControl (c : Char) : Bool := c.toNat ≤ 0x1f || (0x7f ≤ c.toNat && c.toNat ≤ 0x9f)

/-- `name.contains(pat)`. -/
def containsText (name pat : String) : Bool :=
  name.toList.tails.any (fun rest => pat.toList.isPrefixOf rest)

def validateBranchName (name : String) : Except Error Unit :=
  if name = "" ∨ name = "." ∨ name = ".." ∨ SlashPath.startsWith name "." ∨ '/' ∈ name.toList ∨
      '\\' ∈ name.toList ∨ name.toList.any (fun c => isWhitespace c || isControl c) then
    .error (.invalidBranchName name)
  else .ok ()

/-- The components of a path, empty ones included: `s.split('/')`. -/
def components (s : String) : List String :=
  (s.toList.splitOn '/').map String.ofList

def isUnsafeRefComponent (s : String) : Bool :=
  s = "" || SlashPath.startsWith s "." || s.toList.contains '\\' ||
    (components s).any (fun c => c = "" || c = "..") ||
    s.toList.any (fun c => isWhitespace c || isControl c)

def readBranchTip (r : Refs) (branch : String) : Except Error (Option ObjectId) := do
  validateBranchName branch
  pure r.heads[branch]?

def writeBranchTip (r : Refs) (branch : String) (id : ObjectId) : Except Error Refs := do
  validateBranchName branch
  pure { r with heads := r.heads.insert branch id }

def writeHead (r : Refs) (branch : String) : Except Error Refs := do
  validateBranchName branch
  pure { r with head := branch }

def writeRemoteTip (r : Refs) (remote branch : String) (id : ObjectId) : Except Error Refs :=
  if isUnsafeRefComponent remote || isUnsafeRefComponent branch then
    .error (.invalidRemoteRef remote branch)
  else .ok { r with remotes := r.remotes.insert (remote ++ "/" ++ branch) id }

def headTip (r : Refs) : Except Error (Option ObjectId) := r.readBranchTip r.head

/-- `list_heads`: names that look like a temp file are skipped. -/
def listHeads (r : Refs) : List (String × ObjectId) :=
  r.heads.toList.filter (fun h => !containsText h.1 ".tmp")

/-- `list_remote_tips`: the files exactly two levels deep, temp files skipped. -/
def listRemoteTips (r : Refs) : List (String × ObjectId) :=
  r.remotes.toList.filter (fun h =>
    match components h.1 with
    | [_, branch] => !containsText branch ".tmp"
    | _ => false)

/-- `LocalTransport::list_refs`: every file of `refs/heads`, by name. -/
def listRefs (r : Refs) : List (String × ObjectId) := r.heads.toList

theorem readBranchTip_eq_ok {r : Refs} {branch : String} {tip : Option ObjectId}
    (h : r.readBranchTip branch = .ok tip) : r.heads[branch]? = tip := by
  unfold readBranchTip at h
  cases hv : validateBranchName branch with
  | error e =>
    rw [hv] at h
    cases h
  | ok u =>
    rw [hv] at h
    cases h
    rfl

theorem writeBranchTip_eq_ok {r r' : Refs} {branch : String} {id : ObjectId}
    (h : r.writeBranchTip branch id = .ok r') :
    r' = { r with heads := r.heads.insert branch id } := by
  unfold writeBranchTip at h
  cases hv : validateBranchName branch with
  | error e =>
    rw [hv] at h
    cases h
  | ok u =>
    rw [hv] at h
    cases h
    rfl

theorem writeRemoteTip_eq_ok {r r' : Refs} {remote branch : String} {id : ObjectId}
    (h : r.writeRemoteTip remote branch id = .ok r') :
    r' = { r with remotes := r.remotes.insert (remote ++ "/" ++ branch) id } := by
  unfold writeRemoteTip at h
  split_ifs at h
  cases h
  rfl

end Refs

end SrcControl
