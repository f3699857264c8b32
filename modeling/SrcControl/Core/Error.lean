import SrcControl.Core.Object

/-!
# Errors

The error values of the store and of the repository layer, with the payloads the
source puts in them. A text that only formats a value is replaced by the value:
`hashMismatch` is a `PackCorrupt`, `invalidBranchName` and `invalidRemoteRef` are
`BadRef`s, and `io` is any failure of the file system. `fuel` has no counterpart in the source: a recursion here
carries a bound, and every result about a run supplies one that is large enough.
-/

namespace SrcControl

/-- `hex::encode`. -/
def hexDigit (n : Nat) : Char := "0123456789abcdef".toList.getD n '0'

def hexEncode (bs : Bytes) : String :=
  String.ofList (bs.flatMap (fun b => [hexDigit (b.toNat / 16), hexDigit (b.toNat % 16)]))

/-- First 12 hex characters: how an id is displayed. -/
def ObjectId.short (id : ObjectId) : String := hexEncode (id.bytes.take 6)

inductive CoreError
  | notFound (id : ObjectId)
  | wrongKind (id : ObjectId) (expected : String)
  | malformed (msg : String)
  | packCorrupt (msg : String)
  | hashMismatch (expected actual : ObjectId)
  | badPackIndex (msg : String)
  | io
deriving DecidableEq, Repr

/-- One secret the scanner found in a plain file. -/
structure Finding where
  path : String
  rule : String
  blobId : ObjectId
  line : Nat
deriving DecidableEq, Repr

inductive Error
  | core (e : CoreError)
  | corruptObject (id : ObjectId)
  | badRef (msg : String)
  | invalidBranchName (name : String)
  | invalidRemoteRef (remote branch : String)
  | noSuchBranch (branch : String)
  | notProtected (pre : String)
  | unborn
  | nonFastForward
  | noSuchRemote (remote : String)
  | pushGap (id referrer : ObjectId)
  | mergeInProgress
  | pickInProgress
  | rebaseInProgress
  | nothingToUndo
  | remote (msg : String)
  | wal (msg : String)
  | invalidArgument (msg : String)
  | notAuthorized (path : String)
  | crypto
  | protectedMergeNeedsIdentity (path : String)
  | pathCollision (path : String)
  | pathNotFound (path : String)
  | fileDirCollision (file child : String)
  | protocol (msg : String)
  | upToDate
  | noCommonAncestor
  | mergeConflicts (n : Nat)
  | secretMergeConflict (name : String)
  | cannotReplayMerge (id : ObjectId) (msg : String)
  | pickConflicts (n : Nat)
  | secretDetected (findings : List Finding)
  | privateNoAccess (branch : String)
  | privateUnsupported (op : String)
  | privateIntegration (branch : String)
  | notPrivateBranch (branch : String)
  | gapInView (path pre : String) (blobLimit : Option UInt64)
  | fuel
deriving DecidableEq, Repr

end SrcControl
