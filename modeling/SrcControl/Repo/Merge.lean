import SrcControl.Lib.Fallible
import SrcControl.Repo.Diff3
import SrcControl.Repo.TreeEntries

/-!
# Per-path three-way merge

`merge_path` resolves one path's three versions and pushes what it decided onto
an accumulator; `three_way_files` flattens the three trees, resolves every path
in order and refuses a result that makes a name both a file and a directory.
Key unwrapping and path decryption belong to the crypto layer and are parameters.
-/

namespace SrcControl

/-- What the merge asks of the crypto layer. -/
structure PathCrypto where
  SecretKey : Type
  Dek : Type
  unwrapDekWith : WrappedKey → SecretKey → Option Dek
  decryptPath : Bytes → Dek → Option Bytes

structure MergedFile where
  path : String
  mode : FileMode
  bytes : Bytes
  perms : UInt8
  needsEncrypt : Bool
deriving DecidableEq, Repr

/-- Accumulated result of per-path resolution. -/
structure MergeAcc where
  files : List MergedFile := []
  sidecars : List (String × Bytes) := []
  conflicts : List String := []
  wrappedCarry : BTreeMap ObjectId (List WrappedKey) := ∅

namespace Merge

/-- Pushes made before a failing read stay in the accumulator. -/
abbrev MergeM := EStateM Error MergeAcc

def pushFile (f : MergedFile) : MergeM Unit :=
  modify (fun acc => { acc with files := acc.files ++ [f] })

def pushSidecar (path : String) (bytes : Bytes) : MergeM Unit :=
  modify (fun acc => { acc with sidecars := acc.sidecars ++ [(path, bytes)] })

def pushConflict (path : String) : MergeM Unit :=
  modify (fun acc => { acc with conflicts := acc.conflicts ++ [path] })

def carryWraps (id : ObjectId) (wraps : List WrappedKey) : MergeM Unit :=
  modify (fun acc => { acc with wrappedCarry := acc.wrappedCarry.insert id wraps })

/-- `?` on a read. -/
def try_ {α : Type} : Except Error α → MergeM α
  | .ok a => pure a
  | .error e => throw e

def fromUtf8 (bs : Bytes) : Option String := String.fromUTF8? ⟨bs.toArray⟩

def intoBytes (s : String) : Bytes := s.toUTF8.toList

def mergeMode (b o t : Option FileMode) : FileMode :=
  match o, t with
  | some om, some tm =>
    if om = tm then om
    else if some om = b then tm
    else if some tm = b then om
    else if om = .EXEC ∨ tm = .EXEC then .EXEC
    else .FILE
  | some m, none => m
  | none, some m => m
  | none, none => .FILE

def plain (path : String) (mode : FileMode) (bytes : Bytes) : MergedFile :=
  ⟨path, mode, bytes, 0, false⟩

/-- First occurrence of a recipient wins; the union is sorted by recipient. -/
def unionWraps (a b : List WrappedKey) : List WrappedKey :=
  let out := (a ++ b).foldl (fun (out : List WrappedKey) w =>
    if out.any (fun existing => existing.recipientId = w.recipientId) then out
    else out ++ [w]) []
  out.mergeSort (fun x y => (compare x.recipientId y.recipientId).isLE)

def knownWraps (prots : List Protection) (id : ObjectId) : List WrappedKey :=
  prots.foldl (fun wraps p =>
    match p.wrapped[id]? with
    | some w => unionWraps wraps w
    | none => wraps) []

section Paths

variable (crypto : PathCrypto)

/-- The first wrap that unwraps decides: a decryption that fails after it is
corruption, not missing access. -/
def decryptWith (ciphertext : Bytes) (blobId : ObjectId) (prots : List Protection)
    (identity : crypto.SecretKey) (path : String) : Except Error Bytes :=
  let wraps := prots.flatMap (fun p => (p.wrapped[blobId]?).getD [])
  match wraps.findSome? (fun w => crypto.unwrapDekWith w identity) with
  | some dek =>
    match crypto.decryptPath ciphertext dek with
    | some bytes => .ok bytes
    | none => .error .crypto
  | none => .error (.notAuthorized path)

/-- The identity is required before the blob is read. -/
def plainInput (store : Store) (entry : FileEntry) (prots : List Protection)
    (identity : Option crypto.SecretKey) (path : String) : Except Error Bytes :=
  if entry.perms &&& PROTECTED = 0 then store.blobBytes entry.id
  else
    match identity with
    | none => .error (.protectedMergeNeedsIdentity path)
    | some sk => do
      let bytes ← store.blobBytes entry.id
      decryptWith crypto bytes entry.id prots sk path

def pushConflictIf (conflicted : Bool) (path : String) : MergeM Unit :=
  if conflicted then pushConflict path else pure ()

/-- The base's bytes, or none. -/
def readBase (read : FileEntry → Except Error Bytes) : Option FileEntry → Except Error Bytes
  | some be => read be
  | none => .ok []

/-- Both sides changed the content: diff3 on text, otherwise keep ours and write
theirs beside it. -/
def mergeContents (path : String) (mode : FileMode) (perms : UInt8) (needsEncrypt : Bool)
    (ob tb bb : Bytes) : MergeM Unit :=
  match fromUtf8 ob, fromUtf8 tb with
  | some os, some ts => do
    let baseText := (fromUtf8 bb).getD ""
    let m := Diff3.mergeLines baseText os ts
    pushConflictIf m.conflicted path
    pushFile ⟨path, mode, intoBytes m.text, perms, needsEncrypt⟩
  | _, _ => do
    pushConflict path
    pushSidecar (path ++ ".theirs") tb
    pushFile ⟨path, mode, ob, perms, needsEncrypt⟩

/-- The entry that survives a plain resolution, if there is one. -/
def takePlain (store : Store) (path : String) (mode : FileMode) (w : Option FileEntry) :
    MergeM Unit :=
  match w with
  | none => pure ()
  | some e => do
    let bytes ← try_ (store.blobBytes e.id)
    pushFile (plain path mode bytes)

/-- The all-plain arm. -/
def mergePlain (store : Store) (path : String) (b o t : Option FileEntry) : MergeM Unit := do
  let mode := mergeMode (b.map (·.mode)) (o.map (·.mode)) (t.map (·.mode))
  let bid := b.map (·.id)
  let oid := o.map (·.id)
  let tid := t.map (·.id)
  if oid = tid then takePlain store path mode o
  else if oid = bid then takePlain store path mode t
  else if tid = bid then takePlain store path mode o
  else
    match o, t with
    | some oe, some te => do
      let ob ← try_ (store.blobBytes oe.id)
      let tb ← try_ (store.blobBytes te.id)
      let bb ← try_ (readBase (fun be => store.blobBytes be.id) b)
      mergeContents path mode 0 false ob tb bb
    | some e, none | none, some e => do
      pushConflict path
      let bytes ← try_ (store.blobBytes e.id)
      pushFile (plain path e.mode bytes)
    -- unreachable: equal ids are settled above
    | none, none => pure ()

/-- Blob id and `PROTECTED` bit: what a protected path is compared by. -/
def protKey (e : FileEntry) : ObjectId × UInt8 := (e.id, e.perms &&& PROTECTED)

/-- A blob no input policy knows gets no entry. -/
def carryKnownWraps (prots : List Protection) (e : FileEntry) : MergeM Unit :=
  if e.perms &&& PROTECTED ≠ 0 then
    let wraps := knownWraps prots e.id
    if wraps ≠ [] then carryWraps e.id wraps else pure ()
  else pure ()

/-- Carry the winner's raw bytes with the wraps known for it. -/
def takeWinner (store : Store) (path : String) (mode : FileMode) (prots : List Protection)
    (w : Option FileEntry) : MergeM Unit :=
  match w with
  | none => pure ()
  | some e => do
    carryKnownWraps prots e
    let bytes ← try_ (store.blobBytes e.id)
    pushFile ⟨path, mode, bytes, e.perms, false⟩

/-- The protected arm. -/
def mergeProtected (store : Store) (path : String) (b o t : Option FileEntry)
    (prots : List Protection) (identity : Option crypto.SecretKey) : MergeM Unit := do
  let mode := mergeMode (b.map (·.mode)) (o.map (·.mode)) (t.map (·.mode))
  let bk := b.map protKey
  let ok := o.map protKey
  let tk := t.map protKey
  if ok = tk then takeWinner store path mode prots o
  else if ok = bk then takeWinner store path mode prots t
  else if tk = bk then takeWinner store path mode prots o
  else
    match o, t with
    | some oe, some te => do
      let perms := (oe.perms ||| te.perms) &&& PROTECTED
      let ob ← try_ (plainInput crypto store oe prots identity path)
      let tb ← try_ (plainInput crypto store te prots identity path)
      let bb ← try_ (readBase (fun be => plainInput crypto store be prots identity path) b)
      mergeContents path mode perms (perms ≠ 0) ob tb bb
    | some e, none | none, some e => do
      pushConflict path
      let perms := e.perms &&& PROTECTED
      let bytes ← try_ (plainInput crypto store e prots identity path)
      pushFile ⟨path, e.mode, bytes, perms, perms ≠ 0⟩
    | none, none => pure ()

def mergePath (store : Store) (path : String) (b o t : Option FileEntry)
    (prots : List Protection) (identity : Option crypto.SecretKey) : MergeM Unit :=
  if ¬ [b, o, t].reduceOption.any (fun e => e.perms &&& PROTECTED ≠ 0) then
    mergePlain store path b o t
  else mergeProtected crypto store path b o t prots identity

/-- Refuse paths of which one lies below another, naming the one above. -/
def checkPathCollisions (paths : List String) : Except Error Unit :=
  let set := BTreeSet.ofList paths
  set.toList.forM (fun p => (SlashPath.ancestors p).forM (fun ancestor =>
    if set.contains ancestor then .error (.pathCollision ancestor) else .ok ()))

/-- A root tree with its snapshot's protection policy. -/
abbrev Side := ObjectId × Protection

/-- The base's files; no base reads as the empty tree. -/
def baseEntries (fuel : Nat) (store : Store) : Option Side → Except Error FileMap
  | some (r, _) => TreeEntries.treeFileEntriesWithPerms fuel store r
  | none => .ok ∅

def threeWayFiles (fuel : Nat) (store : Store) (base : Option Side) (ours theirs : Side)
    (identity : Option crypto.SecretKey) : Except Error MergeAcc := do
  let baseF ← baseEntries fuel store base
  let baseProt := (base.map (·.2)).getD default
  let oursF ← TreeEntries.treeFileEntriesWithPerms fuel store ours.1
  let theirsF ← TreeEntries.treeFileEntriesWithPerms fuel store theirs.1
  let prots := [ours.2, theirs.2, baseProt]
  let paths := (BTreeSet.ofList (baseF.keys ++ oursF.keys ++ theirsF.keys)).toList
  let run := paths.forM (fun path =>
    mergePath crypto store path baseF[path]? oursF[path]? theirsF[path]? prots identity)
  match run {} with
  | .ok _ acc => do
    checkPathCollisions (acc.files.map (·.path))
    pure acc
  | .error e _ => .error e

end Paths

/-- The check passes exactly when no path lies below another. -/
theorem checkPathCollisions_ok_iff {paths : List String} :
    checkPathCollisions paths = .ok () ↔
      ∀ p ∈ paths, ∀ a ∈ SlashPath.ancestors p, a ∉ paths := by
  simp only [checkPathCollisions, Fallible.forM_ok_iff, BTreeSet.mem_toList_ofList]
  refine forall₂_congr (fun p _ => forall₂_congr (fun a _ => ?_))
  rw [← BTreeSet.mem_ofList paths a, ← Std.ExtTreeSet.contains_iff_mem]
  cases (BTreeSet.ofList paths).contains a <;> simp

theorem checkPathCollisions_error {paths : List String} {e : Error}
    (h : checkPathCollisions paths = .error e) : ∃ p, e = .pathCollision p := by
  obtain ⟨p, _, h⟩ := Fallible.forM_error h
  obtain ⟨a, _, h⟩ := Fallible.forM_error h
  split_ifs at h
  cases h
  exact ⟨a, rfl⟩

namespace MergeAcc

def append (a b : MergeAcc) : MergeAcc :=
  ⟨a.files ++ b.files, a.sidecars ++ b.sidecars, a.conflicts ++ b.conflicts,
    a.wrappedCarry ∪ b.wrappedCarry⟩

theorem union_empty (m : BTreeMap ObjectId (List WrappedKey)) : m ∪ ∅ = m := by
  apply Std.ExtTreeMap.ext_getElem?
  intro k
  simp [Std.ExtTreeMap.getElem?_union]

theorem append_empty (a : MergeAcc) : append a {} = a := by
  simp [append, union_empty]

theorem append_assoc (a b c : MergeAcc) : append (append a b) c = append a (append b c) := by
  simp only [append, List.append_assoc, MergeAcc.mk.injEq, true_and]
  apply Std.ExtTreeMap.ext_getElem?
  intro k
  simp only [Std.ExtTreeMap.getElem?_union, Option.or_assoc]

end MergeAcc

theorem bind_run {α β : Type} (m : MergeM α) (f : α → MergeM β) (acc : MergeAcc) :
    (m >>= f) acc = match m acc with
      | .ok x a => f x a
      | .error e a => .error e a := by
  change EStateM.bind m f acc = _
  unfold EStateM.bind
  cases m acc <;> rfl

/-- `m` only adds to the accumulator, and adds the same whatever is there. -/
def AppendOnly {α : Type} (m : MergeM α) : Prop :=
  ∀ acc, m acc = match m {} with
    | .ok x d => .ok x (MergeAcc.append acc d)
    | .error e d => .error e (MergeAcc.append acc d)

namespace AppendOnly

variable {α β : Type}

theorem pure (x : α) : AppendOnly (pure x : MergeM α) := by
  intro acc
  change EStateM.Result.ok x acc = EStateM.Result.ok x (MergeAcc.append acc {})
  rw [MergeAcc.append_empty]

theorem throw (e : Error) : AppendOnly (throw e : MergeM α) := by
  intro acc
  change EStateM.Result.error e acc = EStateM.Result.error e (MergeAcc.append acc {})
  rw [MergeAcc.append_empty]

theorem try_ (x : Except Error α) : AppendOnly (Merge.try_ x) := by
  cases x with
  | error e => exact throw e
  | ok a => exact pure a

theorem bind {m : MergeM α} {f : α → MergeM β} (hm : AppendOnly m) (hf : ∀ a, AppendOnly (f a)) :
    AppendOnly (m >>= f) := by
  intro acc
  rw [bind_run, bind_run, hm acc]
  cases m {} with
  | error e d => rfl
  | ok x d =>
    simp only
    rw [hf x (MergeAcc.append acc d), hf x d]
    cases f x {} <;> simp only [MergeAcc.append_assoc]

theorem ite {c : Prop} [Decidable c] {m m' : MergeM α} (hm : AppendOnly m) (hm' : AppendOnly m') :
    AppendOnly (if c then m else m') := by
  split_ifs
  · exact hm
  · exact hm'

theorem pushFile (f : MergedFile) : AppendOnly (Merge.pushFile f) := by
  intro acc
  simp [Merge.pushFile, modify, modifyGet, MonadStateOf.modifyGet, EStateM.modifyGet,
    MergeAcc.append, MergeAcc.union_empty]

theorem pushSidecar (p : String) (b : Bytes) : AppendOnly (Merge.pushSidecar p b) := by
  intro acc
  simp [Merge.pushSidecar, modify, modifyGet, MonadStateOf.modifyGet, EStateM.modifyGet,
    MergeAcc.append, MergeAcc.union_empty]

theorem pushConflict (p : String) : AppendOnly (Merge.pushConflict p) := by
  intro acc
  simp [Merge.pushConflict, modify, modifyGet, MonadStateOf.modifyGet, EStateM.modifyGet,
    MergeAcc.append, MergeAcc.union_empty]

theorem carryWraps (id : ObjectId) (ws : List WrappedKey) : AppendOnly (Merge.carryWraps id ws) := by
  intro acc
  simp only [Merge.carryWraps, modify, modifyGet, MonadStateOf.modifyGet, EStateM.modifyGet,
    MergeAcc.append, List.append_nil]
  congr 2
  apply Std.ExtTreeMap.ext_getElem?
  intro k
  simp only [Std.ExtTreeMap.getElem?_union, BTreeMap.getElem?_insert]
  split_ifs <;> simp

theorem forM {xs : List α} {f : α → MergeM PUnit} (h : ∀ a, AppendOnly (f a)) :
    AppendOnly (xs.forM f) := by
  induction xs with
  | nil => exact pure _
  | cons a as ih => exact bind (h a) (fun _ => ih)

end AppendOnly

section Frames

variable {crypto : PathCrypto} {store : Store} {path : String} {mode : FileMode} {perms : UInt8}
  {needsEncrypt : Bool} {ob tb bb : Bytes} {prots : List Protection} {b o t w : Option FileEntry}
  {identity : Option crypto.SecretKey}

theorem mergeContents_appendOnly :
    AppendOnly (mergeContents path mode perms needsEncrypt ob tb bb) := by
  unfold mergeContents
  split
  · exact .bind (.ite (.pushConflict _) (.pure _)) (fun _ => .pushFile _)
  · exact .bind (.pushConflict _) (fun _ => .bind (.pushSidecar _ _) (fun _ => .pushFile _))

theorem takePlain_appendOnly : AppendOnly (takePlain store path mode w) := by
  cases w with
  | none => exact .pure _
  | some e => exact .bind (.try_ _) (fun _ => .pushFile _)

theorem takeWinner_appendOnly : AppendOnly (takeWinner store path mode prots w) := by
  cases w with
  | none => exact .pure _
  | some e =>
    refine .bind (.ite (.ite (.carryWraps _ _) (.pure _)) (.pure _)) (fun _ => ?_)
    exact .bind (.try_ _) (fun _ => .pushFile _)

theorem mergePlain_appendOnly : AppendOnly (mergePlain store path b o t) := by
  unfold mergePlain
  refine .ite takePlain_appendOnly (.ite takePlain_appendOnly (.ite takePlain_appendOnly ?_))
  cases o with
  | none =>
    cases t with
    | none => exact .pure _
    | some te => exact .bind (.pushConflict _) (fun _ => .bind (.try_ _) (fun _ => .pushFile _))
  | some oe =>
    cases t with
    | none => exact .bind (.pushConflict _) (fun _ => .bind (.try_ _) (fun _ => .pushFile _))
    | some te =>
      exact .bind (.try_ _) (fun _ => .bind (.try_ _) (fun _ => .bind (.try_ _)
        (fun _ => mergeContents_appendOnly)))

theorem mergeProtected_appendOnly :
    AppendOnly (mergeProtected crypto store path b o t prots identity) := by
  unfold mergeProtected
  refine .ite takeWinner_appendOnly (.ite takeWinner_appendOnly (.ite takeWinner_appendOnly ?_))
  cases o with
  | none =>
    cases t with
    | none => exact .pure _
    | some te => exact .bind (.pushConflict _) (fun _ => .bind (.try_ _) (fun _ => .pushFile _))
  | some oe =>
    cases t with
    | none => exact .bind (.pushConflict _) (fun _ => .bind (.try_ _) (fun _ => .pushFile _))
    | some te =>
      exact .bind (.try_ _) (fun _ => .bind (.try_ _) (fun _ => .bind (.try_ _)
        (fun _ => mergeContents_appendOnly)))

/-- Resolving a path only adds to the accumulator, whatever was resolved before it. -/
theorem mergePath_appendOnly :
    AppendOnly (mergePath crypto store path b o t prots identity) :=
  .ite mergePlain_appendOnly mergeProtected_appendOnly

end Frames

end Merge

end SrcControl
