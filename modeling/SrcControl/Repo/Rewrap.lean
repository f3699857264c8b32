import SrcControl.Repo.AccessOps

/-!
# Rewrapping the tip

`sc rewrap` reseals every secret and gives every protected blob of the tip the wraps its rule and
the escrows ask for. Files are taken in path order, wraps are kept by blob: a randomized blob is
rewrapped in place, once for each path that has it, and a convergent one, or any one when the run
rotates, is resealed to a blob of the path's own. Wraps of blobs no file has any more go last.
-/

namespace SrcControl.Rewrap

open TreeEntries Fallible AccessOps
open OpLog (OpM)

/-- What a rewrap asks beyond a grant: secrets, the texts of the crypto layer's errors, and the
error of `open_protected_cache` where the cache cannot be read. -/
structure RewrapEnv (crypto : SealCrypto) extends AccessEnv crypto where
  openSecret : Secret → crypto.SecretKey → Option Bytes
  sealSecret : Nat → String → Bytes → List Bytes → Secret
  wrapFault : WrappedKey → crypto.SecretKey → String
  cipherFault : Bytes → crypto.Dek → String
  cacheFault : Option Error

structure RewrapReport where
  secretsRewrapped : List String
  blobsRewrapped : Nat
  blobsResealed : Nat
  blobsRotated : Nat
  skipped : List (String × String)
  commit : Option ObjectId

/-- Append `extra` onto `base`, the first of a recipient id winning. -/
def appendDedup (recipientId : Bytes → String) (base extra : List Bytes) : List Bytes :=
  extra.foldl (fun out pk =>
    if out.any (fun t => recipientId t = recipientId pk) then out else out ++ [pk]) base

def sortWraps (wks : List WrappedKey) : List WrappedKey :=
  wks.mergeSort (fun x y => (compare x.recipientId y.recipientId).isLE)

/-! ## The secrets -/

section Secrets

variable {crypto : SealCrypto} (env : RewrapEnv crypto) (identity : crypto.SecretKey)
  (escrows known : List Bytes) (dryRun : Bool)

structure SecretsRun where
  rewrapped : List String
  sealed : List (String × Object)
  skipped : List (String × String)
  draw : Nat

/-- The known key of a wrap's recipient, or the recipient nobody knows. -/
def resolveRecipient (recipientId : Bytes → String) (targets : List Bytes) (w : WrappedKey) :
    Except String (List Bytes) :=
  match known.find? (fun k => recipientId k = w.recipientId) with
  | none => .error w.recipientId
  | some pk =>
    .ok (if targets.any (fun t => recipientId t = recipientId pk) then targets
      else targets ++ [pk])

def rewrapSecret (store : Store) (s : SecretsRun) (row : String × ObjectId) :
    Except Error SecretsRun := do
  let skip := fun reason => { s with skipped := s.skipped ++ [("secret " ++ row.1, reason)] }
  match ← store.get row.2 with
  | .secret secret =>
    match secret.wrappedKeys.foldlM (resolveRecipient known crypto.recipientId) [] with
    | .error rid => pure (skip ("recipient id " ++ rid ++
        " not resolvable to a public key (add to recipients.toml)"))
    | .ok resolved =>
      let targets := appendDedup crypto.recipientId resolved escrows
      match env.openSecret secret identity with
      | none => pure (skip "identity cannot open this secret")
      | some value =>
        if targets = [] then
          throw (.invalidArgument ("recipient set is empty; sealing to zero recipients would " ++
            "make the value permanently unreadable"))
        else if dryRun then pure { s with rewrapped := s.rewrapped ++ [row.1] }
        else pure { s with
          sealed := s.sealed ++
            [(row.1, .secret (env.sealSecret s.draw secret.name value targets))]
          draw := s.draw + 1 }
  | _ => pure (skip "registry entry is not a secret")

def rewrapSecrets (store : Store) (registry : BTreeMap String ObjectId) :
    Except Error SecretsRun :=
  registry.toList.foldlM (rewrapSecret env identity escrows known dryRun store)
    ⟨[], [], [], env.draw⟩

end Secrets

/-! ## The paths -/

/-- A pass that reads the store and puts into it, keeping what it put when it fails. -/
abbrev StoreM := EStateM Error Store

def read (id : ObjectId) : StoreM Object := fun store =>
  match store.get id with
  | .ok o => .ok o store
  | .error e => .error e store

def put (idOf : Object → ObjectId) (o : Object) : StoreM ObjectId :=
  fun store => .ok (idOf o) (store.put idOf o).2

section Paths

variable {crypto : SealCrypto} (env : RewrapEnv crypto) (identity : crypto.SecretKey)
  (escrows : List Bytes) (dryRun rotate : Bool) (prefixes : List ProtectPrefix)

structure PathsRun where
  wrapped : WrapMap
  retargets : BTreeMap String (ObjectId × UInt8)
  upgradedFrom : BTreeSet ObjectId
  rewrapped : Nat
  resealed : Nat
  rotated : Nat
  skipped : List (String × String)
  draw : Nat

def PathsRun.skip (s : PathsRun) (path reason : String) : PathsRun :=
  { s with skipped := s.skipped ++ [("path " ++ path, reason)] }

/-- A resealed path counts as an upgrade when its blob was convergent, else as a rotation. -/
def PathsRun.count (s : PathsRun) (convergent : Bool) : PathsRun :=
  if convergent then { s with resealed := s.resealed + 1 } else { s with rotated := s.rotated + 1 }

/-- What the checks on a protected path find: the keys its rule grants, the wraps of its blob and
the key the identity's wrap opens to. -/
structure Access (crypto : SealCrypto) where
  granted : List Bytes
  wks : List WrappedKey
  dek : crypto.Dek

/-- The identity's wrap among those of a blob. -/
def wrapOf (wks : List WrappedKey) : Option WrappedKey :=
  wks.find? (fun w => w.recipientId = crypto.recipientId (env.publicKey identity))

/-- The keys of the rule over a path, and the wraps it has, or why it is skipped. -/
def access (wrapped : WrapMap) (path : String) (id : ObjectId) : Except String (Access crypto) :=
  match matchingPrefix prefixes path with
  | none => .error "no governing rule (bit/rule mismatch)"
  | some rule =>
    if rule.grantedKeys = [] then
      .error "rule has no granted recipients (crossed revokes?); run `sc grant` first"
    else match wrapped[id]? with
    | none => .error "no wrapped DEKs recorded for blob"
    | some wks => match wrapOf env identity wks with
      | none => .error "identity is not a recipient of this blob"
      | some wk => match crypto.unwrapDekWith wk identity with
        | none => .error ("wrap failed to open: " ++ env.wrapFault wk identity)
        | some dek => .ok ⟨rule.grantedKeys, wks, dek⟩

def convergent (fe : FileEntry) : Bool := fe.perms &&& RANDOMIZED = 0

/-- The blob is decrypted and sealed again under a fresh key; the path is retargeted to it. -/
def resealPath (s : PathsRun) (path : String) (fe : FileEntry) (targets : List Bytes)
    (dek : crypto.Dek) : StoreM PathsRun := do
  match ← read fe.id with
  | .blob cipher =>
    match crypto.decryptPath cipher dek with
    | none => pure (s.skip path ("ciphertext failed to open: " ++ env.cipherFault cipher dek))
    | some pt =>
      if dryRun then pure (s.count (convergent fe))
      else
        let (newCipher, newDek) := crypto.encryptPathRandomized s.draw pt
        let newId ← put env.idOf (.blob newCipher)
        pure ({ s with
          wrapped := s.wrapped.insert newId
            (sortWraps (targets.map (crypto.wrapDekFor s.draw newDek)))
          retargets := s.retargets.insert path (newId, PROTECTED ||| RANDOMIZED)
          upgradedFrom := s.upgradedFrom.insert fe.id
          draw := s.draw + 1 }.count (convergent fe))
  | _ => pure (s.skip path "tree entry is not a blob")

/-- A prior wrap of a target is kept as it is, the others are made anew. -/
def rebuiltWraps (draw : Nat) (dek : crypto.Dek) (prior : List WrappedKey) (targets : List Bytes) :
    List WrappedKey :=
  sortWraps (targets.map (fun pk =>
    (prior.find? (fun w => w.recipientId = crypto.recipientId pk)).getD
      (crypto.wrapDekFor draw dek pk)))

/-- The body of the loop over the tip's files. -/
def rewrapPath (s : PathsRun) (e : String × FileEntry) : StoreM PathsRun :=
  if e.2.perms &&& PROTECTED = 0 then pure s
  else
    match access env identity prefixes s.wrapped e.1 e.2.id with
    | .error reason => pure (s.skip e.1 reason)
    | .ok a =>
      let targets := appendDedup crypto.recipientId a.granted escrows
      if convergent e.2 || rotate then resealPath env dryRun s e.1 e.2 targets a.dek
      else if dryRun then pure { s with rewrapped := s.rewrapped + 1 }
      else pure { s with
        wrapped := s.wrapped.insert e.2.id (rebuiltWraps s.draw a.dek a.wks targets)
        rewrapped := s.rewrapped + 1
        draw := s.draw + 1 }

/-- The entry a path has after its retarget. -/
def retargeted (s : PathsRun) (e : String × FileEntry) : FileEntry :=
  match s.retargets[e.1]? with
  | some (id, perms) => ⟨id, e.2.mode, perms⟩
  | none => e.2

/-- The wraps of a blob that was upgraded from go when no file is left with it. -/
def dropOrphans (entries : List (String × FileEntry)) (s : PathsRun) : WrapMap :=
  let stillReferenced := (entries.filter (fun e => !s.retargets.contains e.1)).map (·.2.id)
  s.upgradedFrom.toList.foldl (fun m old =>
    if old ∈ stillReferenced then m else m.erase old) s.wrapped

end Paths

/-! ## The commit -/

section Commit

variable {crypto : SealCrypto} (env : RewrapEnv crypto)

/-- Run a pass over the repository's store. -/
def onStore {α : Type} (m : StoreM α) : OpM α := fun st =>
  match m st.repo.store with
  | .ok a store => .ok a { st with repo := { st.repo with store := store } }
  | .error e store => .error e { st with repo := { st.repo with store := store } }

def putSecret (registry : BTreeMap String ObjectId) (row : String × Object) :
    StoreM (BTreeMap String ObjectId) := do
  let id ← put env.idOf row.2
  pure (registry.insert row.1 id)

/-- A file of the rewritten tree, with the bytes of the blob it is left with. -/
def retargetFile (s : PathsRun) (e : String × FileEntry) : StoreM SealedFile := do
  let fe := retargeted s e
  match ← read fe.id with
  | .blob bytes => pure ⟨e.1, bytes, fe.mode, fe.perms⟩
  | _ => throw (.corruptObject fe.id)

def writeTree (files : List SealedFile) : StoreM ObjectId := fun store =>
  match (Vfs.writeTreeWithPerms env.idOf files).run [] with
  | (.ok root, puts) => .ok root (store.putAll env.idOf puts)
  | (.error e, puts) => .error e (store.putAll env.idOf puts)

/-- Without a retarget the root stays as it is. -/
def rewriteRoot (root : ObjectId) (entries : List (String × FileEntry)) (s : PathsRun) :
    StoreM ObjectId := do
  if s.retargets.isEmpty then pure root
  else
    let all ← entries.mapM (retargetFile s)
    writeTree env all

def message (secrets : List String) (s : PathsRun) : String :=
  "rewrap: " ++ toString secrets.length ++ " secret(s), " ++ toString s.rewrapped ++ " blob(s)" ++
    (if s.resealed > 0 then ", " ++ toString s.resealed ++ " re-sealed randomized" else "") ++
    (if s.rotated > 0 then ", " ++ toString s.rotated ++ " rotated" else "")

def report (secrets : List String) (s : PathsRun) (commit : Option ObjectId) : RewrapReport :=
  ⟨secrets, s.rewrapped, s.resealed, s.rotated, s.skipped, commit⟩

def rewrapWith (identity : crypto.SecretKey) (escrows known : List Bytes) (dryRun rotate : Bool) :
    OpM RewrapReport := do
  let st ← get
  OpLog.liftExcept (refuseEdit env.toAccessEnv "sc rewrap" st.repo)
  match ← OpLog.liftExcept st.repo.refs.headTip with
  | none => throw .unborn
  | some tip =>
    let snap ← OpLog.liftExcept (st.repo.store.getSnapshot tip)
    let secrets ← OpLog.liftExcept
      (rewrapSecrets env identity escrows known dryRun st.repo.store snap.secrets)
    OpLog.liftExcept (if dryRun then .ok () else env.cacheFault.elim (.ok ()) .error)
    let entries ← OpLog.liftExcept (treeFileEntriesWithPerms env.fuel st.repo.store snap.root)
    let s ← onStore (entries.toList.foldlM
      (rewrapPath env identity escrows dryRun rotate snap.protection.prefixes)
      ⟨snap.protection.wrapped, ∅, ∅, 0, 0, 0, secrets.skipped, secrets.draw⟩)
    if dryRun ∨ secrets.rewrapped = [] ∧ secrets.sealed = [] ∧ s.rewrapped = 0 ∧
        s.resealed = 0 ∧ s.rotated = 0 then
      pure (report secrets.rewrapped s none)
    else
      let registry ← onStore (secrets.sealed.foldlM (putSecret env) snap.secrets)
      let names := secrets.rewrapped ++ secrets.sealed.map (·.1)
      let root ← onStore (rewriteRoot env snap.root entries.toList s)
      let head := st.repo.refs.head
      let before ← OpLog.liftExcept (st.repo.refs.readBranchTip head)
      let id ← commitSnapshot env.toAccessEnv ⟨root, [tip], "system", env.now, message names s,
        registry, ⟨snap.protection.prefixes, dropOrphans entries.toList s⟩⟩
      recordOp env.toAccessEnv "rewrap" head [(head, before, some id)]
      pure (report names s (some id))

end Commit

end SrcControl.Rewrap
