import SrcControl.Repo.OpLog
import SrcControl.Repo.Seal

/-!
# Granting and revoking access

A grant and a revocation select blobs by the rule of their paths and edit a map of wraps that is
keyed by blob. Neither changes the tree or the secrets. A revocation takes a recipient's wrap from
every protected blob under the rule, also where a path of another rule names the same blob; a
grant adds one wrap to each of them and leaves a wrap that is already there as it is.
-/

namespace SrcControl.AccessOps

open TreeEntries Fallible Upsert
open OpLog (OpM tipIsManifest writeBranchTip record unparseable)

/-- The clock, the randomness and the store's addresses; `partialRefusal` is the error of
`refuse_on_partial` on a partial clone, `logFault` what appending to the operation log fails with,
where the disk refuses it. -/
structure AccessEnv (crypto : SealCrypto) where
  idOf : Object → ObjectId
  publicKey : crypto.SecretKey → Bytes
  now : Int64
  draw : Nat
  fuel : Nat
  partialRefusal : Error
  logFault : Option Error

section Ops

variable {crypto : SealCrypto} (env : AccessEnv crypto)

/-- The rule that governs `path` is the one of `pre`. -/
def governs (prefixes : List ProtectPrefix) (pre path : String) : Bool :=
  (matchingPrefix prefixes path).any (fun r => r.pathPrefix = pre)

def protectedBlobIdsUnder (store : Store) (root : ObjectId) (prefixes : List ProtectPrefix)
    (pre : String) : Except Error (List ObjectId) := do
  let entries ← treeFileEntriesWithPerms env.fuel store root
  pure ((entries.toList.filter (fun e =>
    e.2.perms &&& PROTECTED ≠ 0 && governs prefixes pre e.1)).map (fun e => e.2.id))

/-- One blob of a grant: the key is recovered from the authorized wrap and wrapped for `new`. -/
def grantBlob (pre : String) (authorized : crypto.SecretKey) (new : Bytes) (s : WrapMap × Nat)
    (blobId : ObjectId) : Except Error (WrapMap × Nat) :=
  match s.1[blobId]? with
  | none => .ok s
  | some wks =>
    if wks.any (fun w => w.recipientId = crypto.recipientId new) then .ok s
    else
      match wks.find? (fun w => w.recipientId = crypto.recipientId (env.publicKey authorized)) with
      | none => .error (.notAuthorized pre)
      | some wk =>
        match crypto.unwrapDekWith wk authorized with
        | none => .error .crypto
        | some dek =>
          .ok (s.1.insert blobId (wks ++ [crypto.wrapDekFor s.2 dek new]), s.2 + 1)

/-- The policy `grant` records; a prefix without a rule is refused before any blob is read. -/
def grantProtection (pre : String) (authorized : crypto.SecretKey) (new : Bytes) (store : Store)
    (snap : Snapshot) : Except Error Protection := do
  let prefixes ← grantRules snap.protection.prefixes pre new
  let ids ← protectedBlobIdsUnder env store snap.root snap.protection.prefixes pre
  let (wrapped, _) ← ids.foldlM (grantBlob env pre authorized new)
    (snap.protection.wrapped, env.draw)
  pure ⟨prefixes, wrapped⟩

/-- `wks.retain(|w| w.recipient_id != rid)`, where the blob has an entry. -/
def revokeBlob (rid : String) (m : WrapMap) (blobId : ObjectId) : WrapMap :=
  match m[blobId]? with
  | none => m
  | some wks => m.insert blobId (wks.filter (fun w => w.recipientId ≠ rid))

/-- The policy `revoke` records; a missing rule and a last recipient are refused first. -/
def revokeProtection (pre rid : String) (store : Store) (snap : Snapshot) :
    Except Error Protection := do
  let prefixes ← revokeRules crypto.recipientId snap.protection.prefixes pre rid
  let ids ← protectedBlobIdsUnder env store snap.root snap.protection.prefixes pre
  pure ⟨prefixes, ids.foldl (revokeBlob rid) snap.protection.wrapped⟩

/-- `refuse_on_private`, `refuse_on_partial` and the stopped operations. -/
def refuseEdit (op : String) (r : Repository) : Except Error Unit := do
  if ← tipIsManifest r.store (← r.refs.headTip) then .error (.privateUnsupported op)
  else if r.promisor then .error env.partialRefusal
  else
    match Transport.stoppedError r.stopped with
    | some e => .error e
    | none => .ok ()

/-- `build_snapshot` and the advance of the current branch. -/
def commitSnapshot (snap : Snapshot) : OpM ObjectId := do
  let st ← get
  let (id, store) := st.repo.store.put env.idOf (.snapshot snap)
  set { st with repo := { st.repo with store := store } }
  writeBranchTip st.repo.refs.head id
  pure id

/-- `oplog::record`, on a disk that may refuse it. -/
def recordOp (desc head : String) (refs : List (String × Option ObjectId × Option ObjectId)) :
    OpM Unit :=
  match env.logFault with
  | some e => throw e
  | none => record env.now.toInt desc head head refs

/-- What `grant` and `revoke` share: the tip's policy is edited, and a snapshot of the same root
and secrets becomes the tip. -/
def editPolicy (op desc message : String) (edit : Store → Snapshot → Except Error Protection) :
    OpM ObjectId := do
  let st ← get
  OpLog.liftExcept (refuseEdit env op st.repo)
  match ← OpLog.liftExcept st.repo.refs.headTip with
  | none => throw .unborn
  | some tip =>
    let snap ← OpLog.liftExcept (st.repo.store.getSnapshot tip)
    let protection ← OpLog.liftExcept (edit st.repo.store snap)
    let head := st.repo.refs.head
    let before ← OpLog.liftExcept (st.repo.refs.readBranchTip head)
    let id ← commitSnapshot env
      ⟨snap.root, [tip], "system", env.now, message, snap.secrets, protection⟩
    recordOp env desc head [(head, before, some id)]
    pure id

def grant (pre : String) (authorized : crypto.SecretKey) (new : Bytes) : OpM ObjectId :=
  editPolicy env "sc grant" ("grant " ++ pre) ("grant " ++ pre)
    (grantProtection env pre authorized new)

def revoke (pre rid : String) : OpM ObjectId :=
  editPolicy env "sc revoke" ("revoke " ++ pre) ("revoke from " ++ pre)
    (revokeProtection env pre rid)

end Ops

/-! ## The edited wraps -/

section Wraps

variable {crypto : SealCrypto} {env : AccessEnv crypto}

/-- A protected file under the rule of `pre` has this blob. -/
def BlobUnder (entries : FileMap) (prefixes : List ProtectPrefix) (pre : String) (id : ObjectId) :
    Prop :=
  ∃ path fe, entries[path]? = some fe ∧ fe.perms &&& PROTECTED ≠ 0 ∧
    governs prefixes pre path = true ∧ fe.id = id

theorem mem_protectedBlobIdsUnder {store : Store} {root : ObjectId} {prefixes : List ProtectPrefix}
    {pre : String} {ids : List ObjectId}
    (h : protectedBlobIdsUnder env store root prefixes pre = .ok ids) :
    ∃ entries, treeFileEntriesWithPerms env.fuel store root = .ok entries ∧
      ∀ id, id ∈ ids ↔ BlobUnder entries prefixes pre id := by
  obtain ⟨entries, hentries, h⟩ := bind_ok h
  cases h
  refine ⟨entries, hentries, fun id => ?_⟩
  simp only [List.mem_map, List.mem_filter, Bool.and_eq_true, decide_eq_true_eq, Prod.exists,
    BTreeMap.mem_toList_iff]
  constructor
  · rintro ⟨path, fe, ⟨hget, hperms, hgov⟩, rfl⟩
    exact ⟨path, fe, hget, hperms, hgov, rfl⟩
  · rintro ⟨path, fe, hget, hperms, hgov, rfl⟩
    exact ⟨path, fe, ⟨hget, hperms, hgov⟩, rfl⟩

theorem getElem?_revokeBlob (rid : String) (m : WrapMap) (blobId id : ObjectId) :
    (revokeBlob rid m blobId)[id]? =
      if blobId = id then m[id]?.map (·.filter (fun w => w.recipientId ≠ rid)) else m[id]? := by
  rw [revokeBlob]
  cases hm : m[blobId]? with
  | none =>
    split_ifs with h
    · subst h
      rw [hm]
      rfl
    · rfl
  | some wks =>
    simp only [BTreeMap.getElem?_insert]
    split_ifs with h
    · subst h
      rw [hm]
      rfl
    · rfl

/-- Over all the blobs, a revocation filters the wraps of each of them and no others. -/
theorem getElem?_revokeBlobs (rid : String) (ids : List ObjectId) (m : WrapMap) (id : ObjectId) :
    (ids.foldl (revokeBlob rid) m)[id]? =
      if id ∈ ids then m[id]?.map (·.filter (fun w => w.recipientId ≠ rid)) else m[id]? := by
  induction ids generalizing m with
  | nil => simp
  | cons blobId ids ih =>
    rw [List.foldl_cons, ih, getElem?_revokeBlob]
    by_cases h : blobId = id
    · subst h
      rw [if_pos rfl, if_pos List.mem_cons_self, Option.map_map]
      split_ifs
      · refine congrArg (m[blobId]?.map ·) (funext fun wks => ?_)
        simp only [Function.comp, List.filter_filter, Bool.and_self]
      · rfl
    · rw [if_neg h]
      simp only [List.mem_cons, Ne.symm h, false_or]

/-- What a grant makes of the wraps of a blob it selects. -/
inductive Regrant (env : AccessEnv crypto) (authorized : crypto.SecretKey) (new : Bytes) :
    Option (List WrappedKey) → Option (List WrappedKey) → Prop
  | unwrapped : Regrant env authorized new none none
  | held {wks : List WrappedKey} (h : WrapsFor wks (crypto.recipientId new)) :
    Regrant env authorized new (some wks) (some wks)
  | added {wks : List WrappedKey} {a : WrappedKey} {dek : crypto.Dek} {draw : Nat}
    (hnew : ¬WrapsFor wks (crypto.recipientId new)) (ha : a ∈ wks)
    (hrid : a.recipientId = crypto.recipientId (env.publicKey authorized))
    (hdek : crypto.unwrapDekWith a authorized = some dek) :
    Regrant env authorized new (some wks) (some (wks ++ [crypto.wrapDekFor draw dek new]))

variable {pre : String} {authorized : crypto.SecretKey} {new : Bytes}

theorem grantBlob_ok {s s' : WrapMap × Nat} {blobId : ObjectId}
    (h : grantBlob env pre authorized new s blobId = .ok s') :
    Regrant env authorized new s.1[blobId]? s'.1[blobId]? ∧
      ∀ id, id ≠ blobId → s'.1[id]? = s.1[id]? := by
  rw [grantBlob] at h
  cases hm : s.1[blobId]? with
  | none =>
    simp only [hm] at h
    cases h
    rw [hm]
    exact ⟨.unwrapped, fun _ _ => rfl⟩
  | some wks =>
    simp only [hm] at h
    split_ifs at h with hany
    · cases h
      obtain ⟨w, hw, he⟩ := List.any_eq_true.mp hany
      rw [hm]
      exact ⟨.held ⟨w, hw, of_decide_eq_true he⟩, fun _ _ => rfl⟩
    · cases hf : wks.find? (fun w =>
          w.recipientId = crypto.recipientId (env.publicKey authorized)) with
      | none => simp [hf] at h
      | some a =>
        simp only [hf] at h
        cases hd : crypto.unwrapDekWith a authorized with
        | none => simp [hd] at h
        | some dek =>
          simp only [hd] at h
          cases h
          have hnew : ¬WrapsFor wks (crypto.recipientId new) := by
            rintro ⟨w, hw, he⟩
            exact hany (List.any_eq_true.mpr ⟨w, hw, decide_eq_true he⟩)
          simp only [BTreeMap.getElem?_insert, if_true]
          have hrid := List.find?_some hf
          simp only [decide_eq_true_eq] at hrid
          refine ⟨.added hnew (List.mem_of_find?_eq_some hf) hrid hd, fun id hid => ?_⟩
          rw [if_neg (Ne.symm hid)]

/-- Selecting a blob twice grants once: the second time the new recipient holds a wrap. -/
theorem Regrant.trans (haddr : AddressedWraps crypto) {x y z : Option (List WrappedKey)}
    (hxy : Regrant env authorized new x y) (hyz : Regrant env authorized new y z) :
    Regrant env authorized new x z := by
  cases hxy with
  | unwrapped => exact hyz
  | held h => exact hyz
  | @added wks a dek draw hnew ha hrid hdek =>
    cases hyz with
    | held _ => exact .added hnew ha hrid hdek
    | added hnew' _ _ _ =>
      exact absurd ⟨_, List.mem_append_right _ List.mem_cons_self, haddr _ _ _⟩ hnew'

/-- Over all the blobs, a grant regrants each of them and touches no others. -/
theorem grantBlobs_ok (haddr : AddressedWraps crypto) {ids : List ObjectId} {s s' : WrapMap × Nat}
    (h : ids.foldlM (grantBlob env pre authorized new) s = .ok s') (id : ObjectId) :
    if id ∈ ids then Regrant env authorized new s.1[id]? s'.1[id]? else s'.1[id]? = s.1[id]? := by
  induction ids generalizing s with
  | nil =>
    cases h
    simp
  | cons blobId ids ih =>
    rw [List.foldlM_cons] at h
    obtain ⟨t, ht, h⟩ := bind_ok h
    obtain ⟨hown, hrest⟩ := grantBlob_ok ht
    have hih := ih h
    by_cases hid : id = blobId
    · subst hid
      rw [if_pos List.mem_cons_self]
      split_ifs at hih with hmem
      · exact hown.trans haddr hih
      · rwa [hih]
    · rw [hrest id hid] at hih
      simpa only [List.mem_cons, hid, false_or] using hih

end Wraps

/-! ## What the edits keep -/

section Edits

variable {crypto : SealCrypto} {env : AccessEnv crypto}

/-- The recipient of a fresh wrap opens it to the key it was made of. -/
def WrapsOpen (env : AccessEnv crypto) : Prop :=
  ∀ draw dek sk, crypto.unwrapDekWith (crypto.wrapDekFor draw dek (env.publicKey sk)) sk = some dek

/-- The map holds this wrap for the blob. -/
def Holds (m : WrapMap) (id : ObjectId) (w : WrappedKey) : Prop :=
  ∃ wks, m[id]? = some wks ∧ w ∈ wks

/-- What a revocation leaves of the wraps of a tip. -/
structure Revoked (entries : FileMap) (old new : Protection) (pre rid : String) : Prop where
  gone : ∀ id, BlobUnder entries old.prefixes pre id → ¬WrapMap.For new.wrapped id rid
  kept : ∀ pre' id w, pre' ≠ pre → BlobUnder entries old.prefixes pre' id →
    Holds old.wrapped id w → (w.recipientId = rid → ¬BlobUnder entries old.prefixes pre id) →
    Holds new.wrapped id w
  added : ∀ id w, Holds new.wrapped id w → Holds old.wrapped id w

/-- What a grant leaves of the wraps of a tip. -/
structure Granted (env : AccessEnv crypto) (entries : FileMap) (old new : Protection) (pre : String)
    (authorized : crypto.SecretKey) (key : Bytes) : Prop where
  gained : ∀ id wks, BlobUnder entries old.prefixes pre id → old.wrapped[id]? = some wks →
    WrapMap.For new.wrapped id (crypto.recipientId key)
  opens : ∀ id wks, BlobUnder entries old.prefixes pre id → old.wrapped[id]? = some wks →
    ¬WrapsFor wks (crypto.recipientId key) →
    ∃ a ∈ wks, ∃ dek w, a.recipientId = crypto.recipientId (env.publicKey authorized) ∧
      crypto.unwrapDekWith a authorized = some dek ∧ new.wrapped[id]? = some (wks ++ [w]) ∧
      w.recipientId = crypto.recipientId key ∧
      ∀ sk, env.publicKey sk = key → crypto.unwrapDekWith w sk = some dek
  rest : ∀ id, ¬BlobUnder entries old.prefixes pre id ∨
    WrapMap.For old.wrapped id (crypto.recipientId key) ∨ old.wrapped[id]? = none →
    new.wrapped[id]? = old.wrapped[id]?

theorem revokeProtection_revoked {pre rid : String} {store : Store} {snap : Snapshot}
    {p : Protection} (h : revokeProtection env pre rid store snap = .ok p) :
    ∃ entries, treeFileEntriesWithPerms env.fuel store snap.root = .ok entries ∧
      Revoked entries snap.protection p pre rid := by
  obtain ⟨prefixes, -, h⟩ := bind_ok h
  obtain ⟨ids, hids, h⟩ := bind_ok h
  cases h
  obtain ⟨entries, hentries, hmem⟩ := mem_protectedBlobIdsUnder hids
  refine ⟨entries, hentries, ?_, ?_, ?_⟩
  · rintro id hunder ⟨wks, hwks, w, hw, he⟩
    rw [getElem?_revokeBlobs, if_pos ((hmem id).mpr hunder)] at hwks
    obtain ⟨old, -, rfl⟩ := Option.map_eq_some_iff.mp hwks
    exact of_decide_eq_true (List.mem_filter.mp hw).2 he
  · rintro pre' id w - - ⟨wks, hwks, hw⟩ hother
    by_cases hunder : BlobUnder entries snap.protection.prefixes pre id
    · refine ⟨wks.filter (fun w => w.recipientId ≠ rid), ?_, List.mem_filter.mpr ⟨hw, ?_⟩⟩
      · rw [getElem?_revokeBlobs, if_pos ((hmem id).mpr hunder), hwks]
        rfl
      · exact decide_eq_true fun he => hother he hunder
    · refine ⟨wks, ?_, hw⟩
      rw [getElem?_revokeBlobs, if_neg (mt (hmem id).mp hunder), hwks]
  · rintro id w ⟨wks, hwks, hw⟩
    rw [getElem?_revokeBlobs] at hwks
    split_ifs at hwks
    · obtain ⟨old, hold, rfl⟩ := Option.map_eq_some_iff.mp hwks
      exact ⟨old, hold, List.mem_of_mem_filter hw⟩
    · exact ⟨wks, hwks, hw⟩

theorem grantProtection_granted (haddr : AddressedWraps crypto) (hopen : WrapsOpen env)
    {pre : String} {authorized : crypto.SecretKey} {key : Bytes} {store : Store} {snap : Snapshot}
    {p : Protection} (h : grantProtection env pre authorized key store snap = .ok p) :
    ∃ entries, treeFileEntriesWithPerms env.fuel store snap.root = .ok entries ∧
      Granted env entries snap.protection p pre authorized key := by
  obtain ⟨prefixes, -, h⟩ := bind_ok h
  obtain ⟨ids, hids, h⟩ := bind_ok h
  obtain ⟨⟨wrapped, draw⟩, hloop, h⟩ := bind_ok h
  cases h
  obtain ⟨entries, hentries, hmem⟩ := mem_protectedBlobIdsUnder hids
  have hin : ∀ id, BlobUnder entries snap.protection.prefixes pre id →
      Regrant env authorized key snap.protection.wrapped[id]? wrapped[id]? := by
    intro id hunder
    have hrun := grantBlobs_ok haddr hloop id
    rwa [if_pos ((hmem id).mpr hunder)] at hrun
  refine ⟨entries, hentries, ?_, ?_, ?_⟩
  · intro id wks hunder hwks
    have hre := hin id hunder
    rw [hwks] at hre
    generalize hnew : wrapped[id]? = out at hre
    cases hre with
    | held hheld => exact ⟨wks, hnew, hheld⟩
    | added _ _ _ _ => exact ⟨_, hnew, _, List.mem_append_right _ List.mem_cons_self, haddr _ _ _⟩
  · intro id wks hunder hwks hno
    have hre := hin id hunder
    rw [hwks] at hre
    change ∃ a ∈ wks, ∃ dek w, _ ∧ _ ∧ wrapped[id]? = some (wks ++ [w]) ∧ _
    generalize wrapped[id]? = out at hre ⊢
    cases hre with
    | held hheld => exact absurd hheld hno
    | @added _ a dek draw _ ha hrid hdek =>
      refine ⟨a, ha, dek, _, hrid, hdek, rfl, haddr _ _ _, ?_⟩
      rintro sk rfl
      exact hopen _ _ _
  · intro id hout
    have hrun := grantBlobs_ok haddr hloop id
    split_ifs at hrun with hid
    · have hunder := (hmem id).mp hid
      change wrapped[id]? = snap.protection.wrapped[id]?
      generalize wrapped[id]? = out at hrun ⊢
      generalize hold : snap.protection.wrapped[id]? = start at hrun ⊢
      cases hrun with
      | unwrapped => rfl
      | held _ => rfl
      | @added wks a dek draw hno _ _ _ =>
        rcases hout with hout | ⟨wks', hwks', hfor⟩ | hnone
        · exact absurd hunder hout
        · rw [hold] at hwks'
          cases hwks'
          exact absurd hfor hno
        · rw [hold] at hnone
          cases hnone
    · exact hrun

end Edits

end SrcControl.AccessOps
