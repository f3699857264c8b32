import SrcControl.Repo.AccessRuns
import SrcControl.Repo.RewrapAgain
import SrcControl.Repo.SparseCompletion
import SrcControl.Vfs.Commit

/-!
# Rewraps as runs

A run that commits moves the branch to one snapshot: the tip's tree with the resealed files
retargeted, under the tip's rules and the wraps the loop left. What a path's blob is wrapped for
is decided by its own rule where it is resealed, and by all paths that share it otherwise.
-/

namespace SrcControl.Rewrap

open SlashPath TreeEntries Fallible AccessOps Transport Vfs Puts
open OpLog (OpM)

/-! ## The parts of a run -/

section Parts

variable {crypto : SealCrypto} {env : RewrapEnv crypto} {identity : crypto.SecretKey}
  {escrows known : List Bytes} {dryRun rotate : Bool}

def withStore (st : Logged) (store : Store) : Logged :=
  { st with repo := { st.repo with store := store } }

@[simp] theorem withStore_refs (st : Logged) (store : Store) :
    (withStore st store).repo.refs = st.repo.refs := rfl

@[simp] theorem withStore_store (st : Logged) (store : Store) :
    (withStore st store).repo.store = store := rfl

theorem onStore_outcome {α : Type} (m : StoreM α) (st : Logged) :
    Outcome (onStore m) st
      (fun a st' => ∃ store, m st.repo.store = .ok a store ∧ st' = withStore st store)
      (fun _ st' => st'.repo.refs = st.repo.refs) := by
  unfold Outcome onStore
  cases hm : m st.repo.store with
  | ok a store => exact ⟨store, rfl, rfl⟩
  | error e store => rfl

theorem putSecrets_grows (env : RewrapEnv crypto) (rows : List (String × Object))
    (registry : BTreeMap String ObjectId) (store : Store) :
    Outcome (rows.foldlM (putSecret env) registry) store
      (fun _ store' => Extends store store') (fun _ _ => True) := by
  refine Outcome.foldlM (I := fun _ _ store' => Extends store store')
    (fun done row rest r store' _ h => ?_) (.refl store)
  exact h.trans (@put_spec env.idOf store' row.2).2.1

/-- The file that is written for an entry: its retarget's blob, held by the store. -/
def Written (s : PathsRun) (store : Store) (e : String × FileEntry) (f : SealedFile) : Prop :=
  f.path = e.1 ∧ f.mode = (retargeted s e).mode ∧ f.perms = (retargeted s e).perms ∧
    store.objects[(retargeted s e).id]? = some (.blob f.bytes)

theorem retargetFiles_written (s : PathsRun) (es : List (String × FileEntry)) (store : Store) :
    Outcome (es.mapM (retargetFile s)) store
      (fun fs store' => store' = store ∧ List.Forall₂ (Written s store) es fs)
      (fun _ _ => True) := by
  have hone : ∀ e, Outcome (retargetFile s e) store
      (fun f store' => store' = store ∧ Written s store e f) (fun _ _ => True) := by
    intro e
    unfold retargetFile
    refine .bind ?_
    unfold Outcome read
    cases hget : store.get (retargeted s e).id with
    | error err => trivial
    | ok o =>
      cases o with
      | blob bytes => exact ⟨rfl, rfl, rfl, rfl, Store.get_eq_ok_iff.mp hget⟩
      | _ => trivial
  induction es with
  | nil => exact .pure ⟨rfl, .nil⟩
  | cons e es ih =>
    rw [List.mapM_cons]
    refine .bind ((hone e).mono ?_ fun _ _ h => h)
    rintro f _ ⟨rfl, hf⟩
    refine .bind (ih.mono ?_ fun _ _ h => h)
    rintro fs _ ⟨rfl, hfs⟩
    exact .pure ⟨rfl, .cons hf hfs⟩

/-- The root a run commits: the tip's, or the one of the retargeted files. -/
inductive Rooted (env : RewrapEnv crypto) (root₀ : ObjectId) (es : List (String × FileEntry))
    (s : PathsRun) (store : Store) : ObjectId → Store → Prop
  | same (h : ∀ path : String, s.retargets[path]? = none) : Rooted env root₀ es s store root₀ store
  | written {fs : List SealedFile} {root : ObjectId} {puts : List Object}
    (hne : ¬∀ path : String, s.retargets[path]? = none)
    (hfs : List.Forall₂ (Written s store) es fs)
    (hrun : (writeTreeWithPerms env.idOf fs).run [] = (.ok root, puts)) :
    Rooted env root₀ es s store root (store.putAll env.idOf puts)

theorem Rooted.grows {root₀ root : ObjectId} {es : List (String × FileEntry)} {s : PathsRun}
    {store store' : Store} (h : Rooted env root₀ es s store root store') :
    Extends store store' := by
  cases h with
  | same _ => exact .refl store
  | written _ _ _ => exact Store.putAll_extends _ _ _

theorem rewriteRoot_rooted (env : RewrapEnv crypto) (root₀ : ObjectId)
    (es : List (String × FileEntry)) (s : PathsRun) (store : Store) :
    Outcome (rewriteRoot env root₀ es s) store (Rooted env root₀ es s store) (fun _ _ => True) := by
  unfold rewriteRoot
  split_ifs with hempty
  · refine .pure (.same fun path => ?_)
    rw [Std.ExtTreeMap.isEmpty_iff.mp hempty]
    exact Std.ExtTreeMap.getElem?_empty
  · refine .bind ((retargetFiles_written s es store).mono ?_ fun _ _ h => h)
    rintro fs _ ⟨rfl, hfs⟩
    unfold Outcome writeTree
    cases hrun : (writeTreeWithPerms env.idOf fs).run [] with
    | mk r puts =>
      cases r with
      | error e => trivial
      | ok root =>
        refine .written (fun hall => hempty ?_) hfs hrun
        refine Std.ExtTreeMap.isEmpty_iff.mpr (Std.ExtTreeMap.ext_getElem? fun path => ?_)
        rw [hall path]
        exact Std.ExtTreeMap.getElem?_empty.symm

theorem rewrapSecrets_draw {store : Store} {registry : BTreeMap String ObjectId} {s : SecretsRun}
    (h : rewrapSecrets env identity escrows known dryRun store registry = .ok s) :
    env.draw ≤ s.draw := by
  refine Fallible.foldlM_ok (I := fun s : SecretsRun => env.draw ≤ s.draw)
    (fun t row _ t' ht hstep => ?_) (Nat.le_refl _) h
  unfold rewrapSecret at hstep
  obtain ⟨o, -, hstep⟩ := bind_ok hstep
  cases o with
  | secret secret =>
    simp only at hstep
    split at hstep
    · cases hstep
      exact ht
    · split at hstep
      · cases hstep
        exact ht
      · split_ifs at hstep
        · cases hstep
          exact ht
        · cases hstep
          exact Nat.le_succ_of_le ht
  | _ =>
    cases hstep
    exact ht

/-- The head branch moved to a snapshot of this root and policy on top of the tip. -/
structure Moved (env : RewrapEnv crypto) (tip root : ObjectId) (p : Protection) (st : Logged)
    (id : ObjectId) (st' : Logged) : Prop where
  refs : st'.repo.refs = { st.repo.refs with
    heads := st.repo.refs.heads.insert st.repo.refs.head id }
  valid : Refs.validateBranchName st.repo.refs.head = .ok ()
  snapshot : ∃ snap' : Snapshot, id = env.idOf (.snapshot snap') ∧ snap'.root = root ∧
    snap'.parents = [tip] ∧ snap'.protection = p ∧ ∃ o, st'.repo.store.objects[id]? = some o

/-- A committing run: the tip, the loop over its files, the root and the move of the branch. -/
structure Ran (env : RewrapEnv crypto) (identity : crypto.SecretKey) (escrows : List Bytes)
    (rotate : Bool) (st : Logged) (tip : ObjectId) (snap : Snapshot) (entries : FileMap)
    (skipped : List (String × String)) (draw : Nat) (s : PathsRun) (root : ObjectId)
    (report : RewrapReport) (st' : Logged) : Prop where
  htip : st.repo.refs.headTip = .ok (some tip)
  hsnap : st.repo.store.getSnapshot tip = .ok snap
  hfiles : treeFileEntriesWithPerms env.fuel st.repo.store snap.root = .ok entries
  hdraw : env.draw ≤ draw
  hreport : report.skipped = s.skipped
  loop : ∃ store, entries.toList.foldlM
      (rewrapPath env identity escrows false rotate snap.protection.prefixes)
      ⟨snap.protection.wrapped, ∅, ∅, 0, 0, 0, skipped, draw⟩ st.repo.store = .ok s store ∧
    ∃ store₁ store₂, Extends store store₁ ∧
      Rooted env snap.root entries.toList s store₁ root store₂ ∧
      Extends store₂ st'.repo.store
  moved : ∃ id, report.commit = some id ∧
    Moved env tip root ⟨snap.protection.prefixes, dropOrphans entries.toList s⟩ st id st'

/-- A run that succeeds commits, or leaves the refs as they are. -/
theorem rewrapWith_ran (env : RewrapEnv crypto) (identity : crypto.SecretKey)
    (escrows known : List Bytes) (dryRun rotate : Bool) (st : Logged) :
    Outcome (rewrapWith env identity escrows known dryRun rotate) st
      (fun report st' => report.commit = none ∧ st'.repo.refs = st.repo.refs ∨
        ∃ tip snap entries skipped draw s root,
          Ran env identity escrows rotate st tip snap entries skipped draw s root report st')
      (fun _ _ => True) := by
  have hskip : ∀ (e : Error) (st' : Logged), st' = st → True := fun _ _ _ => trivial
  refine .bind (.get (.bind (liftExcept_outcome.mono ?_ hskip)))
  rintro _ _ ⟨-, rfl⟩
  refine .bind (liftExcept_outcome.mono ?_ hskip)
  rintro (_ | tip) _ ⟨htip, rfl⟩
  · exact .throw trivial
  refine .bind (liftExcept_outcome.mono ?_ hskip)
  rintro snap _ ⟨hsnap, rfl⟩
  refine .bind (liftExcept_outcome.mono ?_ hskip)
  rintro secrets _ ⟨hsecrets, rfl⟩
  refine .bind (liftExcept_outcome.mono ?_ hskip)
  rintro _ _ ⟨-, rfl⟩
  refine .bind (liftExcept_outcome.mono ?_ hskip)
  rintro entries st ⟨hfiles, rfl⟩
  refine .bind ((onStore_outcome _ st).mono ?_ fun _ _ _ => trivial)
  rintro s _ ⟨store, hloop, rfl⟩
  split_ifs with hnone
  · exact .pure (.inl ⟨rfl, rfl⟩)
  have hdry : dryRun = false := by
    cases dryRun
    · rfl
    · exact absurd (.inl rfl) hnone
  subst hdry
  refine .bind ((onStore_outcome _ _).mono ?_ fun _ _ _ => trivial)
  rintro registry _ ⟨store₁, hsealed, rfl⟩
  have hgrow : Extends store store₁ := by
    have hput := putSecrets_grows env secrets.sealed snap.secrets store
    rw [withStore_store] at hsealed
    rw [Outcome, hsealed] at hput
    exact hput
  refine .bind ((onStore_outcome _ _).mono ?_ fun _ _ _ => trivial)
  rintro root _ ⟨store₂, hroot, rfl⟩
  have hrooted : Rooted env snap.root entries.toList s store₁ root store₂ := by
    have hrun := rewriteRoot_rooted env snap.root entries.toList s store₁
    rw [withStore_store] at hroot
    rw [Outcome, hroot] at hrun
    exact hrun
  refine .bind (liftExcept_outcome.mono ?_ fun _ _ _ => trivial)
  rintro before _ ⟨-, rfl⟩
  refine .bind (commitSnapshot_outcome.mono ?_ fun _ _ _ => trivial)
  rintro id st' ⟨rfl, hheld, hrefs, hvalid⟩
  refine .bind ((recordOp_outcome hvalid).mono ?_ fun _ _ _ => trivial)
  rintro _ st'' hrepo
  refine .pure (.inr ⟨tip, snap, entries, secrets.skipped, secrets.draw, s, root, htip, hsnap,
    hfiles, rewrapSecrets_draw hsecrets, rfl, ⟨store, hloop, store₁, store₂, hgrow, hrooted, ?_⟩,
    _, rfl, hrepo ▸ hrefs, hvalid, _, rfl, rfl, rfl, rfl, ?_⟩)
  · rw [hrepo, hheld]
    exact put_spec.2.1
  · rw [hrepo, hheld]
    exact put_spec.2.2.1

end Parts

/-! ## What a committed run leaves -/

section Committed

variable {crypto : SealCrypto} (env : RewrapEnv crypto)

/-- The branch's tip, its snapshot and its files. -/
structure TipAt (fuel : Nat) (st : Logged) (tip : ObjectId) (snap : Snapshot) (entries : FileMap) :
    Prop where
  htip : st.repo.refs.headTip = .ok (some tip)
  hsnap : st.repo.store.getSnapshot tip = .ok snap
  hfiles : treeFileEntriesWithPerms fuel st.repo.store snap.root = .ok entries

/-- The addresses the store holds, and the blobs that the tip wraps or that its files have. -/
def InUse (fuel : Nat) (st : Logged) (b : ObjectId) : Prop :=
  (∃ o, st.repo.store.objects[b]? = some o) ∨ ∃ tip snap entries, TipAt fuel st tip snap entries ∧
    ((∃ wks, snap.protection.wrapped[b]? = some wks) ∨
      ∃ (p : String) (fe : FileEntry), entries[p]? = some fe ∧ fe.id = b)

/-- Blobs lie at their address, and no other object has the address of a held one. -/
structure Sound (idOf : Object → ObjectId) (store : Store) : Prop where
  addressed : ∀ (id : ObjectId) (b : Bytes), store.objects[id]? = some (.blob b) →
    idOf (.blob b) = id
  held : ∀ o o', store.objects[idOf o]? = some o' → o' = o

/-- The recipients a rule and the escrows entitle. -/
def Entitled (crypto : SealCrypto) (escrows : List Bytes) (rule : ProtectPrefix) (rid : String) :
    Prop :=
  ∃ pk, (pk ∈ rule.grantedKeys ∨ pk ∈ escrows) ∧ crypto.recipientId pk = rid

variable (identity : crypto.SecretKey) (escrows : List Bytes) (rotate : Bool)
  (prefixes : List ProtectPrefix)

/-- The wraps of a blob that a file keeps: as they were where the identity cannot open it, else
those that the paths which share it decide; plaintext stays in reach of whoever has a wrap. -/
structure Kept (es : List (String × FileEntry)) (old new : WrapMap) (b : ObjectId) : Prop where
  shut : (∀ w dek, ¬Opens env identity old b w dek) → new[b]? = old[b]?
  settled : ∀ w dek, Opens env identity old b w dek → Settled env identity old new b w
    (decided (me env identity) (overwrites escrows rotate prefixes crypto.recipientId es b))
  genuine : ∀ cipher pt, AllOpen env old b cipher pt → AllOpen env new b cipher pt

/-- What a committed run makes of the protected file `fe` at `path`. -/
inductive Recast (skipped : List (String × String)) (es : List (String × FileEntry))
    (old new : WrapMap) (store store' : Store) (entries' : FileMap) (path : String)
    (fe : FileEntry) : Prop
  | skipped {reason : String} (hreport : ("path " ++ path, reason) ∈ skipped)
    (hentry : entries'[path]? = some fe)
    (hkept : Kept env identity escrows rotate prefixes es old new fe.id)
    (hsame : overwrites escrows rotate prefixes crypto.recipientId es fe.id = [] →
      new[fe.id]? = old[fe.id]?)
  | rewrapped {rule : ProtectPrefix} (hrule : matchingPrefix prefixes path = some rule)
    (hplace : inPlace rotate fe = true) (hentry : entries'[path]? = some fe)
    (hkept : Kept env identity escrows rotate prefixes es old new fe.id)
    (hexact : (∀ rids ∈ overwrites escrows rotate prefixes crypto.recipientId es fe.id, ∀ rid,
        rid ∈ rids ↔ Entitled crypto escrows rule rid) →
      ∃ wks, new[fe.id]? = some wks ∧ ∀ rid, WrapsFor wks rid ↔ Entitled crypto escrows rule rid)
  | resealed {rule : ProtectPrefix} {w : WrappedKey} {dek : crypto.Dek} {id : ObjectId}
    {cipher pt newCipher : Bytes} {wks : List WrappedKey}
    (hrule : matchingPrefix prefixes path = some rule)
    (hentry : entries'[path]? = some ⟨id, fe.mode, PROTECTED ||| RANDOMIZED⟩)
    (hopen : Opens env identity old fe.id w dek)
    (hcipher : store.objects[fe.id]? = some (.blob cipher))
    (hplain : crypto.decryptPath cipher dek = some pt)
    (hnew : store'.objects[id]? = some (.blob newCipher)) (hwks : new[id]? = some wks)
    (hexact : ∀ rid, WrapsFor wks rid ↔ Entitled crypto escrows rule rid)
    (hall : ∀ w ∈ wks, OpensTo env w newCipher pt)

/-- What a committed run makes of the tip: the same paths and modes, the unprotected files
unchanged, each protected one recast. -/
structure CutOver (skipped : List (String × String)) (entries : FileMap) (old : Protection)
    (store : Store) (entries' : FileMap) (new : Protection) (store' : Store) : Prop where
  rules : new.prefixes = old.prefixes
  modes : ∀ path : String, entries'[path]?.map (·.mode) = entries[path]?.map (·.mode)
  plain : ∀ (path : String) (fe : FileEntry), entries[path]? = some fe →
    fe.perms &&& PROTECTED = 0 → entries'[path]? = some fe
  recast : ∀ (path : String) (fe : FileEntry), entries[path]? = some fe →
    fe.perms &&& PROTECTED ≠ 0 →
    Recast env identity escrows rotate old.prefixes skipped entries.toList old.wrapped new.wrapped
      store store' entries' path fe

end Committed

section Lands

variable {crypto : SealCrypto} {env : RewrapEnv crypto} {identity : crypto.SecretKey}
  {escrows known : List Bytes} {dryRun rotate : Bool} {st st' : Logged} {tip root : ObjectId}
  {snap : Snapshot} {entries : FileMap} {skipped : List (String × String)} {draw : Nat}
  {s : PathsRun} {report : RewrapReport}

theorem mem_appendDedup {rid : Bytes → String} {base extra : List Bytes} {r : String} :
    r ∈ (appendDedup rid base extra).map rid ↔ r ∈ base.map rid ∨ r ∈ extra.map rid := by
  induction extra generalizing base with
  | nil => simp [appendDedup]
  | cons pk extra ih =>
    have hstep : appendDedup rid base (pk :: extra) = appendDedup rid
        (if base.any (fun t => rid t = rid pk) then base else base ++ [pk]) extra := rfl
    rw [hstep, ih, List.map_cons, List.mem_cons]
    split_ifs with hany
    · have hin : r = rid pk → r ∈ base.map rid := by
        rintro rfl
        obtain ⟨t, ht, he⟩ := List.any_eq_true.mp hany
        exact List.mem_map.mpr ⟨t, ht, of_decide_eq_true he⟩
      tauto
    · simp only [List.map_append, List.mem_append, List.map_cons, List.map_nil,
        List.mem_singleton, or_assoc]

/-- The targets of a path are those its rule and the escrows entitle. -/
theorem targetsOf_entitled {prefixes : List ProtectPrefix} {path : String} {targets : List Bytes}
    (h : targetsOf escrows prefixes crypto.recipientId path = some targets) :
    ∃ rule, matchingPrefix prefixes path = some rule ∧
      ∀ rid, rid ∈ targets.map crypto.recipientId ↔ Entitled crypto escrows rule rid := by
  unfold targetsOf at h
  cases hrule : matchingPrefix prefixes path with
  | none =>
    rw [hrule] at h
    cases h
  | some rule =>
    rw [hrule] at h
    simp only at h
    split_ifs at h
    cases h
    refine ⟨rule, rfl, fun rid => ?_⟩
    rw [mem_appendDedup, List.mem_map, List.mem_map, ← exists_or]
    exact exists_congr fun pk => or_and_right.symm

theorem Ran.tipAt (h : Ran env identity escrows rotate st tip snap entries skipped draw s root
    report st') : TipAt env.fuel st tip snap entries := ⟨h.htip, h.hsnap, h.hfiles⟩

theorem inUse_of_mem (h : TipAt env.fuel st tip snap entries) {e : String × FileEntry}
    (he : e ∈ entries.toList) : InUse env.fuel st e.2.id :=
  .inr ⟨tip, snap, entries, h, .inr ⟨e.1, e.2, (BTreeMap.mem_toList_iff _ _ _).mp he, rfl⟩⟩

/-- The draws of the loop come after those of the secrets. -/
theorem Ran.fresh (hfresh : FreshSeals crypto env.idOf env.draw (InUse env.fuel st))
    (h : Ran env identity escrows rotate st tip snap entries skipped draw s root report st') :
    FreshSeals crypto env.idOf draw (InUse env.fuel st) :=
  ⟨hfresh.apart, fun i a hi => hfresh.unused i a (h.hdraw.trans hi)⟩

theorem Ran.progress (laws : CryptoLaws env)
    (hfresh : FreshSeals crypto env.idOf env.draw (InUse env.fuel st))
    (h : Ran env identity escrows rotate st tip snap entries skipped draw s root report st') :
    ∃ store store₁ store₂, Progress env identity escrows rotate snap.protection.prefixes
        snap.protection.wrapped st.repo.store (InUse env.fuel st) draw entries.toList s store ∧
      Extends store store₁ ∧ Rooted env snap.root entries.toList s store₁ root store₂ ∧
      Extends store₂ st'.repo.store := by
  obtain ⟨store, hloop, store₁, store₂, hgrow, hrooted, hlast⟩ := h.loop
  have hrun := rewrapPaths_progress identity escrows rotate snap.protection.prefixes st.repo.store
    laws (h.fresh hfresh)
    (nodup_keys entries) (fun e he => inUse_of_mem h.tipAt he)
    (fun b wks hb => .inr ⟨tip, snap, entries, h.tipAt, .inl ⟨wks, hb⟩⟩) skipped
  rw [Outcome, hloop] at hrun
  exact ⟨store, store₁, store₂, hrun, hgrow, hrooted, hlast⟩

/-- Every file is written, and every file written is one. -/
theorem written_mem {es : List (String × FileEntry)} {store : Store} {fs : List SealedFile}
    (h : List.Forall₂ (Written s store) es fs) :
    (∀ e ∈ es, ∃ f ∈ fs, Written s store e f) ∧ ∀ f ∈ fs, ∃ e ∈ es, Written s store e f := by
  induction h with
  | nil => simp
  | @cons e f es fs hone _ ih =>
    refine ⟨fun x hx => ?_, fun g hg => ?_⟩
    · rcases List.mem_cons.mp hx with rfl | hx
      · exact ⟨f, List.mem_cons_self, hone⟩
      · obtain ⟨g, hg, hw⟩ := ih.1 x hx
        exact ⟨g, List.mem_cons_of_mem f hg, hw⟩
    · rcases List.mem_cons.mp hg with rfl | hg
      · exact ⟨e, List.mem_cons_self, hone⟩
      · obtain ⟨x, hx, hw⟩ := ih.2 g hg
        exact ⟨x, List.mem_cons_of_mem e hx, hw⟩

/-- The files of the tree a run commits. -/
def newFiles (entries : FileMap) (s : PathsRun) : FileMap :=
  entries.map (fun path fe => retargeted s (path, fe))

theorem getElem?_newFiles (path : String) :
    (newFiles entries s)[path]? = entries[path]?.map (fun fe => retargeted s (path, fe)) :=
  Std.ExtTreeMap.getElem?_map

theorem toList_newFiles : (newFiles entries s).toList = retargetedFiles s entries.toList :=
  Std.ExtTreeMap.toList_map

theorem Rooted.flattens {store₁ store₂ full : Store} {root₀ : ObjectId}
    (h : Rooted env root₀ entries.toList s store₁ root store₂) (hgrow : Extends store₂ full)
    (hsound : Sound env.idOf full)
    (hnormal : ∀ (path : String) (fe : FileEntry), entries[path]? = some fe → NormalPath path)
    (hfiles : Flattens full root₀ "" entries) : Flattens full root "" (newFiles entries s) := by
  cases h with
  | same hnone =>
    have hsame : newFiles entries s = entries := by
      refine Std.ExtTreeMap.ext_getElem? fun path => ?_
      rw [getElem?_newFiles]
      cases entries[path]? with
      | none => rfl
      | some fe => exact congrArg some (retargeted_of_none (hnone path))
    rwa [hsame]
  | @written fs _ puts hne hfs hrun =>
    obtain ⟨hall, hback⟩ := written_mem hfs
    have hpaths : ∀ f ∈ fs, NormalPath f.path := by
      intro f hf
      obtain ⟨e, he, hpath, -⟩ := hback f hf
      rw [hpath]
      exact hnormal e.1 e.2 ((BTreeMap.mem_toList_iff _ _ _).mp he)
    have hheld : ∀ o ∈ puts, full.get (env.idOf o) = .ok o := by
      intro o ho
      obtain ⟨o', ho'⟩ := @Store.exists_of_mem_putAll env.idOf store₁ puts o ho
      have hfull := hgrow _ _ ho'
      rw [Store.get_eq_ok_iff, hfull, hsound.held o o' hfull]
    -- a file's entry is the one its path was given
    have hentry : ∀ e f, Written s store₁ e f → f.entry env.idOf = retargeted s e := by
      rintro e f ⟨-, hmode, hperms, hobj⟩
      have hid := hsound.addressed _ _ (hgrow _ _ (Store.putAll_extends env.idOf store₁ puts _ _
        hobj))
      rw [SealedFile.entry, hid, hmode, hperms]
    obtain ⟨m, hm, hlookup⟩ := writeTree_flat hpaths hrun hheld
    have hlist : ∀ (p : String) (fe : FileEntry), (∃ f ∈ fs, f.path = p ∧ f.entry env.idOf = fe) ↔
        (newFiles entries s)[p]? = some fe := by
      intro p fe
      rw [getElem?_newFiles, Option.map_eq_some_iff]
      constructor
      · rintro ⟨f, hf, rfl, rfl⟩
        obtain ⟨e, he, hw⟩ := hback f hf
        refine ⟨e.2, ?_, ?_⟩
        · rw [hw.1]
          exact (BTreeMap.mem_toList_iff _ _ _).mp he
        · rw [hentry e f hw, hw.1]
      · rintro ⟨fe', hfe', rfl⟩
        obtain ⟨f, hf, hw⟩ := hall (p, fe') ((BTreeMap.mem_toList_iff _ _ _).mpr hfe')
        exact ⟨f, hf, hw.1, hentry _ f hw⟩
    have hsame : m = newFiles entries s :=
      Std.ExtTreeMap.ext_getElem? fun path => (hlookup path).trans (fileMap_eq hpaths hlist path)
    rwa [← hsame]

/-- The wraps of a blob that a file keeps. -/
theorem Progress.kept {prefixes : List ProtectPrefix} {m₀ : WrapMap} {store₀ store : Store}
    {used : ObjectId → Prop} {es : List (String × FileEntry)}
    (h : Progress env identity escrows rotate prefixes m₀ store₀ used draw es s store)
    {e : String × FileEntry} (he : e ∈ es) (hused : used e.2.id)
    (hkeep : s.retargets[e.1]? = none) :
    Kept env identity escrows rotate prefixes es m₀ (dropOrphans es s) e.2.id := by
  have hsame := dropOrphans_of_kept he hkeep
  refine ⟨fun hno => hsame.trans (h.shut _ hused hno), fun w dek ho => ?_, fun cipher pt hall => ?_⟩
  · have hset := h.settled _ w dek hused ho
    unfold Settled at hset ⊢
    rw [hsame]
    exact hset
  · unfold AllOpen
    rw [hsame]
    exact h.genuine _ cipher pt hused hall

theorem mem_overwrites {prefixes : List ProtectPrefix} {es : List (String × FileEntry)}
    {e : String × FileEntry} (he : e ∈ es) (hplace : inPlace rotate e.2 = true)
    {targets : List Bytes}
    (ht : targetsOf escrows prefixes crypto.recipientId e.1 = some targets) :
    targets.map crypto.recipientId ∈
      overwrites escrows rotate prefixes crypto.recipientId es e.2.id := by
  refine List.mem_filterMap.mpr ⟨e, he, ?_⟩
  rw [overwrite, if_pos ⟨hplace, rfl⟩, ht]
  rfl

theorem Progress.recast (laws : CryptoLaws env) {prefixes : List ProtectPrefix} {m₀ : WrapMap}
    {store₀ store full : Store} {used : ObjectId → Prop}
    (hfresh : FreshSeals crypto env.idOf draw used)
    (h : Progress env identity escrows rotate prefixes m₀ store₀ used draw entries.toList s store)
    (hused : ∀ e ∈ entries.toList, used e.2.id) (hgrow : Extends store full)
    (hsound : Sound env.idOf full) {path : String} {fe : FileEntry}
    (hfe : entries[path]? = some fe) (hp : fe.perms &&& PROTECTED ≠ 0) :
    Recast env identity escrows rotate prefixes s.skipped entries.toList m₀
      (dropOrphans entries.toList s) store₀ full (newFiles entries s) path fe := by
  have hmem : (path, fe) ∈ entries.toList := (BTreeMap.mem_toList_iff _ _ _).mpr hfe
  have hentry : (newFiles entries s)[path]? = some (retargeted s (path, fe)) := by
    rw [getElem?_newFiles, hfe]
    rfl
  cases h.fates (path, fe) hmem hp with
  | @skipped reason hreport hkeep _ =>
    rw [retargeted_of_none hkeep] at hentry
    have hkept := h.kept hmem (hused _ hmem) hkeep
    refine .skipped hreport hentry hkept fun hnil => ?_
    by_cases hex : ∃ w dek, Opens env identity m₀ fe.id w dek
    · obtain ⟨w, dek, ho⟩ := hex
      have hset := hkept.settled w dek ho
      rw [hnil] at hset
      exact hset
    · push Not at hex
      exact hkept.shut hex
  | @rewrapped targets w dek hplace hkeep ht ho =>
    rw [retargeted_of_none hkeep] at hentry
    have hkept := h.kept hmem (hused _ hmem) hkeep
    obtain ⟨rule, hrule, -⟩ := targetsOf_entitled ht
    refine .rewrapped hrule hplace hentry hkept fun hagree => ?_
    have hset := hkept.settled w dek ho
    cases hd : decided (me env identity)
        (overwrites escrows rotate prefixes crypto.recipientId entries.toList fe.id) with
    | none =>
      exact absurd hd (decided_ne_none (List.ne_nil_of_mem (mem_overwrites hmem hplace ht)))
    | some rids =>
      rw [hd] at hset
      obtain ⟨wks, hwks, hiff, -⟩ := hset
      exact ⟨wks, hwks, fun rid => (hiff rid).trans (hagree rids (decided_mem hd) rid)⟩
  | @resealed r hr =>
    have hre := h.retarget_of_mem (nodup_keys entries) hmem hr
    have hunused := hre.unused hfresh
    rw [retargeted_of_some (e := (path, fe)) hr] at hentry
    obtain ⟨-, -, ht, ho, hget, hdec, -, -, hid, hwraps, o, hheld⟩ := hre
    obtain ⟨rule, hrule, hiff⟩ := targetsOf_entitled ht
    subst hid
    have hobj := hgrow _ _ hheld
    rw [hsound.held _ _ hobj] at hobj
    refine .resealed hrule hentry ho hget hdec hobj
      ((dropOrphans_of_fresh (h.not_upgraded hused hunused)).trans hwraps)
      (fun rid => (wrapsFor_fresh laws).trans (hiff rid)) fun w hw => ?_
    obtain ⟨pk, -, rfl⟩ := List.mem_map.mp (mem_sortWraps.mp hw)
    exact opensTo_fresh laws (laws.unseals _ _)

/-- The files and the wraps that a run leaves are those its loop left. -/
theorem Ran.cutOver (laws : CryptoLaws env)
    (hfresh : FreshSeals crypto env.idOf env.draw (InUse env.fuel st))
    (h : Ran env identity escrows rotate st tip snap entries skipped draw s root report st')
    (hsound : Sound env.idOf st'.repo.store) :
    CutOver env identity escrows rotate report.skipped entries snap.protection st.repo.store
      (newFiles entries s) ⟨snap.protection.prefixes, dropOrphans entries.toList s⟩
      st'.repo.store := by
  obtain ⟨store, store₁, store₂, hprog, hgrow, hrooted, hlast⟩ := h.progress laws hfresh
  refine ⟨rfl, fun path => ?_, fun path fe hfe hp => ?_, fun path fe hfe hp => ?_⟩
  · rw [getElem?_newFiles, Option.map_map]
    refine congrArg (entries[path]?.map ·) (funext fun fe => ?_)
    exact retargeted_mode s (path, fe)
  · rw [getElem?_newFiles, hfe, Option.map_some]
    cases hr : s.retargets[path]? with
    | none => exact congrArg some (retargeted_of_none hr)
    | some r =>
      have hre := hprog.retarget_of_mem (nodup_keys entries)
        ((BTreeMap.mem_toList_iff entries path fe).mpr hfe) hr
      obtain ⟨hp', -, -, -, -, -, -, -, -, -, -⟩ := hre
      exact absurd hp hp'
  · rw [h.hreport]
    exact hprog.recast laws (h.fresh hfresh) (fun e he => inUse_of_mem h.tipAt he)
      (hgrow.trans (hrooted.grows.trans hlast)) hsound hfe hp

/-- The same repository commands, later: another clock, and draws not made yet. -/
def later (env : RewrapEnv crypto) (now : Int64) (draw : Nat) : RewrapEnv crypto :=
  { env with now := now, draw := draw }

/-- A run that leaves the tip's tree, its rules and the recipients of every blob as they are. -/
def Settles (env : RewrapEnv crypto) (tip root : ObjectId) (p : Protection) (st : Logged)
    (report : RewrapReport) (st' : Logged) : Prop :=
  report.commit = none ∧ st'.repo.refs = st.repo.refs ∨
    ∃ id p', report.commit = some id ∧ Moved env tip root p' st id st' ∧ p'.prefixes = p.prefixes ∧
      ∀ b rid, WrapMap.For p'.wrapped b rid ↔ WrapMap.For p.wrapped b rid

/-- A second run on what a run left that did not rotate. -/
theorem Ran.again (laws : CryptoLaws env)
    (hfresh : FreshSeals crypto env.idOf env.draw (InUse env.fuel st))
    (h : Ran env identity escrows false st tip snap entries skipped draw s root report st')
    (hsound : Sound env.idOf st'.repo.store)
    (hflat : Flattens st'.repo.store root "" (newFiles entries s)) {id : ObjectId}
    (hmoved : Moved env tip root ⟨snap.protection.prefixes, dropOrphans entries.toList s⟩ st id st')
    {now : Int64} {draw' : Nat} {report' : RewrapReport} {st'' : Logged}
    (hfresh' : FreshSeals crypto env.idOf draw' (InUse env.fuel st'))
    (hrun : rewrapWith (later env now draw') identity escrows known dryRun false st' =
      .ok report' st'') :
    Settles (later env now draw') id root
      ⟨snap.protection.prefixes, dropOrphans entries.toList s⟩ st' report' st'' := by
  have hran := rewrapWith_ran (later env now draw') identity escrows known dryRun false st'
  rw [Outcome, hrun] at hran
  rcases hran with hnone | ⟨tip', snap', entries', skipped', draw₁, s', root', h'⟩
  · exact .inl hnone
  have laws' : CryptoLaws (later env now draw') :=
    ⟨laws.addressed, laws.wrapsOpen, laws.unseals, laws.fingerprint⟩
  -- the second run starts from the snapshot the first one committed
  have htip : tip' = id := by
    have hhead := Refs.readBranchTip_eq_ok h'.htip
    rw [hmoved.refs, BTreeMap.getElem?_insert, if_pos rfl] at hhead
    exact (Option.some.inj hhead).symm
  subst htip
  obtain ⟨left, rfl, hroot, -, hpolicy, o, ho⟩ := hmoved.snapshot
  have hsnap : snap' = left := by
    have hget : st'.repo.store.getSnapshot (env.idOf (.snapshot left)) = .ok left := by
      rw [Store.getSnapshot, Store.get_eq_ok_iff.mpr ho, hsound.held _ o ho]
      rfl
    exact Except.ok.inj (h'.hsnap.symm.trans hget)
  subst hsnap
  have hentries : entries' = newFiles entries s := by
    refine Flattens.unique ⟨env.fuel, ?_⟩ hflat
    rw [← hroot]
    exact h'.hfiles
  subst hentries
  obtain ⟨store, store₁, store₂, hprog, hgrow, hrooted, hlast⟩ := h.progress laws hfresh
  obtain ⟨store', store₁', store₂', hprog', -, hrooted', -⟩ := h'.progress laws' hfresh'
  have hheld : Extends store st'.repo.store := hgrow.trans (hrooted.grows.trans hlast)
  have hkeys : ∀ b wks, (dropOrphans entries.toList s)[b]? = some wks → InUse env.fuel st' b :=
    fun b wks hb => .inr ⟨_, _, _, h'.tipAt, .inl ⟨wks, by rw [hpolicy]; exact hb⟩⟩
  rw [hpolicy, toList_newFiles] at hprog'
  have hpk : (later env now draw').publicKey = env.publicKey := rfl
  have hnone := again_retargets hprog (nodup_keys entries) hheld hpk hprog'
  obtain ⟨id', hcommit, hmoved'⟩ := h'.moved
  have hsame : root' = root := by
    cases hrooted' with
    | same _ => exact hroot
    | written hne _ _ => exact absurd hnone hne
  subst hsame
  refine .inr ⟨id', _, hcommit, hmoved', by rw [hpolicy], fun b rid => ?_⟩
  rw [toList_newFiles]
  exact again_recipients laws (h.fresh hfresh) (fun e he => inUse_of_mem h.tipAt he) hprog
    (nodup_keys entries) hheld hpk hkeys hprog' b rid

/-- A committed rewrap cuts the tip over, and a second run after one that did not rotate changes
no file and no recipients. -/
theorem rewrap_cuts_over (laws : CryptoLaws env)
    (hfresh : FreshSeals crypto env.idOf env.draw (InUse env.fuel st))
    (hnormal : ∀ tip snap entries, TipAt env.fuel st tip snap entries →
      ∀ (path : String) (fe : FileEntry), entries[path]? = some fe → NormalPath path)
    {id : ObjectId}
    (hrun : rewrapWith env identity escrows known dryRun rotate st = .ok report st')
    (hcommit : report.commit = some id) (hsound : Sound env.idOf st'.repo.store) :
    ∃ tip snap entries root entries' p, TipAt env.fuel st tip snap entries ∧
      Moved env tip root p st id st' ∧ Flattens st'.repo.store root "" entries' ∧
      CutOver env identity escrows rotate report.skipped entries snap.protection st.repo.store
        entries' p st'.repo.store ∧
      (rotate = false → ∀ now draw known' dryRun' report' st'',
        FreshSeals crypto env.idOf draw (InUse env.fuel st') →
        rewrapWith (later env now draw) identity escrows known' dryRun' false st' =
          .ok report' st'' →
        Settles (later env now draw) id root p st' report' st'') := by
  have hran := rewrapWith_ran env identity escrows known dryRun rotate st
  rw [Outcome, hrun] at hran
  rcases hran with ⟨hnone, -⟩ | ⟨tip, snap, entries, skipped, draw, s, root, h⟩
  · rw [hcommit] at hnone
    cases hnone
  obtain ⟨id', hid', hmoved⟩ := h.moved
  rw [hcommit] at hid'
  cases hid'
  obtain ⟨store, store₁, store₂, hprog, hgrow, hrooted, hlast⟩ := h.progress laws hfresh
  have hfiles : Flattens st'.repo.store snap.root "" entries :=
    ⟨env.fuel, walk_extends (hprog.grows.trans (hgrow.trans (hrooted.grows.trans hlast))) h.hfiles⟩
  have hflat := hrooted.flattens hlast hsound (hnormal tip snap entries h.tipAt) hfiles
  refine ⟨tip, snap, entries, root, newFiles entries s, _, h.tipAt, hmoved, hflat,
    h.cutOver laws hfresh hsound, ?_⟩
  rintro rfl now draw' known' dryRun' report' st'' hfresh' hrun'
  exact h.again laws hfresh hsound hflat hmoved hfresh' hrun'

end Lands

/-! ## Paths that share a blob -/

/-- Keys are their own public keys and print as characters; a wrap holds its key in the clear, and
only the key `7` decrypts. -/
def plainCrypto : SealCrypto where
  SecretKey := Bytes
  Dek := Bytes
  unwrapDekWith w sk :=
    if w.recipientId = String.ofList (sk.map (fun b => Char.ofNat b.toNat)) then some w.wrappedDek
    else none
  decryptPath cipher dek := if dek = [7] then some ((cipher.dropWhile (· = 0)).drop 1) else none
  encryptPath b := (b, [])
  encryptPathRandomized i b := (List.replicate i 0 ++ 1 :: b, [7])
  wrapDekFor _ dek key := ⟨String.ofList (key.map (fun b => Char.ofNat b.toNat)), dek⟩
  recipientId key := String.ofList (key.map (fun b => Char.ofNat b.toNat))

def wrapAlice : WrappedKey := ⟨plainCrypto.recipientId alice, [7]⟩
def wrapBob (dek : UInt8) : WrappedKey := ⟨plainCrypto.recipientId bob, [dek]⟩

/-- The blob of a plaintext under the first draw. -/
def sealedId (b : UInt8) : ObjectId := ⟨[7, 1, b]⟩

def coupledRules : List ProtectPrefix :=
  [⟨"a", [⟨bob, 1, .granted⟩]⟩, ⟨"b", [⟨alice, 1, .granted⟩]⟩, ⟨"c", [⟨bob, 1, .granted⟩]⟩]

/-- `a`, bob's, and `b`, alice's, have one blob that both can read; bob's wrap of `c` is of another
key. -/
def coupledTip : Snapshot :=
  ⟨testId 0, [], "a", 0, "coupled", ∅, ⟨coupledRules,
    ((∅ : WrapMap).insert (sealedId 5) [wrapAlice, wrapBob 7]).insert (sealedId 6)
      [wrapAlice, wrapBob 8]⟩⟩

/-- What alice's rewrap commits: she is out of the blob of `b`, and bob keeps his wrap of `c`. -/
def coupledLeft : Snapshot :=
  ⟨testId 0, [testId 5], "system", 0, "rewrap: 0 secret(s), 2 blob(s)", ∅, ⟨coupledRules,
    ((∅ : WrapMap).insert (sealedId 5) [wrapBob 7]).insert (sealedId 6) [wrapBob 8]⟩⟩

def coupledTree : Tree :=
  ⟨[⟨"a", .blob, sealedId 5, .FILE, PROTECTED ||| RANDOMIZED⟩,
    ⟨"b", .blob, sealedId 5, .FILE, PROTECTED ||| RANDOMIZED⟩,
    ⟨"c", .blob, sealedId 6, .FILE, PROTECTED ||| RANDOMIZED⟩]⟩

def coupledAddress : Object → ObjectId
  | .blob b => ⟨7 :: b⟩
  | .tree t => testId (if t = coupledTree then 0 else 250)
  | .snapshot s => testId (if s = coupledLeft then 6 else if s = coupledTip then 5 else 250)
  | _ => testId 250

def coupledEnv : RewrapEnv plainCrypto where
  idOf := coupledAddress
  publicKey sk := sk
  now := 0
  draw := 5
  fuel := 3
  partialRefusal := .invalidArgument ""
  logFault := none
  openSecret _ _ := none
  sealSecret _ name value _ := ⟨name, [], value, []⟩
  wrapFault _ _ := ""
  cipherFault _ _ := ""
  cacheFault := none

def coupledStore : Store :=
  ⟨((((∅ : BTreeMap ObjectId Object).insert (testId 0) (.tree coupledTree)).insert (testId 5)
    (.snapshot coupledTip)).insert (sealedId 5) (.blob [1, 5])).insert (sealedId 6) (.blob [1, 6])⟩

def coupledRepo : Logged where
  repo :=
    { store := coupledStore
      refs := ⟨(∅ : BTreeMap String ObjectId).insert "main" (testId 5), ∅, "main"⟩
      stopped := ⟨false, false, false⟩
      indexes := ⟨[], [], []⟩
      promisor := false }
  log := []
  written := 0

def coupledSkipped : List (String × String) :=
  [("path b", "identity is not a recipient of this blob")]

/-- Alice rewraps without escrows: `b` is skipped, and the one new object is the snapshot. -/
theorem coupled_run : ∃ report st',
    rewrapWith coupledEnv alice [] [] false false coupledRepo = .ok report st' ∧
      report.commit = some (testId 6) ∧ report.skipped = coupledSkipped ∧ st'.repo.store.objects =
        coupledStore.objects.insert (testId 6) (.snapshot coupledLeft) := by
  have hrun : (match rewrapWith coupledEnv alice [] [] false false coupledRepo with
      | .ok report st' => decide (report.commit = some (testId 6) ∧
          report.skipped = coupledSkipped ∧ st'.repo.store.objects =
            coupledStore.objects.insert (testId 6) (.snapshot coupledLeft))
      | .error _ _ => false) = true := by decide +kernel
  cases hr : rewrapWith coupledEnv alice [] [] false false coupledRepo with
  | error e st' =>
    rw [hr] at hrun
    cases hrun
  | ok report st' =>
    rw [hr] at hrun
    exact ⟨report, st', rfl, of_decide_eq_true hrun⟩

theorem coupled_laws : CryptoLaws coupledEnv where
  addressed _ _ _ := rfl
  wrapsOpen _ _ _ := if_pos rfl
  unseals i pt := by
    change (if ([7] : Bytes) = [7] then
      some (((List.replicate i 0 ++ 1 :: pt).dropWhile (· = 0)).drop 1) else none) = some pt
    rw [if_pos rfl]
    induction i with
    | zero => rfl
    | succ i ih => exact ih
  fingerprint a b h := by
    have hchar : ∀ x : UInt8, (Char.ofNat x.toNat).toNat = x.toNat := by decide +kernel
    refine List.map_injective_iff.mpr (fun x y hxy => ?_) (String.ofList_injective h)
    have hnat := congrArg Char.toNat hxy
    rw [hchar, hchar] at hnat
    exact UInt8.toNat_inj.mp hnat

theorem coupled_lookup {b : ObjectId} {o : Object} (h : coupledStore.objects[b]? = some o) :
    b = sealedId 6 ∧ o = .blob [1, 6] ∨ b = sealedId 5 ∧ o = .blob [1, 5] ∨
      b = testId 5 ∧ o = .snapshot coupledTip ∨ b = testId 0 ∧ o = .tree coupledTree := by
  simp only [coupledStore, BTreeMap.getElem?_insert] at h
  split_ifs at h with h₁ h₂ h₃ h₄
  · exact .inl ⟨h₁.symm, (Option.some.inj h).symm⟩
  · exact .inr (.inl ⟨h₂.symm, (Option.some.inj h).symm⟩)
  · exact .inr (.inr (.inl ⟨h₃.symm, (Option.some.inj h).symm⟩))
  · exact .inr (.inr (.inr ⟨h₄.symm, (Option.some.inj h).symm⟩))
  · simp at h

def coupledFile (b : UInt8) : FileEntry := ⟨sealedId b, .FILE, PROTECTED ||| RANDOMIZED⟩

theorem coupled_tip {tip : ObjectId} {snap : Snapshot} {entries : FileMap}
    (h : TipAt 3 coupledRepo tip snap entries) : tip = testId 5 ∧ snap = coupledTip ∧
      entries.toList = [("a", coupledFile 5), ("b", coupledFile 5), ("c", coupledFile 6)] := by
  obtain ⟨htip, hsnap, hfiles⟩ := h
  have htip' : tip = testId 5 := by
    have hhead := Refs.readBranchTip_eq_ok htip
    rw [coupledRepo, BTreeMap.getElem?_insert, if_pos rfl] at hhead
    exact (Option.some.inj hhead).symm
  subst htip'
  have hread : coupledStore.getSnapshot (testId 5) = .ok coupledTip := rfl
  obtain rfl : snap = coupledTip := Except.ok.inj (hsnap.symm.trans hread)
  have hlist : (match treeFileEntriesWithPerms 3 coupledStore (testId 0) with
      | .ok m => decide (m.toList =
          [("a", coupledFile 5), ("b", coupledFile 5), ("c", coupledFile 6)])
      | .error _ => false) = true := by decide +kernel
  have hwalk : treeFileEntriesWithPerms 3 coupledStore (testId 0) = .ok entries := hfiles
  rw [hwalk] at hlist
  exact ⟨rfl, rfl, of_decide_eq_true hlist⟩

theorem coupled_inUse {b : ObjectId} (h : InUse 3 coupledRepo b) :
    b = testId 0 ∨ b = testId 5 ∨ b = sealedId 5 ∨ b = sealedId 6 := by
  rcases h with ⟨o, ho⟩ | ⟨tip, snap, entries, htip, hb⟩
  · rcases coupled_lookup ho with h | h | h | h <;> simp [h.1]
  obtain ⟨-, rfl, hlist⟩ := coupled_tip htip
  rcases hb with ⟨wks, hwks⟩ | ⟨p, fe, hfe, rfl⟩
  · simp only [coupledTip, BTreeMap.getElem?_insert] at hwks
    split_ifs at hwks with h₁ h₂
    · exact .inr (.inr (.inr h₁.symm))
    · exact .inr (.inr (.inl h₂.symm))
    · simp at hwks
  · have hmem := (BTreeMap.mem_toList_iff entries p fe).mpr hfe
    rw [hlist] at hmem
    simp only [List.mem_cons, Prod.mk.injEq, List.not_mem_nil, or_false] at hmem
    rcases hmem with ⟨-, rfl⟩ | ⟨-, rfl⟩ | ⟨-, rfl⟩ <;> simp [coupledFile]

theorem coupled_fresh : FreshSeals plainCrypto coupledAddress 5 (InUse 3 coupledRepo) where
  apart i j a b hij h := by
    have hblob := List.tail_eq_of_cons_eq (congrArg ObjectId.bytes h)
    exact testSeal_apart i j a b hij (congrArg (fun l => testAddress (.blob l)) hblob)
  unused i a hi hused := by
    obtain ⟨k, rfl⟩ := Nat.exists_eq_add_of_le' hi
    rcases coupled_inUse hused with h | h | h | h <;>
      exact absurd (congrArg ObjectId.bytes h)
        (by simp [coupledAddress, plainCrypto, testId, sealedId, List.replicate_succ])

theorem coupled_normal : ∀ tip snap entries, TipAt 3 coupledRepo tip snap entries →
    ∀ (path : String) (fe : FileEntry), entries[path]? = some fe → NormalPath path := by
  intro tip snap entries htip path fe hfe
  obtain ⟨-, -, hlist⟩ := coupled_tip htip
  have hmem := (BTreeMap.mem_toList_iff entries path fe).mpr hfe
  rw [hlist] at hmem
  have hone : ∀ name : String, IsName name → name ≠ "." → NormalPath name := fun name hn hdot =>
    ⟨[name], by simp, by simpa using ⟨hn, hdot⟩, rfl⟩
  simp only [List.mem_cons, Prod.mk.injEq, List.not_mem_nil, or_false] at hmem
  rcases hmem with ⟨rfl, -⟩ | ⟨rfl, -⟩ | ⟨rfl, -⟩ <;>
    exact hone _ (by decide) (by decide)

/-- The held addresses are those of the held objects alone. -/
theorem coupled_address (o : Object) :
    (coupledAddress o = testId 6 → o = .snapshot coupledLeft) ∧
      (coupledAddress o = sealedId 6 → o = .blob [1, 6]) ∧
      (coupledAddress o = sealedId 5 → o = .blob [1, 5]) ∧
      (coupledAddress o = testId 5 → o = .snapshot coupledTip) ∧
      (coupledAddress o = testId 0 → o = .tree coupledTree) := by
  cases o with
  | blob b => simp [coupledAddress, testId, sealedId]
  | tree t => by_cases ht : t = coupledTree <;> simp [coupledAddress, testId, sealedId, ht]
  | snapshot s =>
    by_cases hleft : s = coupledLeft
    · simp [coupledAddress, testId, sealedId, hleft]
    · by_cases htip : s = coupledTip
      · have hne : coupledTip ≠ coupledLeft := by decide +kernel
        simp [coupledAddress, testId, sealedId, htip, hne]
      · simp [coupledAddress, testId, sealedId, hleft, htip]
  | _ => simp [coupledAddress, testId, sealedId]

theorem coupled_sound {store : Store}
    (h : store.objects = coupledStore.objects.insert (testId 6) (.snapshot coupledLeft)) :
    Sound coupledAddress store where
  addressed id b hb := by
    rw [h, BTreeMap.getElem?_insert] at hb
    split_ifs at hb
    · cases hb
    · rcases coupled_lookup hb with ⟨rfl, hb⟩ | ⟨rfl, hb⟩ | ⟨-, hb⟩ | ⟨-, hb⟩ <;> cases hb <;> rfl
  held o o' ho := by
    obtain ⟨h₆, hc, hab, h₅, h₀⟩ := coupled_address o
    rw [h, BTreeMap.getElem?_insert] at ho
    split_ifs at ho with hsix
    · rw [h₆ hsix.symm, ← Option.some.inj ho]
    · rcases coupled_lookup ho with ⟨hid, rfl⟩ | ⟨hid, rfl⟩ | ⟨hid, rfl⟩ | ⟨hid, rfl⟩
      · exact (hc hid).symm
      · exact (hab hid).symm
      · exact (h₅ hid).symm
      · exact (h₀ hid).symm

/-- The run over the coupled files: the rewrap of alice cuts them over. -/
theorem rewrap_cuts_over_coupled : ∃ report st',
    rewrapWith coupledEnv alice [] [] false false coupledRepo = .ok report st' ∧
      ∃ tip snap entries root entries' p, TipAt 3 coupledRepo tip snap entries ∧
        Moved coupledEnv tip root p coupledRepo (testId 6) st' ∧
        Flattens st'.repo.store root "" entries' ∧
        CutOver coupledEnv alice [] false report.skipped entries snap.protection
          coupledRepo.repo.store entries' p st'.repo.store := by
  obtain ⟨report, st', hrun, hcommit, -, hstore⟩ := coupled_run
  obtain ⟨tip, snap, entries, root, entries', p, htip, hmoved, hflat, hcut, -⟩ :=
    rewrap_cuts_over coupled_laws coupled_fresh coupled_normal hrun hcommit (coupled_sound hstore)
  exact ⟨report, st', hrun, tip, snap, entries, root, entries', p, htip, hmoved, hflat, hcut⟩

/-- The rewrap of `a` puts alice out of the blob that `b`, skipped, has too, though the rule of `b`
grants her; and bob's wrap of `c`, kept as it was, opens to a key that does not decrypt it. -/
theorem shared_blob_recast : ∃ report st' entries,
    rewrapWith coupledEnv alice [] [] false false coupledRepo = .ok report st' ∧
      report.commit = some (testId 6) ∧ st'.repo.store.getSnapshot (testId 6) = .ok coupledLeft ∧
      TipAt 3 coupledRepo (testId 5) coupledTip entries ∧ coupledLeft.root = coupledTip.root ∧
      (¬∀ (path : String) (fe : FileEntry), entries[path]? = some fe →
        fe.perms &&& PROTECTED ≠ 0 →
        ((∃ reason, ("path " ++ path, reason) ∈ report.skipped) ∧
          coupledLeft.protection.wrapped[fe.id]? = coupledTip.protection.wrapped[fe.id]?) ∨
        ∃ rule wks, matchingPrefix coupledRules path = some rule ∧
          coupledLeft.protection.wrapped[fe.id]? = some wks ∧
          ∀ rid, WrapsFor wks rid ↔ Entitled plainCrypto [] rule rid) ∧
      coupledLeft.protection.wrapped[sealedId 6]? = some [wrapBob 8] ∧
      (∃ dek, plainCrypto.unwrapDekWith wrapAlice alice = some dek ∧
        plainCrypto.decryptPath [1, 6] dek = some [6]) ∧
      ∃ dek, plainCrypto.unwrapDekWith (wrapBob 8) bob = some dek ∧
        plainCrypto.decryptPath [1, 6] dek = none := by
  obtain ⟨report, st', hrun, hcommit, -, hstore⟩ := coupled_run
  obtain ⟨entries, hfiles⟩ : ∃ entries, TipAt 3 coupledRepo (testId 5) coupledTip entries :=
    ⟨_, rfl, rfl, rfl⟩
  have hread : st'.repo.store.getSnapshot (testId 6) = .ok coupledLeft := by
    have hget : st'.repo.store.get (testId 6) = .ok (.snapshot coupledLeft) := by
      rw [Store.get_eq_ok_iff, hstore, BTreeMap.getElem?_insert, if_pos rfl]
    rw [Store.getSnapshot, hget]
    rfl
  refine ⟨report, st', entries, hrun, hcommit, hread, hfiles, rfl, fun hall => ?_,
    by decide +kernel, ⟨[7], rfl, rfl⟩, [8], rfl, rfl⟩
  have hb : entries["b"]? = some (coupledFile 5) := by
    refine (BTreeMap.mem_toList_iff entries _ _).mp ?_
    rw [(coupled_tip hfiles).2.2]
    exact List.mem_cons_of_mem _ List.mem_cons_self
  rcases hall "b" (coupledFile 5) hb (by decide) with ⟨-, hsame⟩ | ⟨rule, wks, hrule, hwks, hiff⟩
  · revert hsame
    decide +kernel
  · have hown : matchingPrefix coupledRules "b" = some ⟨"b", [⟨alice, 1, .granted⟩]⟩ := by
      decide +kernel
    rw [hown] at hrule
    cases hrule
    have hleft : coupledLeft.protection.wrapped[(coupledFile 5).id]? = some [wrapBob 7] := by
      decide +kernel
    rw [hleft] at hwks
    cases hwks
    have halice : Entitled plainCrypto [] ⟨"b", [⟨alice, 1, .granted⟩]⟩
        (plainCrypto.recipientId alice) := ⟨alice, .inl (by decide), rfl⟩
    obtain ⟨w, hw, hrid⟩ := (hiff _).mpr halice
    obtain rfl := List.mem_singleton.mp hw
    revert hrid
    decide +kernel

end SrcControl.Rewrap
