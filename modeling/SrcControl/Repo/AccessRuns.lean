import SrcControl.Lib.Outcome
import SrcControl.Repo.AccessOps

/-!
# Grants and revocations as runs

An edit of the tip's policy lands on the same root and secrets or moves no ref; only where the
log refuses the record does the error come after the move. Equal ciphertext under two rules makes
a revocation under the one take the recipient's wrap under the other.
-/

namespace SrcControl.AccessOps

open TreeEntries Fallible Upsert
open OpLog (OpM tipIsManifest writeBranchTip record unparseable)

/-! ## The whole operations -/

section Runs

variable {crypto : SealCrypto} {env : AccessEnv crypto}

/-- The head branch moved to a snapshot of the same root and secrets under the policy `p`. -/
structure Landed (env : AccessEnv crypto) (snap : Snapshot) (p : Protection) (st : Logged)
    (id : ObjectId) (st' : Logged) : Prop where
  refs : st'.repo.refs = { st.repo.refs with
    heads := st.repo.refs.heads.insert st.repo.refs.head id }
  snapshot : ∃ snap' : Snapshot, id = env.idOf (.snapshot snap') ∧
    st'.repo.store = (st.repo.store.put env.idOf (.snapshot snap')).2 ∧ snap'.root = snap.root ∧
    snap'.secrets = snap.secrets ∧ snap'.protection = p

/-- The tip's policy was edited as `edit` says and the result landed. -/
def Edited (env : AccessEnv crypto) (edit : Store → Snapshot → Except Error Protection)
    (st : Logged) (id : ObjectId) (st' : Logged) : Prop :=
  ∃ tip snap p, st.repo.refs.headTip = .ok (some tip) ∧ st.repo.store.getSnapshot tip = .ok snap ∧
    edit st.repo.store snap = .ok p ∧ Landed env snap p st id st'

theorem liftExcept_outcome {α : Type} {x : Except Error α} {st : Logged} :
    Outcome (OpLog.liftExcept x) st (fun a st' => x = .ok a ∧ st' = st)
      (fun _ st' => st' = st) := by
  cases x with
  | error e => exact Outcome.throw rfl
  | ok a => exact Outcome.pure ⟨rfl, rfl⟩

/-- A branch name that validation accepts can be logged. -/
theorem parseable_of_valid {branch : String} (h : Refs.validateBranchName branch = .ok ()) :
    unparseable branch = false := by
  unfold Refs.validateBranchName at h
  split_ifs at h with hbad
  simp only [not_or] at hbad
  exact Bool.not_eq_true _ ▸ hbad.2.2.2.2.2.2

theorem commitSnapshot_outcome {snap : Snapshot} {st : Logged} :
    Outcome (commitSnapshot env snap) st
      (fun id st' => id = env.idOf (.snapshot snap) ∧
        st'.repo.store = (st.repo.store.put env.idOf (.snapshot snap)).2 ∧
        st'.repo.refs = { st.repo.refs with
          heads := st.repo.refs.heads.insert st.repo.refs.head id } ∧
        Refs.validateBranchName st.repo.refs.head = .ok ())
      (fun _ st' => st'.repo.refs = st.repo.refs) := by
  have hput : st.repo.store.put env.idOf (.snapshot snap) =
      (env.idOf (.snapshot snap), (st.repo.store.put env.idOf (.snapshot snap)).2) := by
    rw [Store.put]
    split_ifs <;> rfl
  unfold Outcome commitSnapshot
  simp only [bind, EStateM.bind, get, getThe, MonadStateOf.get, EStateM.get, set,
    MonadStateOf.set, EStateM.set, writeBranchTip, OpLog.editRefs, pure, EStateM.pure]
  rw [hput]
  simp only [Refs.writeBranchTip]
  cases hv : Refs.validateBranchName st.repo.refs.head with
  | error e => rfl
  | ok _ => exact ⟨rfl, rfl, rfl, rfl⟩

theorem recordOp_outcome {desc head : String} {before after : Option ObjectId} {st : Logged}
    (h : Refs.validateBranchName head = .ok ()) :
    Outcome (recordOp env desc head [(head, before, after)]) st
      (fun _ st' => st'.repo = st.repo) (fun e st' => env.logFault = some e ∧ st' = st) := by
  unfold recordOp
  cases hf : env.logFault with
  | some e => exact Outcome.throw ⟨rfl, rfl⟩
  | none =>
    have hclean : [(head, before, after)].find? (fun r => unparseable r.1) = none := by
      simp [parseable_of_valid h]
    simp only [record, hclean]
    exact Outcome.modify rfl

/-- An edit either lands or moves no ref, unless only the log refused it. -/
theorem editPolicy_outcome (op desc message : String)
    (edit : Store → Snapshot → Except Error Protection) (st : Logged) :
    Outcome (editPolicy env op desc message edit) st (Edited env edit st)
      (fun e st' => st'.repo.refs = st.repo.refs ∨
        env.logFault = some e ∧ ∃ id, Edited env edit st id st') := by
  refine .bind (.get (.bind (liftExcept_outcome.mono ?_ fun _ _ h => .inl (by rw [h]))))
  rintro _ _ ⟨-, rfl⟩
  refine .bind (liftExcept_outcome.mono ?_ fun _ _ h => .inl (by rw [h]))
  rintro (_ | tip) _ ⟨htip, rfl⟩
  · exact .throw (.inl rfl)
  refine .bind (liftExcept_outcome.mono ?_ fun _ _ h => .inl (by rw [h]))
  rintro snap _ ⟨hsnap, rfl⟩
  refine .bind (liftExcept_outcome.mono ?_ fun _ _ h => .inl (by rw [h]))
  rintro p _ ⟨hedit, rfl⟩
  refine .bind (liftExcept_outcome.mono ?_ fun _ _ h => .inl (by rw [h]))
  rintro before st ⟨-, rfl⟩
  refine .bind (commitSnapshot_outcome.mono ?_ fun _ _ h => .inl h)
  rintro _ st' ⟨rfl, hheld, hrefs, hvalid⟩
  have hlanded : Edited env edit st _ st' :=
    ⟨tip, snap, p, htip, hsnap, hedit, hrefs, _, rfl, hheld, rfl, rfl, rfl⟩
  refine .bind ((recordOp_outcome hvalid).mono ?_ ?_)
  · rintro _ st'' hrepo
    exact .pure ⟨tip, snap, p, htip, hsnap, hedit, hrepo ▸ hrefs, _, rfl, hrepo ▸ hheld, rfl, rfl,
      rfl⟩
  · rintro e st'' ⟨hfault, rfl⟩
    exact .inr ⟨hfault, _, hlanded⟩

/-- The head branch moved to a snapshot of the tip's root and secrets, whose policy stands to the
tip's files and policy as `P` says. -/
def Edits (env : AccessEnv crypto) (P : FileMap → Protection → Protection → Prop) (st : Logged)
    (id : ObjectId) (st' : Logged) : Prop :=
  ∃ tip snap p entries, st.repo.refs.headTip = .ok (some tip) ∧
    st.repo.store.getSnapshot tip = .ok snap ∧
    treeFileEntriesWithPerms env.fuel st.repo.store snap.root = .ok entries ∧
    Landed env snap p st id st' ∧ P entries snap.protection p

theorem Edited.edits {edit : Store → Snapshot → Except Error Protection}
    {P : FileMap → Protection → Protection → Prop} {st st' : Logged} {id : ObjectId}
    (hP : ∀ store snap p, edit store snap = .ok p →
      ∃ entries, treeFileEntriesWithPerms env.fuel store snap.root = .ok entries ∧
        P entries snap.protection p)
    (h : Edited env edit st id st') : Edits env P st id st' := by
  obtain ⟨tip, snap, p, htip, hsnap, hedit, hlanded⟩ := h
  obtain ⟨entries, hentries, hp⟩ := hP _ _ _ hedit
  exact ⟨tip, snap, p, entries, htip, hsnap, hentries, hlanded, hp⟩

/-- The run edits the tip as `P` says, or fails without moving a ref; only where the log refuses
the record does an error come after the edit. -/
def EditsOrFails (env : AccessEnv crypto) (m : OpM ObjectId)
    (P : FileMap → Protection → Protection → Prop) (st : Logged) : Prop :=
  Outcome m st (Edits env P st) (fun e st' => st'.repo.refs = st.repo.refs ∨
    env.logFault = some e ∧ ∃ id, Edits env P st id st')

theorem editPolicy_edits {op desc message : String}
    {edit : Store → Snapshot → Except Error Protection}
    {P : FileMap → Protection → Protection → Prop}
    (hP : ∀ store snap p, edit store snap = .ok p →
      ∃ entries, treeFileEntriesWithPerms env.fuel store snap.root = .ok entries ∧
        P entries snap.protection p)
    (st : Logged) : EditsOrFails env (editPolicy env op desc message edit) P st := by
  refine (editPolicy_outcome op desc message edit st).mono (fun _ _ h => h.edits hP) ?_
  rintro e st' (hsame | ⟨hfault, id, h⟩)
  · exact .inl hsame
  · exact .inr ⟨hfault, id, h.edits hP⟩

/-- A revocation and a grant edit the wraps of the blobs under one rule, on the same root and
secrets. -/
theorem access_edits (haddr : AddressedWraps crypto) (hopen : WrapsOpen env) (st : Logged) :
    (∀ pre rid, EditsOrFails env (revoke env pre rid)
      (fun entries old new => Revoked entries old new pre rid) st) ∧
      ∀ pre authorized key, EditsOrFails env (grant env pre authorized key)
        (fun entries old new => Granted env entries old new pre authorized key) st :=
  ⟨fun _ _ => editPolicy_edits (fun _ _ _ => revokeProtection_revoked) st,
    fun _ _ _ => editPolicy_edits (fun _ _ _ => grantProtection_granted haddr hopen) st⟩

end Runs

/-! ## A blob under two rules -/

/-- A key is its own public key, and a wrap holds the key in the clear. -/
def clearCrypto : SealCrypto where
  SecretKey := Bytes
  Dek := Bytes
  unwrapDekWith w sk := if w.recipientId = hexEncode sk then some w.wrappedDek else none
  decryptPath _ _ := none
  encryptPath b := (b, [])
  encryptPathRandomized _ b := (b, [])
  wrapDekFor _ dek key := ⟨hexEncode key, dek⟩
  recipientId := hexEncode

def clearEnv (logFault : Option Error) : AccessEnv clearCrypto :=
  ⟨fun _ => testId 6, fun sk => sk, 0, 0, 3, .invalidArgument "", logFault⟩

theorem clearCrypto_addressed : AddressedWraps clearCrypto := fun _ _ _ => rfl

theorem clearEnv_opens (logFault : Option Error) : WrapsOpen (clearEnv logFault) :=
  fun _ _ _ => if_pos rfl

def alice : Bytes := [1]
def bob : Bytes := [2]

def sharedWraps : List WrappedKey := [⟨hexEncode alice, [7]⟩, ⟨hexEncode bob, [8]⟩]

/-- The same blob at `a/f` and `b/f`, wrapped for two recipients under different keys. -/
def sharedTip : Snapshot :=
  ⟨testId 0, [], "a", 0, "shared", ∅,
    ⟨[⟨"a", [⟨alice, 1, .granted⟩, ⟨bob, 1, .granted⟩]⟩,
      ⟨"b", [⟨alice, 1, .granted⟩, ⟨bob, 1, .granted⟩]⟩],
      (∅ : WrapMap).insert (testId 9) sharedWraps⟩⟩

def sharedRepo : Logged where
  repo :=
    { store := testStore
        [(0, .tree ⟨[⟨"a", .tree, testId 1, ⟨0⟩, 0⟩, ⟨"b", .tree, testId 1, ⟨0⟩, 0⟩]⟩),
          (1, .tree ⟨[⟨"f", .blob, testId 9, .FILE, PROTECTED⟩]⟩), (5, .snapshot sharedTip)]
      refs := ⟨(∅ : BTreeMap String ObjectId).insert "main" (testId 5), ∅, "main"⟩
      stopped := ⟨false, false, false⟩
      indexes := ⟨[], [], []⟩
      promisor := false }
  log := []
  written := 0

def sharedFile : FileEntry := ⟨testId 9, .FILE, PROTECTED⟩

theorem sharedRepo_files {entries : FileMap}
    (h : treeFileEntriesWithPerms 3 sharedRepo.repo.store (testId 0) = .ok entries) :
    BlobUnder entries sharedTip.protection.prefixes "a" (testId 9) ∧
      BlobUnder entries sharedTip.protection.prefixes "b" (testId 9) := by
  have hfiles : ∃ entries', treeFileEntriesWithPerms 3 sharedRepo.repo.store (testId 0) =
      .ok entries' ∧ entries'["a/f"]? = some sharedFile ∧ entries'["b/f"]? = some sharedFile :=
    ⟨_, rfl, by decide +kernel, by decide +kernel⟩
  obtain ⟨entries', h', ha, hb⟩ := hfiles
  rw [h] at h'
  cases h'
  exact ⟨⟨"a/f", _, ha, by decide, by decide +kernel, rfl⟩,
    ⟨"b/f", _, hb, by decide, by decide +kernel, rfl⟩⟩

theorem sharedRepo_tip {tip : ObjectId} {snap : Snapshot}
    (htip : sharedRepo.repo.refs.headTip = .ok (some tip))
    (hsnap : sharedRepo.repo.store.getSnapshot tip = .ok snap) : snap = sharedTip := by
  cases htip
  cases hsnap
  rfl

theorem access_edits_shared :
    (∀ pre rid, EditsOrFails (clearEnv none) (revoke (clearEnv none) pre rid)
      (fun entries old new => Revoked entries old new pre rid) sharedRepo) ∧
      ∀ pre authorized key, EditsOrFails (clearEnv none) (grant (clearEnv none) pre authorized key)
        (fun entries old new => Granted (clearEnv none) entries old new pre authorized key)
        sharedRepo :=
  access_edits clearCrypto_addressed (clearEnv_opens none) sharedRepo

/-- Revoking bob under `a` cannot leave every wrap of a blob that is also under `b`; granting bob,
who holds a wrap of another key, does not bring him to alice's; and where the log refuses the
record, the error comes after the move. -/
theorem shared_blob_couples :
    ¬Outcome (revoke (clearEnv none) "a" (hexEncode bob)) sharedRepo
      (Edits (clearEnv none) (fun entries old new =>
        (∀ id, BlobUnder entries old.prefixes "a" id →
          ¬WrapMap.For new.wrapped id (hexEncode bob)) ∧
        ∀ pre id w, pre ≠ "a" → BlobUnder entries old.prefixes pre id → Holds old.wrapped id w →
          Holds new.wrapped id w) sharedRepo) (fun _ _ => True) ∧
    (∃ st' snap' a b, grant (clearEnv none) "a" alice bob sharedRepo = .ok (testId 6) st' ∧
      st'.repo.store.getSnapshot (testId 6) = .ok snap' ∧
      snap'.protection.wrapped[testId 9]? = some [a, b] ∧
      clearCrypto.unwrapDekWith a alice = some [7] ∧ clearCrypto.unwrapDekWith b alice = none ∧
      clearCrypto.unwrapDekWith a bob = none ∧ clearCrypto.unwrapDekWith b bob = some [8]) ∧
    ∃ st', revoke (clearEnv (some (.core .io))) "a" (hexEncode bob) sharedRepo =
      .error (.core .io) st' ∧ sharedRepo.repo.refs.heads["main"]? = some (testId 5) ∧
      st'.repo.refs.heads["main"]? = some (testId 6) := by
  refine ⟨?_, ⟨_, _, ⟨hexEncode alice, [7]⟩, ⟨hexEncode bob, [8]⟩, rfl, rfl, by decide +kernel, rfl,
    rfl, rfl, rfl⟩, _, rfl, by decide +kernel, by decide +kernel⟩
  have hrun : ∃ id st', revoke (clearEnv none) "a" (hexEncode bob) sharedRepo = .ok id st' :=
    ⟨_, _, rfl⟩
  obtain ⟨id, st', hrun⟩ := hrun
  rw [Outcome, hrun]
  rintro ⟨tip, snap, p, entries, htip, hsnap, hentries, -, hgone, hkept⟩
  obtain rfl := sharedRepo_tip htip hsnap
  obtain ⟨ha, hb⟩ := sharedRepo_files hentries
  obtain ⟨wks, hwks, hw⟩ := hkept "b" (testId 9) ⟨hexEncode bob, [8]⟩ (by decide) hb
    ⟨sharedWraps, by decide +kernel, by decide⟩
  exact hgone _ ha ⟨wks, hwks, _, hw, rfl⟩

end SrcControl.AccessOps
