import SrcControl.Lib.Outcome
import SrcControl.Repo.Rewrap

/-!
# The rewrap of the paths

The loop over the tip's files changes the wraps of a blob that the tip has only in place, and
then the identity's own wrap stays what it was or goes for good. So which of the paths that share
a blob are rewrapped, and whose recipients it ends with, is told by their rules alone: the first
in order that leaves the identity out has the last word. A resealed path gets a blob of its own.
-/

namespace SrcControl.Rewrap

open TreeEntries Fallible AccessOps Transport

section Terms

variable {crypto : SealCrypto} (env : RewrapEnv crypto) (identity : crypto.SecretKey)
  (escrows : List Bytes) (rotate : Bool) (prefixes : List ProtectPrefix)

/-- What is asked of the crypto layer: a fresh wrap names and opens for its recipient, a fresh
seal opens, and keys have their own fingerprints. -/
structure CryptoLaws : Prop where
  addressed : AddressedWraps crypto
  wrapsOpen : WrapsOpen env.toAccessEnv
  unseals : ∀ i pt, crypto.decryptPath (crypto.encryptPathRandomized i pt).1
    (crypto.encryptPathRandomized i pt).2 = some pt
  fingerprint : Function.Injective crypto.recipientId

/-- The identity's recipient id. -/
def me : String := crypto.recipientId (env.publicKey identity)

/-- The identity's wrap of a blob opens to `dek`. -/
def Opens (m : WrapMap) (id : ObjectId) (w : WrappedKey) (dek : crypto.Dek) : Prop :=
  m[id]?.bind (wrapOf env identity) = some w ∧ crypto.unwrapDekWith w identity = some dek

/-- Whoever the wrap is addressed to opens it to a key under which the ciphertext is `pt`. -/
def OpensTo (w : WrappedKey) (cipher pt : Bytes) : Prop :=
  ∀ sk, crypto.recipientId (env.publicKey sk) = w.recipientId →
    ∃ dek, crypto.unwrapDekWith w sk = some dek ∧ crypto.decryptPath cipher dek = some pt

def AllOpen (m : WrapMap) (id : ObjectId) (cipher pt : Bytes) : Prop :=
  ∀ wks, m[id]? = some wks → ∀ w ∈ wks, OpensTo env w cipher pt

/-- The keys a path is rewrapped for: those its rule grants, where it grants any, and the
escrows. -/
def targetsOf (recipientId : Bytes → String) (path : String) : Option (List Bytes) :=
  match matchingPrefix prefixes path with
  | none => none
  | some rule =>
    if rule.grantedKeys = [] then none
    else some (appendDedup recipientId rule.grantedKeys escrows)

/-- A protected file whose blob is rewrapped rather than resealed. -/
def inPlace (fe : FileEntry) : Bool :=
  fe.perms &&& PROTECTED ≠ 0 && !(convergent fe || rotate)

/-- The recipients that a path asks for its blob `id`, where it is rewrapped in place. -/
def overwrite (recipientId : Bytes → String) (id : ObjectId) (e : String × FileEntry) :
    Option (List String) :=
  if inPlace rotate e.2 ∧ e.2.id = id then
    (targetsOf escrows prefixes recipientId e.1).map (·.map recipientId)
  else none

def overwrites (recipientId : Bytes → String) (es : List (String × FileEntry)) (id : ObjectId) :
    List (List String) :=
  es.filterMap (overwrite escrows rotate prefixes recipientId id)

/-- Of the recipients asked for in turn the later replace the earlier ones, until `who` is left
out. -/
def decided (who : String) (asked : List (List String)) : Option (List String) :=
  asked.foldl (fun r rids =>
    match r with
    | none => some rids
    | some last => if who ∈ last then some rids else some last) none

/-- The wraps of a blob whose recipients were decided as `r`, `w` being the identity's wrap. -/
def Settled (m₀ m : WrapMap) (id : ObjectId) (w : WrappedKey) : Option (List String) → Prop
  | none => m[id]? = m₀[id]?
  | some rids => ∃ wks, m[id]? = some wks ∧ (∀ rid, WrapsFor wks rid ↔ rid ∈ rids) ∧
      wrapOf env identity wks = if me env identity ∈ rids then some w else none

/-- The identity has no wrap of the blob that opens, or opening it does not give plaintext. -/
def Stuck (m : WrapMap) (store : Store) (e : String × FileEntry) : Prop :=
  ∀ targets w dek, targetsOf escrows prefixes crypto.recipientId e.1 = some targets →
    Opens env identity m e.2.id w dek →
    ∃ o, store.objects[e.2.id]? = some o ∧
      ∀ cipher, o = .blob cipher → crypto.decryptPath cipher dek = none

/-- What one turn of the loop does. -/
inductive Step (s : PathsRun) (store : Store) (e : String × FileEntry) : PathsRun → Store → Prop
  | plain (h : e.2.perms &&& PROTECTED = 0) : Step s store e s store
  | skipped {reason : String} (hp : e.2.perms &&& PROTECTED ≠ 0)
    (hplace : inPlace rotate e.2 = true → ∀ targets w dek,
      targetsOf escrows prefixes crypto.recipientId e.1 = some targets →
      ¬Opens env identity s.wrapped e.2.id w dek)
    (hstuck : inPlace rotate e.2 = false → Stuck env identity escrows prefixes s.wrapped store e) :
    Step s store e (s.skip e.1 reason) store
  | resealed {targets : List Bytes} {w : WrappedKey} {dek : crypto.Dek} {cipher pt : Bytes}
    {s' : PathsRun} (hp : e.2.perms &&& PROTECTED ≠ 0) (hplace : inPlace rotate e.2 = false)
    (ht : targetsOf escrows prefixes crypto.recipientId e.1 = some targets)
    (ho : Opens env identity s.wrapped e.2.id w dek)
    (hget : store.objects[e.2.id]? = some (.blob cipher))
    (hdec : crypto.decryptPath cipher dek = some pt)
    (hwrapped : s'.wrapped = s.wrapped.insert
      (env.idOf (.blob (crypto.encryptPathRandomized s.draw pt).1))
      (sortWraps (targets.map
        (crypto.wrapDekFor s.draw (crypto.encryptPathRandomized s.draw pt).2))))
    (hretargets : s'.retargets = s.retargets.insert e.1
      (env.idOf (.blob (crypto.encryptPathRandomized s.draw pt).1), PROTECTED ||| RANDOMIZED))
    (hupgraded : s'.upgradedFrom = s.upgradedFrom.insert e.2.id)
    (hskipped : s'.skipped = s.skipped) (hdraw : s'.draw = s.draw + 1) :
    Step s store e s'
      (store.put env.idOf (.blob (crypto.encryptPathRandomized s.draw pt).1)).2
  | rewrapped {targets : List Bytes} {wks : List WrappedKey} {w : WrappedKey} {dek : crypto.Dek}
    {s' : PathsRun} (hplace : inPlace rotate e.2 = true)
    (ht : targetsOf escrows prefixes crypto.recipientId e.1 = some targets)
    (hwks : s.wrapped[e.2.id]? = some wks) (hw : wrapOf env identity wks = some w)
    (hdek : crypto.unwrapDekWith w identity = some dek)
    (hwrapped : s'.wrapped = s.wrapped.insert e.2.id (rebuiltWraps s.draw dek wks targets))
    (hretargets : s'.retargets = s.retargets) (hupgraded : s'.upgradedFrom = s.upgradedFrom)
    (hskipped : s'.skipped = s.skipped) (hdraw : s'.draw = s.draw + 1) :
    Step s store e s' store

end Terms

/-! ## One turn -/

section Turn

variable {crypto : SealCrypto} {env : RewrapEnv crypto} {identity : crypto.SecretKey}
  {escrows : List Bytes} {rotate : Bool} {prefixes : List ProtectPrefix}

theorem access_ok (escrows : List Bytes) {m : WrapMap} {path : String} {id : ObjectId}
    {a : Access crypto}
    (h : access env identity prefixes m path id = .ok a) :
    targetsOf escrows prefixes crypto.recipientId path =
        some (appendDedup crypto.recipientId a.granted escrows) ∧
      m[id]? = some a.wks ∧ ∃ w, wrapOf env identity a.wks = some w ∧
        crypto.unwrapDekWith w identity = some a.dek := by
  unfold access at h
  split at h
  · cases h
  · next rule hrule =>
    split_ifs at h with hgranted
    split at h
    · cases h
    · next wks hwks =>
      split at h
      · cases h
      · next w hw =>
        split at h
        · cases h
        · next dek hdek =>
          cases h
          refine ⟨?_, hwks, w, hw, hdek⟩
          rw [targetsOf, hrule]
          exact if_neg hgranted

theorem access_error (escrows : List Bytes) {m : WrapMap} {path reason : String} {id : ObjectId}
    (h : access env identity prefixes m path id = .error reason) (targets : List Bytes)
    (w : WrappedKey) (dek : crypto.Dek)
    (ht : targetsOf escrows prefixes crypto.recipientId path = some targets) :
    ¬Opens env identity m id w dek := by
  rintro ⟨hw, hdek⟩
  obtain ⟨wks, hwks, hw⟩ := Option.bind_eq_some_iff.mp hw
  unfold access at h
  unfold targetsOf at ht
  cases hrule : matchingPrefix prefixes path with
  | none =>
    rw [hrule] at ht
    cases ht
  | some rule =>
    rw [hrule] at h ht
    simp only at h ht
    split_ifs at ht with hgranted
    simp only [hwks, hw, hdek, if_neg hgranted] at h
    cases h

theorem Opens.of_wks {m : WrapMap} {id : ObjectId} {wks : List WrappedKey} {w : WrappedKey}
    {dek : crypto.Dek} (hwks : m[id]? = some wks) (hw : wrapOf env identity wks = some w)
    (hdek : crypto.unwrapDekWith w identity = some dek) : Opens env identity m id w dek :=
  ⟨Option.bind_eq_some_iff.mpr ⟨wks, hwks, hw⟩, hdek⟩

theorem inPlace_false {fe : FileEntry} (h : (convergent fe || rotate) = true) :
    inPlace rotate fe = false := by
  rw [inPlace, h]
  simp

theorem inPlace_true {fe : FileEntry} (hp : fe.perms &&& PROTECTED ≠ 0)
    (h : ¬(convergent fe || rotate) = true) : inPlace rotate fe = true := by
  rw [inPlace, Bool.eq_false_of_not_eq_true h]
  simpa using hp

theorem resealPath_step {s : PathsRun} {store : Store} {e : String × FileEntry} {a : Access crypto}
    (hp : e.2.perms &&& PROTECTED ≠ 0) (hkind : (convergent e.2 || rotate) = true)
    (ha : access env identity prefixes s.wrapped e.1 e.2.id = .ok a) :
    Outcome (resealPath env false s e.1 e.2 (appendDedup crypto.recipientId a.granted escrows)
      a.dek) store (Step env identity escrows rotate prefixes s store e) (fun _ _ => True) := by
  obtain ⟨ht, hwks, w, hw, hdek⟩ := access_ok escrows ha
  have ho := Opens.of_wks hwks hw hdek
  have hplace := inPlace_false hkind
  -- an object that gives no plaintext under the key the identity opens
  have hskip : ∀ (o : Object) (reason : String), store.objects[e.2.id]? = some o →
      (∀ cipher, o = .blob cipher → crypto.decryptPath cipher a.dek = none) →
      Step env identity escrows rotate prefixes s store e (s.skip e.1 reason) store := by
    intro o reason hget hnone
    refine .skipped hp (fun h => absurd h (by rw [hplace]; decide)) fun _ _ w' dek' _ ho' => ?_
    have hw' := ho'.1.symm.trans ho.1
    cases hw'
    have hd := ho'.2.symm.trans ho.2
    cases hd
    exact ⟨o, hget, hnone⟩
  unfold resealPath
  refine .bind ?_
  unfold Outcome read
  cases hget : store.get e.2.id with
  | error err => trivial
  | ok o =>
    have hobj := Store.get_eq_ok_iff.mp hget
    cases o with
    | blob cipher =>
      cases hdec : crypto.decryptPath cipher a.dek with
      | none =>
        simp only [hdec]
        refine hskip _ _ hobj fun c hc => ?_
        cases hc
        exact hdec
      | some pt =>
        simp only [hdec]
        refine .resealed hp hplace ht ho hobj hdec ?_ ?_ ?_ ?_ ?_ <;>
          (unfold PathsRun.count; split <;> rfl)
    | tree _ => exact hskip _ _ hobj (by simp)
    | snapshot _ => exact hskip _ _ hobj (by simp)
    | secret _ => exact hskip _ _ hobj (by simp)
    | signature _ => exact hskip _ _ hobj (by simp)
    | transcript _ => exact hskip _ _ hobj (by simp)
    | sealed _ => exact hskip _ _ hobj (by simp)
    | manifest _ => exact hskip _ _ hobj (by simp)

theorem rewrapPath_step (s : PathsRun) (store : Store) (e : String × FileEntry) :
    Outcome (rewrapPath env identity escrows false rotate prefixes s e) store
      (Step env identity escrows rotate prefixes s store e) (fun _ _ => True) := by
  unfold rewrapPath
  by_cases hp : e.2.perms &&& PROTECTED = 0
  · rw [if_pos hp]
    exact .pure (.plain hp)
  rw [if_neg hp]
  cases ha : access env identity prefixes s.wrapped e.1 e.2.id with
  | error reason =>
    have hno := fun targets w dek => access_error escrows ha targets w dek
    exact .pure (.skipped hp (fun _ => hno) fun _ targets w dek ht ho =>
      absurd ho (hno targets w dek ht))
  | ok a =>
    by_cases hkind : (convergent e.2 || rotate) = true
    · simp only [if_pos hkind]
      exact resealPath_step hp hkind ha
    · obtain ⟨ht, hwks, w, hw, hdek⟩ := access_ok escrows ha
      simp only [if_neg hkind]
      exact .pure (.rewrapped (inPlace_true hp hkind) ht hwks hw hdek rfl rfl rfl rfl rfl)

end Turn

/-! ## The wraps of one blob -/

section Wraps

variable {crypto : SealCrypto} {env : RewrapEnv crypto} {identity : crypto.SecretKey}
  {escrows : List Bytes} {rotate : Bool} {prefixes : List ProtectPrefix}

theorem mem_sortWraps {wks : List WrappedKey} {w : WrappedKey} : w ∈ sortWraps wks ↔ w ∈ wks :=
  List.mem_mergeSort

/-- A wrap of the rebuilt list is a prior one of its recipient, or a fresh one. -/
theorem mem_rebuiltWraps {draw : Nat} {dek : crypto.Dek} {prior : List WrappedKey}
    {targets : List Bytes} {w : WrappedKey} :
    w ∈ rebuiltWraps draw dek prior targets ↔ ∃ pk ∈ targets,
      (prior.find? (fun w => w.recipientId = crypto.recipientId pk)).getD
        (crypto.wrapDekFor draw dek pk) = w := by
  rw [rebuiltWraps, mem_sortWraps, List.mem_map]

theorem rebuilt_recipient (laws : CryptoLaws env) (draw : Nat) (dek : crypto.Dek)
    (prior : List WrappedKey) (pk : Bytes) :
    ((prior.find? (fun w => w.recipientId = crypto.recipientId pk)).getD
      (crypto.wrapDekFor draw dek pk)).recipientId = crypto.recipientId pk := by
  cases hf : prior.find? (fun w => w.recipientId = crypto.recipientId pk) with
  | none => exact laws.addressed _ _ _
  | some w => simpa using List.find?_some hf

theorem wrapsFor_rebuilt (laws : CryptoLaws env) {draw : Nat} {dek : crypto.Dek}
    {prior : List WrappedKey} {targets : List Bytes} {rid : String} :
    WrapsFor (rebuiltWraps draw dek prior targets) rid ↔
      rid ∈ targets.map crypto.recipientId := by
  rw [List.mem_map]
  constructor
  · rintro ⟨w, hw, rfl⟩
    obtain ⟨pk, hpk, rfl⟩ := mem_rebuiltWraps.mp hw
    exact ⟨pk, hpk, (rebuilt_recipient laws draw dek prior pk).symm⟩
  · rintro ⟨pk, hpk, rfl⟩
    exact ⟨_, mem_rebuiltWraps.mpr ⟨pk, hpk, rfl⟩, rebuilt_recipient laws draw dek prior pk⟩

theorem wrapsFor_fresh (laws : CryptoLaws env) {draw : Nat} {dek : crypto.Dek}
    {targets : List Bytes} {rid : String} :
    WrapsFor (sortWraps (targets.map (crypto.wrapDekFor draw dek))) rid ↔
      rid ∈ targets.map crypto.recipientId := by
  simp only [WrapsFor, mem_sortWraps, List.mem_map]
  constructor
  · rintro ⟨-, ⟨pk, hpk, rfl⟩, rfl⟩
    exact ⟨pk, hpk, (laws.addressed _ _ _).symm⟩
  · rintro ⟨pk, hpk, rfl⟩
    exact ⟨_, ⟨pk, hpk, rfl⟩, laws.addressed _ _ _⟩

/-- The identity keeps the wrap it had, or is left out. -/
theorem wrapOf_rebuilt (laws : CryptoLaws env) {draw : Nat} {dek : crypto.Dek}
    {prior : List WrappedKey} {targets : List Bytes} {w : WrappedKey}
    (hw : wrapOf env identity prior = some w) :
    wrapOf env identity (rebuiltWraps draw dek prior targets) =
      if me env identity ∈ targets.map crypto.recipientId then some w else none := by
  have hall : ∀ v ∈ rebuiltWraps draw dek prior targets, v.recipientId = me env identity →
      v = w := by
    intro v hv hrid
    obtain ⟨pk, -, rfl⟩ := mem_rebuiltWraps.mp hv
    rw [rebuilt_recipient laws] at hrid
    have hf : prior.find? (fun w => w.recipientId = crypto.recipientId pk) = some w := by
      rw [hrid]
      exact hw
    rw [hf]
    rfl
  split_ifs with hin
  · have hfor : WrapsFor (rebuiltWraps draw dek prior targets) (me env identity) :=
      (wrapsFor_rebuilt laws).mpr hin
    obtain ⟨v, hv, hrid⟩ := hfor
    unfold wrapOf
    cases hf : (rebuiltWraps draw dek prior targets).find?
        (fun w => w.recipientId = crypto.recipientId (env.publicKey identity)) with
    | none =>
      have hno := List.find?_eq_none.mp hf v hv
      exact absurd (decide_eq_true hrid) hno
    | some u => rw [hall u (List.mem_of_find?_eq_some hf) (by simpa [me] using List.find?_some hf)]
  · refine List.find?_eq_none.mpr fun v hv hrid => hin ?_
    exact (wrapsFor_rebuilt laws).mp ⟨v, hv, by simpa [me] using hrid⟩

theorem opensTo_fresh (laws : CryptoLaws env) {draw : Nat} {dek : crypto.Dek} {pk cipher pt : Bytes}
    (h : crypto.decryptPath cipher dek = some pt) :
    OpensTo env (crypto.wrapDekFor draw dek pk) cipher pt := by
  intro sk hsk
  rw [laws.addressed] at hsk
  obtain rfl := laws.fingerprint hsk
  exact ⟨dek, laws.wrapsOpen _ _ _, h⟩

/-- Wraps that all open to one plaintext are rebuilt as such. -/
theorem opensTo_rebuilt (laws : CryptoLaws env) {draw : Nat} {dek : crypto.Dek}
    {prior : List WrappedKey} {targets : List Bytes} {w : WrappedKey} {cipher pt : Bytes}
    (hw : wrapOf env identity prior = some w)
    (hdek : crypto.unwrapDekWith w identity = some dek)
    (h : ∀ v ∈ prior, OpensTo env v cipher pt) :
    ∀ v ∈ rebuiltWraps draw dek prior targets, OpensTo env v cipher pt := by
  have hrid : w.recipientId = crypto.recipientId (env.publicKey identity) := by
    simpa using List.find?_some hw
  obtain ⟨dek', hdek', hplain⟩ := h w (List.mem_of_find?_eq_some hw) identity hrid.symm
  rw [hdek] at hdek'
  cases hdek'
  intro v hv
  obtain ⟨pk, -, rfl⟩ := mem_rebuiltWraps.mp hv
  cases hf : prior.find? (fun w => w.recipientId = crypto.recipientId pk) with
  | none => exact opensTo_fresh laws hplain
  | some u => exact h u (List.mem_of_find?_eq_some hf)

/-! ## Which recipients a blob ends with -/

theorem decided_append (who : String) (asked : List (List String)) (rids : List String) :
    decided who (asked ++ [rids]) = match decided who asked with
      | none => some rids
      | some last => if who ∈ last then some rids else some last := by
  rw [decided, List.foldl_append]
  rfl

/-- The recipients decided are those of one of the paths that ask. -/
theorem decided_mem {who : String} {asked : List (List String)} {rids : List String}
    (h : decided who asked = some rids) : rids ∈ asked := by
  induction asked using List.reverseRecOn with
  | nil => cases h
  | append_singleton asked r ih =>
    rw [decided_append] at h
    cases hd : decided who asked with
    | none =>
      rw [hd] at h
      cases h
      exact List.mem_append_right _ (List.mem_singleton_self _)
    | some last =>
      rw [hd] at h
      simp only at h
      split_ifs at h
      · cases h
        exact List.mem_append_right _ (List.mem_singleton_self _)
      · cases h
        exact List.mem_append_left _ (ih hd)

theorem decided_ne_none {who : String} {asked : List (List String)} (h : asked ≠ []) :
    decided who asked ≠ none := by
  induction asked using List.reverseRecOn with
  | nil => exact absurd rfl h
  | append_singleton asked r _ =>
    rw [decided_append]
    cases decided who asked with
    | none => exact Option.some_ne_none _
    | some last =>
      simp only
      split_ifs <;> exact Option.some_ne_none _

/-- When all paths ask for the same recipients, these are it. -/
theorem decided_const {who : String} {asked : List (List String)} {rids : List String}
    (hne : asked ≠ []) (h : ∀ r ∈ asked, r = rids) : decided who asked = some rids := by
  cases hd : decided who asked with
  | none => exact absurd hd (decided_ne_none hne)
  | some r => rw [h r (decided_mem hd)]

theorem overwrites_append (done : List (String × FileEntry)) (e : String × FileEntry)
    (id : ObjectId) :
    overwrites escrows rotate prefixes crypto.recipientId (done ++ [e]) id =
      overwrites escrows rotate prefixes crypto.recipientId done id ++
        (overwrite escrows rotate prefixes crypto.recipientId id e).toList := by
  rw [overwrites, List.filterMap_append, List.filterMap_cons, List.filterMap_nil]
  cases overwrite escrows rotate prefixes crypto.recipientId id e <;> rfl

/-- A path that asks for nothing decides nothing. -/
theorem overwrites_skip {done : List (String × FileEntry)} {e : String × FileEntry} {id : ObjectId}
    (h : overwrite escrows rotate prefixes crypto.recipientId id e = none) :
    overwrites escrows rotate prefixes crypto.recipientId (done ++ [e]) id =
      overwrites escrows rotate prefixes crypto.recipientId done id := by
  rw [overwrites_append, h]
  exact List.append_nil _

theorem overwrite_eq_none {id : ObjectId} {e : String × FileEntry}
    (h : inPlace rotate e.2 = false ∨ e.2.id ≠ id) :
    overwrite escrows rotate prefixes crypto.recipientId id e = none := by
  refine if_neg ?_
  rintro ⟨hp, hid⟩
  rcases h with h | h
  · rw [h] at hp
    cases hp
  · exact h hid

/-- Settled recipients are all that decides whether the identity's wrap still opens. -/
theorem Settled.opens {m₀ m : WrapMap} {id : ObjectId} {w v : WrappedKey} {dek dek' : crypto.Dek}
    {r : Option (List String)} (h : Settled env identity m₀ m id w r)
    (ho : Opens env identity m₀ id w dek) (hv : Opens env identity m id v dek') : v = w := by
  cases r with
  | none =>
    have hw := hv.1
    rw [Settled] at h
    rw [h, ho.1] at hw
    exact (Option.some.inj hw).symm
  | some rids =>
    obtain ⟨wks, hwks, -, hof⟩ := h
    have hw := hv.1
    rw [hwks, Option.bind_some, hof] at hw
    split_ifs at hw
    exact (Option.some.inj hw).symm

end Wraps

/-! ## The whole loop -/

section Loop

variable {crypto : SealCrypto} (env : RewrapEnv crypto) (identity : crypto.SecretKey)
  (escrows : List Bytes) (rotate : Bool) (prefixes : List ProtectPrefix) (m₀ : WrapMap)
  (store₀ : Store)

/-- A path got a blob of its own: what its old blob opens to for the identity is sealed again and
wrapped for the path's targets. -/
inductive Resealed (draw₀ : Nat) (s : PathsRun) (store : Store) (e : String × FileEntry)
    (r : ObjectId × UInt8) : Prop
  | intro {targets : List Bytes} {w : WrappedKey} {dek : crypto.Dek} {cipher pt : Bytes} {i : Nat}
    (hp : e.2.perms &&& PROTECTED ≠ 0) (hplace : inPlace rotate e.2 = false)
    (ht : targetsOf escrows prefixes crypto.recipientId e.1 = some targets)
    (ho : Opens env identity m₀ e.2.id w dek)
    (hget : store₀.objects[e.2.id]? = some (.blob cipher))
    (hdec : crypto.decryptPath cipher dek = some pt) (hle : draw₀ ≤ i) (hlt : i < s.draw)
    (hr : r = (env.idOf (.blob (crypto.encryptPathRandomized i pt).1), PROTECTED ||| RANDOMIZED))
    (hwraps : s.wrapped[r.1]? = some (sortWraps
      (targets.map (crypto.wrapDekFor i (crypto.encryptPathRandomized i pt).2))))
    (hheld : ∃ o, store.objects[r.1]? = some o) : Resealed draw₀ s store e r

/-- What became of a protected path. -/
inductive Fate (s : PathsRun) (e : String × FileEntry) : Prop
  | skipped {reason : String} (hreport : ("path " ++ e.1, reason) ∈ s.skipped)
    (hkeep : s.retargets[e.1]? = none)
    (hstuck : inPlace rotate e.2 = false → Stuck env identity escrows prefixes s.wrapped store₀ e)
  | resealed {r : ObjectId × UInt8} (h : s.retargets[e.1]? = some r)
  | rewrapped {targets : List Bytes} {w : WrappedKey} {dek : crypto.Dek}
    (hplace : inPlace rotate e.2 = true) (hkeep : s.retargets[e.1]? = none)
    (ht : targetsOf escrows prefixes crypto.recipientId e.1 = some targets)
    (ho : Opens env identity m₀ e.2.id w dek)

/-- What holds in the loop once the files of `done` are behind; `used` are the blobs and
addresses that were there before it. -/
structure Progress (used : ObjectId → Prop) (draw₀ : Nat) (done : List (String × FileEntry))
    (s : PathsRun) (store : Store) : Prop where
  grows : Extends store₀ store
  same : ∀ b, used b → store.objects[b]? = store₀.objects[b]?
  draws : draw₀ ≤ s.draw
  shut : ∀ b, used b → (∀ w dek, ¬Opens env identity m₀ b w dek) → s.wrapped[b]? = m₀[b]?
  settled : ∀ b w dek, used b → Opens env identity m₀ b w dek →
    Settled env identity m₀ s.wrapped b w (decided (me env identity)
      (overwrites escrows rotate prefixes crypto.recipientId done b))
  genuine : ∀ b cipher pt, used b → AllOpen env m₀ b cipher pt → AllOpen env s.wrapped b cipher pt
  keys : ∀ b wks, s.wrapped[b]? = some wks →
    used b ∨ ∃ (path : String) (r : ObjectId × UInt8), s.retargets[path]? = some r ∧ r.1 = b
  upgraded : ∀ b ∈ s.upgradedFrom, ∃ e ∈ done, e.2.id = b ∧ s.retargets[e.1]? ≠ none
  retargets : ∀ (path : String) r, s.retargets[path]? = some r → ∃ fe, (path, fe) ∈ done ∧
    Resealed env identity escrows rotate prefixes m₀ store₀ draw₀ s store (path, fe) r
  distinct : ∀ (p q : String) (r r' : ObjectId × UInt8), s.retargets[p]? = some r →
    s.retargets[q]? = some r' → r.1 = r'.1 → p = q
  fates : ∀ e ∈ done, e.2.perms &&& PROTECTED ≠ 0 →
    Fate env identity escrows rotate prefixes m₀ store₀ s e

end Loop

section Progress

variable {crypto : SealCrypto} {env : RewrapEnv crypto} {identity : crypto.SecretKey}
  {escrows : List Bytes} {rotate : Bool} {prefixes : List ProtectPrefix} {m₀ : WrapMap}
  {store₀ : Store} {used : ObjectId → Prop} {draw₀ : Nat} {done : List (String × FileEntry)}
  {s s' : PathsRun} {store store' : Store} {e : String × FileEntry}

/-- In the loop the identity's wrap of a blob is the one it had, or gone. -/
theorem Progress.opens
    (h : Progress env identity escrows rotate prefixes m₀ store₀ used draw₀ done s store)
    {b : ObjectId} (hb : used b) {w : WrappedKey} {dek : crypto.Dek}
    (ho : Opens env identity s.wrapped b w dek) : Opens env identity m₀ b w dek := by
  by_cases hex : ∃ w₀ dek₀, Opens env identity m₀ b w₀ dek₀
  · obtain ⟨w₀, dek₀, ho₀⟩ := hex
    obtain rfl := (h.settled b w₀ dek₀ hb ho₀).opens ho₀ ho
    exact ⟨ho₀.1, ho.2⟩
  · push Not at hex
    have hsame := h.shut b hb hex
    exact ⟨hsame ▸ ho.1, ho.2⟩

theorem Fate.mono {e' : String × FileEntry}
    (h : Fate env identity escrows rotate prefixes m₀ store₀ s e')
    (hskip : s.skipped ⊆ s'.skipped) (hre : s'.retargets[e'.1]? = s.retargets[e'.1]?)
    (ho : ∀ w dek, Opens env identity s'.wrapped e'.2.id w dek →
      Opens env identity s.wrapped e'.2.id w dek) :
    Fate env identity escrows rotate prefixes m₀ store₀ s' e' := by
  cases h with
  | skipped hreport hkeep hstuck =>
    exact .skipped (hskip hreport) (hre.trans hkeep) fun hp targets w dek ht hw =>
      hstuck hp targets w dek ht (ho w dek hw)
  | resealed h => exact .resealed (hre.trans h)
  | rewrapped hplace hkeep ht hw => exact .rewrapped hplace (hre.trans hkeep) ht hw

theorem Resealed.mono {e' : String × FileEntry} {r : ObjectId × UInt8}
    (h : Resealed env identity escrows rotate prefixes m₀ store₀ draw₀ s store e' r)
    (hdraw : s.draw ≤ s'.draw) (hwrapped : s'.wrapped[r.1]? = s.wrapped[r.1]?)
    (hgrow : Extends store store') :
    Resealed env identity escrows rotate prefixes m₀ store₀ draw₀ s' store' e' r := by
  obtain ⟨hp, hplace, ht, ho, hget, hdec, hle, hlt, hr, hwraps, o, hheld⟩ := h
  exact ⟨hp, hplace, ht, ho, hget, hdec, hle, hlt.trans_le hdraw, hr, hwrapped.trans hwraps, o,
    hgrow _ _ hheld⟩

/-- The blob of a resealed path was not there before. -/
theorem Resealed.unused {r : ObjectId × UInt8} (hfresh : FreshSeals crypto env.idOf draw₀ used)
    (h : Resealed env identity escrows rotate prefixes m₀ store₀ draw₀ s store e r) :
    ¬used r.1 := by
  obtain ⟨-, -, -, -, -, -, hle, -, rfl, -, -⟩ := h
  exact hfresh.unused _ _ hle

/-- A turn that touches no wraps and no retargets. -/
theorem Progress.idle
    (h : Progress env identity escrows rotate prefixes m₀ store₀ used draw₀ done s store)
    (hwrapped : s'.wrapped = s.wrapped) (hretargets : s'.retargets = s.retargets)
    (hupgraded : s'.upgradedFrom = s.upgradedFrom) (hskip : s.skipped ⊆ s'.skipped)
    (hdraw : s'.draw = s.draw)
    (hsettled : ∀ b w dek, used b → Opens env identity m₀ b w dek →
      decided (me env identity) (overwrites escrows rotate prefixes crypto.recipientId
        (done ++ [e]) b) = decided (me env identity)
          (overwrites escrows rotate prefixes crypto.recipientId done b))
    (hfate : e.2.perms &&& PROTECTED ≠ 0 →
      Fate env identity escrows rotate prefixes m₀ store₀ s' e) :
    Progress env identity escrows rotate prefixes m₀ store₀ used draw₀ (done ++ [e]) s' store where
  grows := h.grows
  same := h.same
  draws := hdraw ▸ h.draws
  shut := hwrapped ▸ h.shut
  settled b w dek hb ho := by
    rw [hsettled b w dek hb ho, hwrapped]
    exact h.settled b w dek hb ho
  genuine := hwrapped ▸ h.genuine
  keys := by
    rw [hwrapped, hretargets]
    exact h.keys
  upgraded b hb := by
    obtain ⟨x, hx, hid, hr⟩ := h.upgraded b (hupgraded ▸ hb)
    exact ⟨x, List.mem_append_left _ hx, hid, hretargets ▸ hr⟩
  retargets path r hr := by
    rw [hretargets] at hr
    obtain ⟨fe, hmem, hre⟩ := h.retargets path r hr
    exact ⟨fe, List.mem_append_left _ hmem, hre.mono hdraw.ge (by rw [hwrapped]) (.refl store)⟩
  distinct := hretargets ▸ h.distinct
  fates e' he' hp := by
    rcases List.mem_append.mp he' with he' | he'
    · exact (h.fates e' he' hp).mono hskip (by rw [hretargets]) (fun w dek ho => hwrapped ▸ ho)
    · obtain rfl := List.mem_singleton.mp he'
      exact hfate hp

/-- The blob of a skipped path keeps the recipients decided so far: the path asks for none, or the
identity was left out. -/
theorem Progress.skip_settled
    (h : Progress env identity escrows rotate prefixes m₀ store₀ used draw₀ done s store)
    (hplace : inPlace rotate e.2 = true → ∀ targets w dek,
      targetsOf escrows prefixes crypto.recipientId e.1 = some targets →
      ¬Opens env identity s.wrapped e.2.id w dek) {b : ObjectId} {w : WrappedKey}
    {dek : crypto.Dek} (hb : used b) (ho : Opens env identity m₀ b w dek) :
    decided (me env identity) (overwrites escrows rotate prefixes crypto.recipientId
      (done ++ [e]) b) = decided (me env identity)
        (overwrites escrows rotate prefixes crypto.recipientId done b) := by
  cases hover : overwrite escrows rotate prefixes crypto.recipientId b e with
  | none => rw [overwrites_skip hover]
  | some rids =>
    unfold overwrite at hover
    split_ifs at hover with hc
    obtain ⟨hin, rfl⟩ := hc
    obtain ⟨targets, ht, rfl⟩ := Option.map_eq_some_iff.mp hover
    have hshut := hplace hin targets w dek ht
    have hset := h.settled e.2.id w dek hb ho
    rw [overwrites_append, overwrite, if_pos ⟨hin, rfl⟩, ht, Option.map_some, Option.toList_some,
      decided_append]
    cases hd : decided (me env identity)
        (overwrites escrows rotate prefixes crypto.recipientId done e.2.id) with
    | none =>
      rw [hd, Settled] at hset
      exact absurd ⟨hset ▸ ho.1, ho.2⟩ hshut
    | some last =>
      simp only
      split_ifs with hme
      · rw [hd] at hset
        obtain ⟨wks, hwks, -, hof⟩ := hset
        rw [if_pos hme] at hof
        exact absurd (.of_wks hwks hof ho.2) hshut
      · rfl

theorem getElem?_put_of_ne {idOf : Object → ObjectId} {st : Store} {o : Object} {b : ObjectId}
    (h : b ≠ idOf o) : (st.put idOf o).2.objects[b]? = st.objects[b]? := by
  unfold Store.put
  split_ifs
  · rfl
  · exact (BTreeMap.getElem?_insert st.objects (idOf o) b o).trans (if_neg h.symm)

/-- A resealed path takes a blob nobody has, and leaves all others as they are. -/
theorem Progress.reseal (hfresh : FreshSeals crypto env.idOf draw₀ used)
    (h : Progress env identity escrows rotate prefixes m₀ store₀ used draw₀ done s store)
    (hdone : ∀ x ∈ done, used x.2.id ∧ x.1 ≠ e.1) (hused : used e.2.id)
    {targets : List Bytes} {w : WrappedKey} {dek : crypto.Dek} {cipher pt : Bytes}
    (hp : e.2.perms &&& PROTECTED ≠ 0) (hplace : inPlace rotate e.2 = false)
    (ht : targetsOf escrows prefixes crypto.recipientId e.1 = some targets)
    (ho : Opens env identity s.wrapped e.2.id w dek)
    (hget : store.objects[e.2.id]? = some (.blob cipher))
    (hdec : crypto.decryptPath cipher dek = some pt)
    (hwrapped : s'.wrapped = s.wrapped.insert
      (env.idOf (.blob (crypto.encryptPathRandomized s.draw pt).1))
      (sortWraps (targets.map
        (crypto.wrapDekFor s.draw (crypto.encryptPathRandomized s.draw pt).2))))
    (hretargets : s'.retargets = s.retargets.insert e.1
      (env.idOf (.blob (crypto.encryptPathRandomized s.draw pt).1), PROTECTED ||| RANDOMIZED))
    (hupgraded : s'.upgradedFrom = s.upgradedFrom.insert e.2.id)
    (hskipped : s'.skipped = s.skipped) (hdraw : s'.draw = s.draw + 1) :
    Progress env identity escrows rotate prefixes m₀ store₀ used draw₀ (done ++ [e]) s'
      (store.put env.idOf (.blob (crypto.encryptPathRandomized s.draw pt).1)).2 := by
  have hnew : ¬used (env.idOf (.blob (crypto.encryptPathRandomized s.draw pt).1)) :=
    hfresh.unused _ _ h.draws
  obtain ⟨-, hgrow, hheld, -⟩ :=
    @put_spec env.idOf store (.blob (crypto.encryptPathRandomized s.draw pt).1)
  -- older blobs of their own are of earlier draws
  have hapart : ∀ (path : String) (r : ObjectId × UInt8), s.retargets[path]? = some r →
      env.idOf (.blob (crypto.encryptPathRandomized s.draw pt).1) ≠ r.1 := by
    intro path r hr
    obtain ⟨fe, -, hre⟩ := h.retargets path r hr
    obtain ⟨-, -, -, -, -, -, -, hlt, rfl, -, -⟩ := hre
    exact hfresh.apart _ _ _ _ (Nat.ne_of_gt hlt)
  generalize hid : env.idOf (.blob (crypto.encryptPathRandomized s.draw pt).1) = n at *
  have hold : ∀ b, b ≠ n → s'.wrapped[b]? = s.wrapped[b]? := fun b hb => by
    rw [hwrapped, BTreeMap.getElem?_insert, if_neg (Ne.symm hb)]
  have hne : ∀ b, used b → b ≠ n := fun b hb he => hnew (he ▸ hb)
  have hre : ∀ x ∈ done, s'.retargets[x.1]? = s.retargets[x.1]? := fun x hx => by
    rw [hretargets, BTreeMap.getElem?_insert, if_neg (hdone x hx).2.symm]
  have hmap : ∀ b, used b → ∀ v d, Opens env identity s'.wrapped b v d →
      Opens env identity s.wrapped b v d := fun b hb v d hv =>
    ⟨hold b (hne b hb) ▸ hv.1, hv.2⟩
  refine ⟨h.grows.trans hgrow, fun b hb => ?_, ?_, fun b hb hno => ?_, fun b v d hb hv => ?_,
    fun b c p hb hall => ?_, fun b wks hb => ?_, fun b hb => ?_, fun path r hr => ?_, ?_, ?_⟩
  · exact (getElem?_put_of_ne (by rw [hid]; exact hne b hb)).trans (h.same b hb)
  · exact hdraw ▸ Nat.le_succ_of_le h.draws
  · exact (hold b (hne b hb)).trans (h.shut b hb hno)
  · have hset := h.settled b v d hb hv
    rw [overwrites_skip (overwrite_eq_none (.inl hplace))]
    unfold Settled at hset ⊢
    rw [hold b (hne b hb)]
    exact hset
  · unfold AllOpen
    rw [hold b (hne b hb)]
    exact h.genuine b c p hb hall
  · by_cases hbn : b = n
    · subst hbn
      refine .inr ⟨e.1, (b, PROTECTED ||| RANDOMIZED), ?_, rfl⟩
      rw [hretargets, BTreeMap.getElem?_insert, if_pos rfl]
    · rw [hold b hbn] at hb
      refine (h.keys b wks hb).imp_right ?_
      rintro ⟨path, r, hr, hrb⟩
      obtain ⟨fe, hmem, -⟩ := h.retargets path r hr
      exact ⟨path, r, (hre _ hmem).trans hr, hrb⟩
  · rw [hupgraded, BTreeSet.mem_insert] at hb
    rcases hb with rfl | hb
    · refine ⟨e, List.mem_append_right _ (List.mem_singleton_self _), rfl, ?_⟩
      rw [hretargets, BTreeMap.getElem?_insert, if_pos rfl]
      exact Option.some_ne_none _
    · obtain ⟨x, hx, hxid, hr⟩ := h.upgraded b hb
      exact ⟨x, List.mem_append_left _ hx, hxid, hre x hx ▸ hr⟩
  · rw [hretargets, BTreeMap.getElem?_insert] at hr
    split_ifs at hr with hpath
    · cases hr
      subst hpath
      refine ⟨e.2, List.mem_append_right _ (List.mem_singleton_self _), hp, hplace, ht,
        h.opens hused ho, (h.same _ hused) ▸ hget, hdec, h.draws, hdraw ▸ Nat.lt_succ_self _,
        by rw [hid], ?_, hheld⟩
      rw [hwrapped, BTreeMap.getElem?_insert, if_pos rfl]
    · obtain ⟨fe, hmem, hres⟩ := h.retargets path r hr
      exact ⟨fe, List.mem_append_left _ hmem,
        hres.mono (hdraw ▸ Nat.le_succ _) (hold _ (hapart path r hr).symm) hgrow⟩
  · intro p q r r' hr hr' hrr
    rw [hretargets, BTreeMap.getElem?_insert] at hr hr'
    split_ifs at hr hr' with hp hq hq
    · rw [← hp, ← hq]
    · cases hr
      exact absurd hrr (hapart q r' hr')
    · cases hr'
      exact absurd hrr.symm (hapart p r hr)
    · exact h.distinct p q r r' hr hr' hrr
  · intro x hx hprot
    rcases List.mem_append.mp hx with hx | hx
    · exact (h.fates x hx hprot).mono (by rw [hskipped]; exact List.Subset.refl _) (hre x hx)
        fun v d => hmap _ (hdone x hx).1 v d
    · obtain rfl := List.mem_singleton.mp hx
      refine .resealed (r := (n, PROTECTED ||| RANDOMIZED)) ?_
      rw [hretargets, BTreeMap.getElem?_insert, if_pos rfl]

/-- A path rewrapped in place asks for its own targets, and gets them. -/
theorem Progress.rewrap (laws : CryptoLaws env) (hfresh : FreshSeals crypto env.idOf draw₀ used)
    (h : Progress env identity escrows rotate prefixes m₀ store₀ used draw₀ done s store)
    (hdone : ∀ x ∈ done, used x.2.id ∧ x.1 ≠ e.1) (hused : used e.2.id)
    {targets : List Bytes} {wks : List WrappedKey} {w : WrappedKey} {dek : crypto.Dek}
    (hplace : inPlace rotate e.2 = true)
    (ht : targetsOf escrows prefixes crypto.recipientId e.1 = some targets)
    (hwks : s.wrapped[e.2.id]? = some wks) (hw : wrapOf env identity wks = some w)
    (hdek : crypto.unwrapDekWith w identity = some dek)
    (hwrapped : s'.wrapped = s.wrapped.insert e.2.id (rebuiltWraps s.draw dek wks targets))
    (hretargets : s'.retargets = s.retargets) (hupgraded : s'.upgradedFrom = s.upgradedFrom)
    (hskipped : s'.skipped = s.skipped) (hdraw : s'.draw = s.draw + 1) :
    Progress env identity escrows rotate prefixes m₀ store₀ used draw₀ (done ++ [e]) s' store := by
  have hown : s'.wrapped[e.2.id]? = some (rebuiltWraps s.draw dek wks targets) := by
    rw [hwrapped, BTreeMap.getElem?_insert, if_pos rfl]
  have hold : ∀ b, b ≠ e.2.id → s'.wrapped[b]? = s.wrapped[b]? := fun b hb => by
    rw [hwrapped, BTreeMap.getElem?_insert, if_neg (Ne.symm hb)]
  have hopen := h.opens hused (.of_wks hwks hw hdek)
  have hof : wrapOf env identity (rebuiltWraps s.draw dek wks targets) =
      if me env identity ∈ targets.map crypto.recipientId then some w else none :=
    wrapOf_rebuilt laws hw
  have hmap : ∀ b v d, Opens env identity s'.wrapped b v d →
      Opens env identity s.wrapped b v d := by
    intro b v d hv
    by_cases hb : b = e.2.id
    · subst hb
      have hv1 := hv.1
      rw [hown, Option.bind_some, hof] at hv1
      split_ifs at hv1
      exact .of_wks hwks (hv1 ▸ hw) hv.2
    · exact ⟨hold b hb ▸ hv.1, hv.2⟩
  refine ⟨h.grows, h.same, hdraw ▸ Nat.le_succ_of_le h.draws, fun b hb hno => ?_,
    fun b v d hb hv => ?_, fun b c p hb hall => ?_, fun b ks hb => ?_, fun b hb => ?_,
    fun path r hr => ?_, hretargets ▸ h.distinct, fun x hx hprot => ?_⟩
  · exact (hold b fun he => hno w dek (he ▸ hopen)).trans (h.shut b hb hno)
  · by_cases hbe : b = e.2.id
    · subst hbe
      have hv' : v = w := by
        have := hv.1.symm.trans hopen.1
        exact Option.some.inj this
      subst hv'
      rw [overwrites_append, overwrite, if_pos ⟨hplace, rfl⟩, ht, Option.map_some,
        Option.toList_some, decided_append]
      have hnext : Settled env identity m₀ s'.wrapped e.2.id v
          (some (targets.map crypto.recipientId)) :=
        ⟨_, hown, fun rid => wrapsFor_rebuilt laws, hof⟩
      have hset := h.settled e.2.id v d hb hv
      cases hd : decided (me env identity)
          (overwrites escrows rotate prefixes crypto.recipientId done e.2.id) with
      | none => exact hnext
      | some last =>
        rw [hd] at hset
        obtain ⟨wks', hwks', -, hof'⟩ := hset
        rw [hwks] at hwks'
        cases hwks'
        rw [hw] at hof'
        split_ifs at hof' with hme
        simp only [if_pos hme]
        exact hnext
    · rw [overwrites_skip (overwrite_eq_none (.inr (Ne.symm hbe)))]
      have hset := h.settled b v d hb hv
      unfold Settled at hset ⊢
      rw [hold b hbe]
      exact hset
  · have hall' := h.genuine b c p hb hall
    by_cases hbe : b = e.2.id
    · subst hbe
      intro ks hks
      rw [hown] at hks
      cases hks
      exact opensTo_rebuilt laws hw hdek (hall' wks hwks)
    · unfold AllOpen
      rw [hold b hbe]
      exact hall'
  · rw [hretargets]
    by_cases hbe : b = e.2.id
    · exact .inl (hbe ▸ hused)
    · exact h.keys b ks (hold b hbe ▸ hb)
  · obtain ⟨x, hx, hid, hr⟩ := h.upgraded b (hupgraded ▸ hb)
    exact ⟨x, List.mem_append_left _ hx, hid, hretargets ▸ hr⟩
  · rw [hretargets] at hr
    obtain ⟨fe, hmem, hre⟩ := h.retargets path r hr
    refine ⟨fe, List.mem_append_left _ hmem, hre.mono (hdraw ▸ Nat.le_succ _) (hold _ ?_)
      (.refl store)⟩
    exact fun he => hre.unused hfresh (he ▸ hused)
  · rcases List.mem_append.mp hx with hx | hx
    · exact (h.fates x hx hprot).mono (by rw [hskipped]; exact List.Subset.refl _)
        (by rw [hretargets]) fun v d => hmap _ v d
    · obtain rfl := List.mem_singleton.mp hx
      refine .rewrapped hplace ?_ ht hopen
      rw [hretargets]
      cases hr : s.retargets[x.1]? with
      | none => rfl
      | some r =>
        obtain ⟨fe, hmem, -⟩ := h.retargets x.1 r hr
        exact absurd rfl (hdone _ hmem).2

/-- One turn of the loop. -/
theorem Progress.step (laws : CryptoLaws env) (hfresh : FreshSeals crypto env.idOf draw₀ used)
    (h : Progress env identity escrows rotate prefixes m₀ store₀ used draw₀ done s store)
    (hdone : ∀ x ∈ done, used x.2.id ∧ x.1 ≠ e.1) (hused : used e.2.id)
    (hstep : Step env identity escrows rotate prefixes s store e s' store') :
    Progress env identity escrows rotate prefixes m₀ store₀ used draw₀ (done ++ [e]) s' store' := by
  have hkeep : s.retargets[e.1]? = none := by
    cases hr : s.retargets[e.1]? with
    | none => rfl
    | some r =>
      obtain ⟨fe, hmem, -⟩ := h.retargets e.1 r hr
      exact absurd rfl (hdone _ hmem).2
  cases hstep with
  | plain hp =>
    have hplace : inPlace rotate e.2 = false := by
      rw [inPlace, hp]
      rfl
    exact h.idle rfl rfl rfl (List.Subset.refl _) rfl
      (fun b w dek hb ho => by rw [overwrites_skip (overwrite_eq_none (.inl hplace))])
      fun hp' => absurd hp hp'
  | @skipped reason hp hplace hstuck =>
    refine h.idle rfl rfl rfl (List.subset_append_left _ _) rfl
      (fun b w dek hb ho => h.skip_settled hplace hb ho) fun _ => ?_
    have hreport : ("path " ++ e.1, reason) ∈ (s.skip e.1 reason).skipped :=
      List.mem_append_right _ (List.mem_singleton_self _)
    refine .skipped hreport hkeep fun hin targets w dek ht ho => ?_
    obtain ⟨o, hget, hnone⟩ := hstuck hin targets w dek ht ho
    exact ⟨o, (h.same _ hused) ▸ hget, hnone⟩
  | resealed hp hplace ht ho hget hdec hwrapped hretargets hupgraded hskipped hdraw =>
    exact h.reseal hfresh hdone hused hp hplace ht ho hget hdec hwrapped hretargets hupgraded
      hskipped hdraw
  | rewrapped hplace ht hwks hw hdek hwrapped hretargets hupgraded hskipped hdraw =>
    exact h.rewrap laws hfresh hdone hused hplace ht hwks hw hdek hwrapped hretargets hupgraded
      hskipped hdraw

/-- Before the loop nothing has happened. -/
theorem Progress.start {skipped : List (String × String)}
    (hkeys : ∀ b wks, m₀[b]? = some wks → used b) :
    Progress env identity escrows rotate prefixes m₀ store₀ used draw₀ []
      ⟨m₀, ∅, ∅, 0, 0, 0, skipped, draw₀⟩ store₀ where
  grows := .refl store₀
  same _ _ := rfl
  draws := Nat.le_refl _
  shut _ _ _ := rfl
  settled _ _ _ _ _ := rfl
  genuine _ _ _ _ h := h
  keys b wks h := .inl (hkeys b wks h)
  upgraded b h := by simp at h
  retargets path r h := by simp at h
  distinct p q r r' h := by simp at h
  fates := by simp

/-- The loop over files of distinct paths. -/
theorem rewrapPaths_progress (identity : crypto.SecretKey) (escrows : List Bytes) (rotate : Bool)
    (prefixes : List ProtectPrefix) (store₀ : Store) (laws : CryptoLaws env)
    (hfresh : FreshSeals crypto env.idOf draw₀ used) {es : List (String × FileEntry)}
    (hnodup : (es.map (·.1)).Nodup) (hused : ∀ e ∈ es, used e.2.id)
    (hkeys : ∀ b wks, m₀[b]? = some wks → used b) (skipped : List (String × String)) :
    Outcome (es.foldlM (rewrapPath env identity escrows false rotate prefixes)
        ⟨m₀, ∅, ∅, 0, 0, 0, skipped, draw₀⟩) store₀
      (fun s store =>
        Progress env identity escrows rotate prefixes m₀ store₀ used draw₀ es s store)
      (fun _ _ => True) := by
  refine Outcome.foldlM (I := fun done s store =>
    Progress env identity escrows rotate prefixes m₀ store₀ used draw₀ done s store)
    (fun done e rest s store hes h => ?_) (.start hkeys)
  refine (rewrapPath_step s store e).mono (fun s' store' hstep => ?_) (fun _ _ _ => trivial)
  refine h.step laws hfresh (fun x hx => ⟨hused x (hes ▸ List.mem_append_left _ hx), ?_⟩)
    (hused e (hes ▸ List.mem_append_right _ List.mem_cons_self)) hstep
  rw [hes, List.map_append, List.map_cons] at hnodup
  intro he
  exact (List.nodup_append.mp hnodup).2.2 x.1 (List.mem_map_of_mem hx) e.1 List.mem_cons_self he

end Progress

end SrcControl.Rewrap
