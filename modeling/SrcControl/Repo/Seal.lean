import SrcControl.Repo.MergeTree
import SrcControl.Repo.Policy
import SrcControl.Vfs.WriteTree

/-!
# Sealing under a policy

A path is governed by the longest prefix it lies under. A governed file is sealed under a
fresh key that is wrapped for the granted keys of its rule; a prior wrap of the same blob and
recipient is reused. The randomness of a seal is a draw: sealing counts the draws it made.
-/

namespace SrcControl

open SlashPath Merge MergeTree

/-- What sealing asks of the crypto layer besides opening. -/
structure SealCrypto extends PathCrypto where
  encryptPath : Bytes → Bytes × Dek
  encryptPathRandomized : Nat → Bytes → Bytes × Dek
  wrapDekFor : Nat → Dek → Bytes → WrappedKey
  recipientId : Bytes → String

/-- Is `path` the prefix's bare form, or below it at a `/` boundary? -/
def pathUnderPrefix (path pre : String) : Bool :=
  let bare := trimEndSlashes pre
  path = bare || (stripPrefix path bare).any (startsWith · "/")

/-- `max_by_key`: the last of the greatest. -/
def maxByKey {α : Type} (key : α → Nat) (xs : List α) : Option α :=
  xs.foldl (fun best x =>
    match best with
    | none => some x
    | some b => if key b ≤ key x then some x else some b) none

/-- The rule that governs `path`: the longest prefix wins. -/
def matchingPrefix (prefixes : List ProtectPrefix) (path : String) : Option ProtectPrefix :=
  maxByKey (fun p => p.pathPrefix.utf8ByteSize)
    (prefixes.filter (fun p => pathUnderPrefix path p.pathPrefix))

/-- A file headed for sealing. -/
structure SealInput where
  path : String
  bytes : Bytes
  mode : FileMode
  recipients : List Bytes
deriving DecidableEq, Repr

/-- Wrapped keys by the ciphertext blob they unlock. -/
abbrev WrapMap := BTreeMap ObjectId (List WrappedKey)

/-- What sealing has produced, and the next draw. -/
structure Sealing where
  files : List SealedFile
  wraps : WrapMap
  draw : Nat

section Seal

variable (crypto : SealCrypto) (idOf : Object → ObjectId)

/-- Sealing to nobody would mint unreadable ciphertext, so it fails. -/
def sealFile (s : Sealing) (f : SealInput) : Except Error Sealing :=
  if f.recipients = [] then
    .error (.invalidArgument (f.path ++ " is protected but its rule has no granted recipients " ++
      "(all revoked?); run `sc grant` before committing under this prefix"))
  else
    let (blob, dek) := crypto.encryptPathRandomized s.draw f.bytes
    let wks := f.recipients.map (crypto.wrapDekFor s.draw dek)
    .ok ⟨s.files ++ [⟨f.path, blob, f.mode, PROTECTED ||| RANDOMIZED⟩],
      s.wraps.insert (idOf (.blob blob)) wks, s.draw + 1⟩

def encryptProtected (draw : Nat) (plaintexts : List SealInput) : Except Error Sealing :=
  plaintexts.foldlM (sealFile crypto idOf) ⟨[], ∅, draw⟩

end Seal

/-- The prior wrap of the same recipient, when there is one. -/
def reuseWrap (prior : List WrappedKey) (wk : WrappedKey) : WrappedKey :=
  (prior.find? (fun p => p.recipientId = wk.recipientId)).getD wk

/-- Unchanged blobs keep their prior wrap bytes. -/
def reusePriorWraps (fresh prior : WrapMap) : WrapMap :=
  fresh.map (fun blobId wks =>
    match prior[blobId]? with
    | some priorWks => wks.map (reuseWrap priorWks)
    | none => wks)

/-- The write set: what is stored as it is, and what must be sealed first. -/
structure SplitFiles where
  carried : List SealedFile
  toEncrypt : List SealInput
deriving DecidableEq, Repr

/-- Ciphertext stays as it is; merged plaintext and a plain file under a rule are sealed. -/
def splitFile (prefixes : List ProtectPrefix) (out : SplitFiles) (f : MergedFile) :
    Except Error SplitFiles :=
  if f.needsEncrypt then
    match matchingPrefix prefixes f.path with
    | some rule =>
      .ok { out with toEncrypt := out.toEncrypt ++ [⟨f.path, f.bytes, f.mode, rule.grantedKeys⟩] }
    | none => .error (.notProtected f.path)
  else if f.perms &&& PROTECTED = 0 then
    match matchingPrefix prefixes f.path with
    | some rule =>
      .ok { out with toEncrypt := out.toEncrypt ++ [⟨f.path, f.bytes, f.mode, rule.grantedKeys⟩] }
    | none => .ok { out with carried := out.carried ++ [⟨f.path, f.bytes, f.mode, 0⟩] }
  else .ok { out with carried := out.carried ++ [⟨f.path, f.bytes, f.mode, f.perms⟩] }

def splitForEncryption (prefixes : List ProtectPrefix) (files : List MergedFile) :
    Except Error SplitFiles :=
  files.foldlM (splitFile prefixes) ⟨[], []⟩

/-! ## Wraps -/

/-- Some wrap of the list is addressed to the recipient. -/
def WrapsFor (wks : List WrappedKey) (rid : String) : Prop := ∃ w ∈ wks, w.recipientId = rid

/-- The map wraps the blob for the recipient. -/
def WrapMap.For (m : WrapMap) (id : ObjectId) (rid : String) : Prop :=
  ∃ wks, m[id]? = some wks ∧ WrapsFor wks rid

theorem wrapsFor_unionWraps {a b : List WrappedKey} {rid : String} :
    WrapsFor (unionWraps a b) rid ↔ WrapsFor a rid ∨ WrapsFor b rid := by
  have hfold : ∀ xs out : List WrappedKey,
      WrapsFor (xs.foldl (fun (out : List WrappedKey) w =>
        if out.any (fun existing => existing.recipientId = w.recipientId) then out
        else out ++ [w]) out) rid ↔ WrapsFor out rid ∨ WrapsFor xs rid := by
    intro xs
    induction xs with
    | nil => simp [WrapsFor]
    | cons x xs ih =>
      intro out
      have hcons : WrapsFor (x :: xs) rid ↔ x.recipientId = rid ∨ WrapsFor xs rid := by
        simp [WrapsFor]
      rw [List.foldl_cons, ih, hcons]
      split_ifs with hany
      · have hx : x.recipientId = rid → WrapsFor out rid := by
          rintro rfl
          obtain ⟨w, hw, he⟩ := List.any_eq_true.mp hany
          exact ⟨w, hw, by simpa using he⟩
        tauto
      · have happ : WrapsFor (out ++ [x]) rid ↔ WrapsFor out rid ∨ x.recipientId = rid := by
          simp [WrapsFor, or_and_right, exists_or]
        rw [happ, or_assoc]
  have hsort : ∀ ws : List WrappedKey, ∀ le : WrappedKey → WrappedKey → Bool,
      WrapsFor (ws.mergeSort le) rid ↔ WrapsFor ws rid := by
    intro ws le
    simp [WrapsFor]
  rw [unionWraps, hsort, hfold]
  simp [WrapsFor, or_and_right, exists_or]

/-- A blob's known wraps serve every recipient that some policy wraps it for. -/
theorem wrapsFor_knownWraps {prots : List Protection} {id : ObjectId} {rid : String} :
    WrapsFor (knownWraps prots id) rid ↔ ∃ p ∈ prots, WrapMap.For p.wrapped id rid := by
  have hfold : ∀ wraps : List WrappedKey,
      WrapsFor (prots.foldl (fun wraps p =>
        match p.wrapped[id]? with
        | some w => unionWraps wraps w
        | none => wraps) wraps) rid ↔
        WrapsFor wraps rid ∨ ∃ p ∈ prots, WrapMap.For p.wrapped id rid := by
    induction prots with
    | nil => simp
    | cons p prots ih =>
      intro wraps
      rw [List.foldl_cons, ih, List.exists_mem_cons_iff, ← or_assoc]
      refine or_congr ?_ Iff.rfl
      cases hp : p.wrapped[id]? with
      | none => simp [WrapMap.For, hp]
      | some w => simp [WrapMap.For, hp, wrapsFor_unionWraps]
  exact (hfold []).trans (by simp [WrapsFor])

theorem wrapsFor_reuse {prior wks : List WrappedKey} {rid : String} :
    WrapsFor (wks.map (reuseWrap prior)) rid ↔ WrapsFor wks rid := by
  have hrid : ∀ w : WrappedKey, (reuseWrap prior w).recipientId = w.recipientId := by
    intro w
    unfold reuseWrap
    cases hf : prior.find? (fun p => p.recipientId = w.recipientId) with
    | none => rfl
    | some p => simpa using List.find?_some hf
  simp [WrapsFor, hrid]

/-- Reuse changes wrap bytes only. -/
theorem reusePriorWraps_for {fresh prior : WrapMap} {id : ObjectId} {rid : String} :
    WrapMap.For (reusePriorWraps fresh prior) id rid ↔ WrapMap.For fresh id rid := by
  unfold WrapMap.For reusePriorWraps
  rw [Std.ExtTreeMap.getElem?_map]
  cases hf : fresh[id]? with
  | none => simp
  | some wks =>
    cases hp : prior[id]? with
    | none => simp
    | some p => simp [wrapsFor_reuse]

/-! ## What sealing yields -/

section Sealed

variable {crypto : SealCrypto} {idOf : Object → ObjectId}

/-- Seals are fresh: two draws never give one blob, and no draw from `draw` on gives a blob
that is already in use. -/
structure FreshSeals (crypto : SealCrypto) (idOf : Object → ObjectId) (draw : Nat)
    (used : ObjectId → Prop) : Prop where
  apart : ∀ i j a b, i ≠ j → idOf (.blob (crypto.encryptPathRandomized i a).1) ≠
    idOf (.blob (crypto.encryptPathRandomized j b).1)
  unused : ∀ i a, draw ≤ i → ¬ used (idOf (.blob (crypto.encryptPathRandomized i a).1))

/-- A wrap names the recipient it was made for. -/
def AddressedWraps (crypto : SealCrypto) : Prop :=
  ∀ i dek key, (crypto.wrapDekFor i dek key).recipientId = crypto.recipientId key

/-- A sealed file stands for one of the inputs, and its blob is wrapped for its recipients. -/
structure SealedFrom (crypto : SealCrypto) (idOf : Object → ObjectId) (draw : Nat)
    (inputs : List SealInput) (s : Sealing) : Prop where
  draws : draw ≤ s.draw
  files : ∀ g ∈ s.files, ∃ f ∈ inputs, ∃ i, draw ≤ i ∧ i < s.draw ∧ g.path = f.path ∧
    g.perms = PROTECTED ||| RANDOMIZED ∧ g.bytes = (crypto.encryptPathRandomized i f.bytes).1 ∧
    ∀ key ∈ f.recipients, s.wraps.For (idOf (.blob g.bytes)) (crypto.recipientId key)
  wraps : ∀ id wks, s.wraps[id]? = some wks → ∃ g ∈ s.files, id = idOf (.blob g.bytes)

theorem sealFile_ok {s s' : Sealing} {f : SealInput} (h : sealFile crypto idOf s f = .ok s') :
    f.recipients ≠ [] ∧ s' =
      ⟨s.files ++ [⟨f.path, (crypto.encryptPathRandomized s.draw f.bytes).1, f.mode,
          PROTECTED ||| RANDOMIZED⟩],
        s.wraps.insert (idOf (.blob (crypto.encryptPathRandomized s.draw f.bytes).1))
          (f.recipients.map (crypto.wrapDekFor s.draw
            (crypto.encryptPathRandomized s.draw f.bytes).2)), s.draw + 1⟩ := by
  unfold sealFile at h
  split_ifs at h with hr
  exact ⟨hr, (Except.ok.inj h).symm⟩

theorem SealedFrom.step {draw : Nat} {inputs : List SealInput} {s s' : Sealing} {f : SealInput}
    {used : ObjectId → Prop} (hs : SealedFrom crypto idOf draw inputs s)
    (hfresh : FreshSeals crypto idOf draw used) (haddr : AddressedWraps crypto)
    (h : sealFile crypto idOf s f = .ok s') : SealedFrom crypto idOf draw (inputs ++ [f]) s' := by
  obtain ⟨-, rfl⟩ := sealFile_ok h
  refine ⟨Nat.le_succ_of_le hs.draws, ?_, ?_⟩
  · intro g hg
    rcases List.mem_append.mp hg with hg | hg
    · obtain ⟨f', hf', i, hdi, hi, hpath, hperms, hbytes, hwraps⟩ := hs.files g hg
      refine ⟨f', List.mem_append_left _ hf', i, hdi, Nat.lt_succ_of_lt hi, hpath, hperms, hbytes,
        fun key hk => ?_⟩
      obtain ⟨wks, hwks, hfor⟩ := hwraps key hk
      refine ⟨wks, ?_, hfor⟩
      rw [BTreeMap.getElem?_insert, if_neg, hwks]
      rw [hbytes]
      exact hfresh.apart s.draw i f.bytes f'.bytes (Nat.ne_of_gt hi)
    · obtain rfl := List.mem_singleton.mp hg
      refine ⟨f, by simp, s.draw, hs.draws, Nat.lt_succ_self _, rfl, rfl, rfl, fun key hk => ?_⟩
      refine ⟨_, (BTreeMap.getElem?_insert ..).trans (if_pos rfl), _,
        List.mem_map_of_mem hk, haddr ..⟩
  · intro id wks hid
    rw [BTreeMap.getElem?_insert] at hid
    split_ifs at hid with he
    · exact ⟨_, List.mem_append_right _ (List.mem_singleton_self _), he.symm⟩
    · obtain ⟨g, hg, hgid⟩ := hs.wraps id wks hid
      exact ⟨g, List.mem_append_left _ hg, hgid⟩

/-- Everything sealed in one call stands for its input. -/
theorem encryptProtected_ok {draw : Nat} {inputs : List SealInput} {s : Sealing}
    {used : ObjectId → Prop} (hfresh : FreshSeals crypto idOf draw used)
    (haddr : AddressedWraps crypto) (h : encryptProtected crypto idOf draw inputs = .ok s) :
    SealedFrom crypto idOf draw inputs s := by
  refine Fallible.foldlM_ok_done (fun done s₀ f s₁ hs₀ hok => hs₀.step hfresh haddr hok) ?_ h
  exact ⟨Nat.le_refl _, by simp, by simp⟩

/-- Every input has its sealed file. -/
theorem encryptProtected_paths {draw : Nat} {inputs : List SealInput} {s : Sealing}
    (h : encryptProtected crypto idOf draw inputs = .ok s) :
    s.files.map (·.path) = inputs.map (·.path) := by
  refine Fallible.foldlM_ok_done (I := fun done s => s.files.map (·.path) = done.map (·.path))
    (fun done s₀ f s₁ hs₀ hok => ?_) rfl h
  obtain ⟨-, rfl⟩ := sealFile_ok hok
  simp [hs₀]

/-- Whatever was sealed is marked so. -/
theorem encryptProtected_perms {draw : Nat} {inputs : List SealInput} {s : Sealing}
    (h : encryptProtected crypto idOf draw inputs = .ok s) :
    ∀ g ∈ s.files, g.perms = PROTECTED ||| RANDOMIZED := by
  refine Fallible.foldlM_ok
    (I := fun s : Sealing => ∀ g ∈ s.files, g.perms = PROTECTED ||| RANDOMIZED)
    (fun s₀ f _ s₁ hs₀ hok g hg => ?_) (by simp) h
  obtain ⟨-, rfl⟩ := sealFile_ok hok
  rcases List.mem_append.mp hg with hg | hg
  · exact hs₀ g hg
  · rw [List.mem_singleton.mp hg]

end Sealed

/-! ## What a split does with each file -/

/-- A file of the split's source, as it is stored or headed for sealing. -/
structure SplitFrom (prefixes : List ProtectPrefix) (files : List MergedFile) (out : SplitFiles) :
    Prop where
  carried : ∀ g ∈ out.carried, ∃ f ∈ files, f.needsEncrypt = false ∧ g.path = f.path ∧
    g.bytes = f.bytes ∧ g.mode = f.mode ∧
    ((f.perms &&& PROTECTED ≠ 0 ∧ g.perms = f.perms) ∨
      (g.perms = 0 ∧ matchingPrefix prefixes f.path = none))
  toEncrypt : ∀ g ∈ out.toEncrypt, ∃ f ∈ files, g.path = f.path ∧ g.bytes = f.bytes ∧
    ∃ rule, matchingPrefix prefixes f.path = some rule ∧ g.recipients = rule.grantedKeys

theorem SplitFrom.mono {prefixes : List ProtectPrefix} {files files' : List MergedFile}
    {out : SplitFiles} (h : SplitFrom prefixes files out) (hsub : files ⊆ files') :
    SplitFrom prefixes files' out where
  carried g hg := by
    obtain ⟨f, hf, hrest⟩ := h.carried g hg
    exact ⟨f, hsub hf, hrest⟩
  toEncrypt g hg := by
    obtain ⟨f, hf, hrest⟩ := h.toEncrypt g hg
    exact ⟨f, hsub hf, hrest⟩

theorem SplitFrom.step {prefixes : List ProtectPrefix} {files : List MergedFile}
    {out out' : SplitFiles} {f : MergedFile} (hs : SplitFrom prefixes files out)
    (h : splitFile prefixes out f = .ok out') : SplitFrom prefixes (files ++ [f]) out' := by
  have hmono := hs.mono (List.subset_append_left files [f])
  have hf : f ∈ files ++ [f] := by simp
  have hseal : ∀ rule, matchingPrefix prefixes f.path = some rule →
      SplitFrom prefixes (files ++ [f]) { out with
        toEncrypt := out.toEncrypt ++ [⟨f.path, f.bytes, f.mode, rule.grantedKeys⟩] } := by
    intro rule hrule
    refine ⟨hmono.carried, fun g hg => ?_⟩
    rcases List.mem_append.mp hg with hg | hg
    · exact hmono.toEncrypt g hg
    · obtain rfl := List.mem_singleton.mp hg
      exact ⟨f, hf, rfl, rfl, rule, hrule, rfl⟩
  have hcarry : ∀ perms, f.needsEncrypt = false →
      ((f.perms &&& PROTECTED ≠ 0 ∧ perms = f.perms) ∨
        (perms = 0 ∧ matchingPrefix prefixes f.path = none)) →
      SplitFrom prefixes (files ++ [f]) { out with
        carried := out.carried ++ [⟨f.path, f.bytes, f.mode, perms⟩] } := by
    intro perms hne hp
    refine ⟨fun g hg => ?_, hmono.toEncrypt⟩
    rcases List.mem_append.mp hg with hg | hg
    · exact hmono.carried g hg
    · obtain rfl := List.mem_singleton.mp hg
      exact ⟨f, hf, hne, rfl, rfl, rfl, hp⟩
  unfold splitFile at h
  cases hrule : matchingPrefix prefixes f.path with
  | some rule =>
    rw [hrule] at h
    simp only at h
    split_ifs at h with hne hp
    · exact Except.ok.inj h ▸ hseal rule hrule
    · exact Except.ok.inj h ▸ hseal rule hrule
    · exact Except.ok.inj h ▸ hcarry f.perms (by simpa using hne) (.inl ⟨hp, rfl⟩)
  | none =>
    rw [hrule] at h
    simp only at h
    split_ifs at h with hne hp
    · exact Except.ok.inj h ▸ hcarry 0 (by simpa using hne) (.inr ⟨rfl, hrule⟩)
    · exact Except.ok.inj h ▸ hcarry f.perms (by simpa using hne) (.inl ⟨hp, rfl⟩)

theorem splitForEncryption_ok {prefixes : List ProtectPrefix} {files : List MergedFile}
    {out : SplitFiles} (h : splitForEncryption prefixes files = .ok out) :
    SplitFrom prefixes files out := by
  refine Fallible.foldlM_ok_done (fun done out₀ f out₁ h₀ hok => h₀.step hok) ?_ h
  exact ⟨by simp, by simp⟩

end SrcControl
