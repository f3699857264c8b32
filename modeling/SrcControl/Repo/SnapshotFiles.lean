import SrcControl.Repo.MergeCommit

/-!
# Committing a working tree

What a commit, an amend or the completion of a stopped merge or pick makes of the files on
disk, on a full clone: plain files are scanned and stored, files under a rule are carried when
a prior ciphertext provably holds them and sealed otherwise, and what is absent from disk but
protected, or outside the sparse view, is carried from the tree the commit builds on.
-/

namespace SrcControl

open SlashPath TreeEntries Fallible Vfs Merge MergeTree

/-- A file read from disk. -/
structure WorkFile where
  path : String
  bytes : Bytes
  mode : FileMode
deriving DecidableEq, Repr

/-- A sparse view: the prefixes that materialize, or none at all for the full view. -/
abbrev Sparse := List String

def Sparse.matchesPath (sparse : Sparse) (path : String) : Bool :=
  sparse.isEmpty || sparse.any (fun p =>
    path = trimEndSlashes p || startsWith path (trimEndSlashes p ++ "/"))

/-- The secret scanner with its allowlist: per file, the rules that hit and their lines. -/
structure Scanner where
  allowed : ObjectId → Bool
  scan : String → Bytes → List (String × Nat)

def scanFiles (sc : Scanner) (idOf : Object → ObjectId) (files : List WorkFile) : List Finding :=
  files.flatMap (fun f =>
    let id := idOf (.blob f.bytes)
    if sc.allowed id then []
    else (sc.scan f.path f.bytes).map (fun hit => ⟨f.path, hit.1, id, hit.2⟩))

/-- What a commit reads besides its files: its parent, the heads of a stopped merge or pick
with the tree it decided, the checkout's view and caches, and the stop's scratch records. -/
structure CommitArgs where
  tip : Option ObjectId
  mergeHead : Option ObjectId := none
  pickHead : Option ObjectId := none
  decidedRoot : Option ObjectId := none
  pickRegistryBase : Option ObjectId := none
  parentsOverride : Option (List ObjectId) := none
  sparse : Sparse
  cache : Option (String → Bytes → Option ObjectId)
  sidecars : List String := []
  conflictPlaintext : List String := []
  scanner : Scanner
  author : String
  message : String
  now : Int64

/-- The entry at a path, found name by name. -/
def treeEntryAt (store : Store) : ObjectId → List String → Except Error (Option FileEntry)
  | _, [] => .ok none
  | cur, comp :: rest => do
    let tree ← store.getTree cur
    match tree.get comp with
    | none => pure none
    | some e =>
      match e.kind, rest with
      | .blob, [] => pure (some (fileEntry e))
      | .tree, _ :: _ => treeEntryAt store e.id rest
      | _, _ => pure none

/-- A failed lookup counts as tracked. -/
def tracked (store : Store) (path : String) (root : ObjectId) : Bool :=
  match treeEntryAt store root (split path) with
  | .ok none => false
  | _ => true

/-- Both sides' rules, and both sides' wraps with ours' bytes first. -/
def unionPolicy (ours theirs : Protection) : Protection :=
  ⟨mergePrefixes ours.prefixes theirs.prefixes, addWraps ours.wrapped theirs.wrapped⟩

/-- The registry a replayed commit leaves: its own change, merged into the onto side's. -/
def mergedRegistryForReplay (store : Store) (commitParents : List ObjectId)
    (commitSecrets ontoSecrets : BTreeMap String ObjectId) (baseOverride : Option ObjectId) :
    Except Error (BTreeMap String ObjectId) := do
  let parentSecrets ← match baseOverride.or commitParents.head? with
    | some p => do pure (← store.getSnapshot p).secrets
    | none => pure ∅
  mergeSecrets parentSecrets ontoSecrets commitSecrets

section Commit

variable {crypto : SealCrypto} (env : MergeEnv crypto) (store : Store) (a : CommitArgs)

/-- The policy and the registry a commit starts from: the tip's, or the union of both sides of
the merge or pick it completes. -/
def commitPolicy : Except Error (Protection × BTreeMap String ObjectId) :=
  match a.tip, a.mergeHead with
  | none, _ => pure (default, ∅)
  | some t, none => do
    let snap ← store.getSnapshot t
    match a.pickHead with
    | none => pure (snap.protection, snap.secrets)
    | some ph => do
      let picked ← store.getSnapshot ph
      let secs ← mergedRegistryForReplay store picked.parents picked.secrets snap.secrets
        a.pickRegistryBase
      pure (unionPolicy snap.protection picked.protection, secs)
  | some t, some mh => do
    let ours ← store.getSnapshot t
    let theirs ← store.getSnapshot mh
    match ← Ancestry.mergeBase env.fuel store t mh with
    | none => .error .noCommonAncestor
    | some base => do
      let baseSnap ← store.getSnapshot base
      let secs ← mergeSecrets baseSnap.secrets ours.secrets theirs.secrets
      pure (unionPolicy ours.protection theirs.protection, secs)

/-- A sidecar the stop wrote is scratch, unless the outcome tracks a file of its name. -/
def withoutRecordedSidecars (files : List WorkFile) : Except Error (List WorkFile) :=
  if a.sidecars = [] then pure files
  else do
    let roots ← match a.decidedRoot, a.tip with
      | some root, _ => pure [root]
      | none, some t => do pure [(← store.getSnapshot t).root]
      | none, none => pure []
    pure (files.filter (fun f =>
      !(a.sidecars.contains f.path && !roots.any (tracked store f.path))))

/-- Completing a merge or a pick drops the stop's sidecars first. -/
def commitFiles (files : List WorkFile) : Except Error (List WorkFile) :=
  if a.mergeHead.isSome || a.pickHead.isSome || a.decidedRoot.isSome then
    withoutRecordedSidecars store a files
  else pure files

/-- Does the prior blob provably hold exactly `bytes`? A convergent one is sealed again and
compared; a randomized one is asked of the cache. -/
def proves (f : SealInput) (e : FileEntry) : Bool :=
  if e.perms &&& RANDOMIZED = 0 then env.idOf (.blob (crypto.encryptPath f.bytes).1) = e.id
  else (a.cache.bind (fun c => c f.path f.bytes)) = some e.id

def tipCarry (tipEntries : FileMap) (f : SealInput) : Option FileEntry :=
  tipEntries[f.path]?.filter (fun e => e.perms &&& PROTECTED ≠ 0 && proves env a f e)

/-- The other parent's ciphertext, when it is held and somebody can read it. -/
def otherCarry (wrapped : WrapMap) (otherRoot : Option ObjectId) (f : SealInput) :
    Option FileEntry :=
  otherRoot.bind (fun root =>
    match treeEntryAt store root (split f.path) with
    | .ok (some e) =>
      if store.contains e.id && e.perms &&& PROTECTED ≠ 0 && (wrapped.getD e.id [] ≠ []) &&
          proves env a f e then some e
      else none
    | _ => none)

/-- What has been decided of the files under a rule. -/
structure Decided where
  all : List SealedFile
  fresh : WrapMap
  toSeal : List SealInput

/-- A carried blob keeps its wraps, unless it has fresh ones. -/
def keepWraps (wrapped : WrapMap) (id : ObjectId) (fresh : WrapMap) : WrapMap :=
  match wrapped[id]? with
  | some wks => if fresh.contains id then fresh else fresh.insert id wks
  | none => fresh

/-- Carry the prior ciphertext verbatim, or seal. -/
def carryOrSeal (wrapped : WrapMap) (tipEntries : FileMap) (otherRoot : Option ObjectId)
    (d : Decided) (f : SealInput) : Except Error Decided :=
  match (tipCarry env a tipEntries f).or (otherCarry env store a wrapped otherRoot f) with
  | none => .ok { d with toSeal := d.toSeal ++ [f] }
  | some e =>
    match store.get e.id with
    | .ok (.blob cipher) => .ok { d with
        all := d.all ++ [⟨f.path, cipher, f.mode, e.perms⟩]
        fresh := keepWraps wrapped e.id d.fresh }
    | .ok _ => .ok { d with toSeal := d.toSeal ++ [f] }
    | .error (.core (.notFound _)) => .ok { d with toSeal := d.toSeal ++ [f] }
    | .error err => .error err

/-- The write set while absent paths are carried into it. -/
structure Carrying where
  all : List SealedFile
  onDisk : BTreeSet String
  fresh : WrapMap

/-- An absent path is carried, with its own perms, when it is still protected or when it lies
outside the view; otherwise it was deleted. -/
def carryAbsent (prot : Protection) (skip : List String) (c : Carrying)
    (e : String × FileEntry) : Except Error Carrying :=
  let stillProtected := e.2.perms &&& PROTECTED ≠ 0 ∧ matchingPrefix prot.prefixes e.1 ≠ none
  let outOfSparse := a.sparse.matchesPath e.1 = false
  if c.onDisk.contains e.1 || skip.contains e.1 then .ok c
  else if ¬ stillProtected ∧ ¬ outOfSparse then .ok c
  else do
    match ← store.get e.2.id with
    | .blob bytes => pure ⟨c.all ++ [⟨e.1, bytes, e.2.mode, e.2.perms⟩], c.onDisk.insert e.1,
        keepWraps prot.wrapped e.2.id c.fresh⟩
    | _ => pure c

/-- The trees absent paths are carried from: the decided one, else the parents'. -/
def carrySources : Except Error (List FileMap) :=
  match a.decidedRoot with
  | some root => do pure [← treeFileEntriesWithPerms env.fuel store root]
  | none => (a.tip.toList ++ a.mergeHead.toList).mapM (fun parent => do
      treeFileEntriesWithPerms env.fuel store (← store.getSnapshot parent).root)

/-- A finished commit: its snapshot, and every object put for it. -/
structure Committed where
  snapshot : Snapshot
  puts : List Object

def tipEntries : Except Error FileMap :=
  match a.tip with
  | some t => do treeFileEntriesWithPerms env.fuel store (← store.getSnapshot t).root
  | none => pure ∅

/-- The other parent's root: read only when there is a cache to prove its blobs with. -/
def otherRoot : Except Error (Option ObjectId) :=
  match a.mergeHead.or a.pickHead, a.cache with
  | some h, some _ => do pure (some (← store.getSnapshot h).root)
  | _, _ => pure none

def snapshotFiles (files : List WorkFile) : Except Error Committed := do
  let (protection, secrets) ← commitPolicy env store a
  let files ← commitFiles store a files
  let plain := files.filter (fun f => matchingPrefix protection.prefixes f.path = none)
  let ruled := files.filterMap (fun f => (matchingPrefix protection.prefixes f.path).map
    (fun rule => SealInput.mk f.path f.bytes f.mode rule.grantedKeys))
  let report := scanFiles a.scanner env.idOf plain
  if report ≠ [] then .error (.secretDetected report)
  else do
    let tipEntries ← tipEntries env store a
    let otherRoot ← otherRoot store a
    let d ← ruled.foldlM (carryOrSeal env store a protection.wrapped tipEntries otherRoot)
      ⟨plain.map (fun f => ⟨f.path, f.bytes, f.mode, 0⟩), ∅, []⟩
    let s ← encryptProtected crypto env.idOf env.draw d.toSeal
    let all := d.all ++ s.files
    let sources ← carrySources env store a
    let skip := if a.mergeHead.isSome || a.pickHead.isSome then a.conflictPlaintext else []
    let c ← sources.foldlM (fun c entries =>
      entries.toList.foldlM (carryAbsent store a protection skip) c)
      (Carrying.mk all (BTreeSet.ofList (all.map (·.path)))
        (s.wraps.toList.foldl (fun m w => m.insert w.1 w.2) d.fresh))
    match (writeTreeWithPerms env.idOf c.all).run [] with
    | (.error e, _) => .error e
    | (.ok root, puts) =>
      let wrapped := reusePriorWraps c.fresh protection.wrapped
      let parents := a.parentsOverride.getD (a.tip.toList ++ a.mergeHead.toList)
      let snap : Snapshot :=
        ⟨root, parents, a.author, a.now, a.message, secrets, ⟨protection.prefixes, wrapped⟩⟩
      pure ⟨snap, puts ++ [.snapshot snap]⟩

end Commit

/-! ## What a commit writes -/

section Written

variable {crypto : SealCrypto} {env : MergeEnv crypto} {store : Store} {a : CommitArgs}
  {rules : List ProtectPrefix}

/-- Under a rule only with the protected bit. -/
def Ruled (rules : List ProtectPrefix) (path : String) (perms : UInt8) : Prop :=
  matchingPrefix rules path ≠ none → perms &&& PROTECTED ≠ 0

theorem ruled_of_protected {path : String} {perms : UInt8} (h : perms &&& PROTECTED ≠ 0) :
    Ruled rules path perms := fun _ => h

theorem sealed_protected : (PROTECTED ||| RANDOMIZED) &&& PROTECTED ≠ 0 := by decide

/-- A file of the write set: at a path the tree writer places, and ruled. -/
structure Fit (rules : List ProtectPrefix) (f : SealedFile) : Prop where
  path : NormalPath f.path
  ruled : Ruled rules f.path f.perms

/-- A file under a rule is carried as ciphertext or left to be sealed. -/
theorem carryOrSeal_ok {wrapped : WrapMap} {tipEntries : FileMap} {otherRoot : Option ObjectId}
    {d d' : Decided} {f : SealInput}
    (h : carryOrSeal env store a wrapped tipEntries otherRoot d f = .ok d') :
    (∃ cipher perms, perms &&& PROTECTED ≠ 0 ∧
      d'.all = d.all ++ [⟨f.path, cipher, f.mode, perms⟩] ∧ d'.toSeal = d.toSeal) ∨
      (d'.all = d.all ∧ d'.toSeal = d.toSeal ++ [f]) := by
  unfold carryOrSeal at h
  split at h
  · cases h
    exact .inr ⟨rfl, rfl⟩
  · next e he =>
    have hp : e.perms &&& PROTECTED ≠ 0 := by
      rcases Option.or_eq_some_iff.mp he with he | ⟨-, he⟩
      · obtain ⟨-, hc⟩ := Option.filter_eq_some_iff.mp he
        simp only [Bool.and_eq_true, decide_eq_true_eq] at hc
        exact hc.1
      · obtain ⟨root, -, he⟩ := Option.bind_eq_some_iff.mp he
        split at he
        · split_ifs at he with hc
          cases he
          simp only [Bool.and_eq_true, decide_eq_true_eq] at hc
          exact hc.1.1.2
        · cases he
    split at h
    · cases h
      exact .inl ⟨_, e.perms, hp, rfl, rfl⟩
    · cases h
      exact .inr ⟨rfl, rfl⟩
    · cases h
      exact .inr ⟨rfl, rfl⟩
    · cases h

/-- The files decided so far: fit to be written, or under a rule and to be sealed. -/
structure DecidedSoFar (rules : List ProtectPrefix) (plain : List WorkFile)
    (ruled done : List SealInput) (d : Decided) : Prop where
  all : ∀ g ∈ d.all, Fit rules g
  toSeal : d.toSeal ⊆ ruled
  plain : ∀ f ∈ plain, ∃ g ∈ d.all, g.path = f.path
  done : ∀ f ∈ done, (∃ g ∈ d.all, g.path = f.path) ∨ f ∈ d.toSeal

theorem DecidedSoFar.step {wrapped : WrapMap} {tipEntries : FileMap}
    {otherRoot : Option ObjectId} {plain : List WorkFile} {ruled done : List SealInput}
    {d d' : Decided} {f : SealInput} (hd : DecidedSoFar rules plain ruled done d)
    (hf : f ∈ ruled) (hpath : NormalPath f.path)
    (h : carryOrSeal env store a wrapped tipEntries otherRoot d f = .ok d') :
    DecidedSoFar rules plain ruled (done ++ [f]) d' := by
  obtain ⟨cipher, perms, hp, hall, hseal⟩ | ⟨hall, hseal⟩ := carryOrSeal_ok h
  · have hold : ∀ g ∈ d.all, g ∈ d'.all := fun g hg => hall ▸ List.mem_append_left _ hg
    have hnew : (⟨f.path, cipher, f.mode, perms⟩ : SealedFile) ∈ d'.all := by simp [hall]
    refine ⟨fun g hg => ?_, hseal ▸ hd.toSeal, fun g hg => ?_, fun g hg => ?_⟩
    · rw [hall] at hg
      rcases List.mem_append.mp hg with hg | hg
      · exact hd.all g hg
      · obtain rfl := List.mem_singleton.mp hg
        exact ⟨hpath, ruled_of_protected hp⟩
    · obtain ⟨k, hk, hkp⟩ := hd.plain g hg
      exact ⟨k, hold k hk, hkp⟩
    · rcases List.mem_append.mp hg with hg | hg
      · exact (hd.done g hg).imp (fun ⟨k, hk, hkp⟩ => ⟨k, hold k hk, hkp⟩) (fun hm => hseal ▸ hm)
      · obtain rfl := List.mem_singleton.mp hg
        exact .inl ⟨_, hnew, rfl⟩
  · refine ⟨hall ▸ hd.all, fun g hg => ?_, hall ▸ hd.plain, fun g hg => ?_⟩
    · rw [hseal] at hg
      rcases List.mem_append.mp hg with hg | hg
      · exact hd.toSeal hg
      · exact List.mem_singleton.mp hg ▸ hf
    · rw [hall, hseal]
      rcases List.mem_append.mp hg with hg | hg
      · exact (hd.done g hg).imp_right (List.mem_append_left _)
      · exact .inr (List.mem_append_right _ hg)

/-- Every file on disk is in the write set, and the write set is fit. -/
theorem decided_sealed {wrapped : WrapMap} {tipEntries : FileMap} {otherRoot : Option ObjectId}
    {files : List WorkFile} (hfiles : ∀ f ∈ files, NormalPath f.path) {d : Decided} {s : Sealing}
    (hd : (files.filterMap (fun f => (matchingPrefix rules f.path).map
        (fun rule => SealInput.mk f.path f.bytes f.mode rule.grantedKeys))).foldlM
      (carryOrSeal env store a wrapped tipEntries otherRoot)
      ⟨(files.filter (fun f => matchingPrefix rules f.path = none)).map
        (fun f => ⟨f.path, f.bytes, f.mode, 0⟩), ∅, []⟩ = .ok d)
    (hs : encryptProtected crypto env.idOf env.draw d.toSeal = .ok s) :
    (∀ g ∈ d.all ++ s.files, Fit rules g) ∧
      ∀ f ∈ files, f.path ∈ (d.all ++ s.files).map (·.path) := by
  have hruled : ∀ i ∈ files.filterMap (fun f => (matchingPrefix rules f.path).map
      (fun rule => SealInput.mk f.path f.bytes f.mode rule.grantedKeys)), NormalPath i.path := by
    intro i hi
    obtain ⟨f, hf, hi⟩ := List.mem_filterMap.mp hi
    obtain ⟨rule, -, rfl⟩ := Option.map_eq_some_iff.mp hi
    exact hfiles f hf
  have hdone := foldlM_ok_done (I := fun done d => done ⊆ _ → DecidedSoFar rules
      (files.filter (fun f => matchingPrefix rules f.path = none)) _ done d)
    (fun done d₀ f d₁ h₀ hok hsub => by
      obtain ⟨hdone, hf⟩ := List.append_subset.mp hsub
      exact (h₀ hdone).step (hf (List.mem_singleton_self f)) (hruled f (hf (by simp))) hok)
    (fun _ => by
      refine ⟨fun g hg => ?_, by simp, fun f hf => ⟨_, List.mem_map_of_mem hf, rfl⟩, by simp⟩
      obtain ⟨f, hf, rfl⟩ := List.mem_map.mp hg
      obtain ⟨hf, hnone⟩ := List.mem_filter.mp hf
      exact ⟨hfiles f hf, fun hne => absurd (by simpa using hnone) hne⟩) hd (List.Subset.refl _)
  have hpaths := encryptProtected_paths hs
  refine ⟨fun g hg => ?_, fun f hf => ?_⟩
  · rcases List.mem_append.mp hg with hg | hg
    · exact hdone.all g hg
    · have hmem : g.path ∈ d.toSeal.map (·.path) := hpaths ▸ List.mem_map_of_mem hg
      obtain ⟨i, hi, hip⟩ := List.mem_map.mp hmem
      refine ⟨hip ▸ hruled i (hdone.toSeal hi), ruled_of_protected ?_⟩
      rw [encryptProtected_perms hs g hg]
      exact sealed_protected
  · rw [List.map_append, List.mem_append, hpaths]
    cases hm : matchingPrefix rules f.path with
    | none =>
      obtain ⟨g, hg, hgp⟩ := hdone.plain f (List.mem_filter.mpr ⟨hf, by simpa using hm⟩)
      exact .inl (hgp ▸ List.mem_map_of_mem hg)
    | some rule =>
      rcases hdone.done ⟨f.path, f.bytes, f.mode, rule.grantedKeys⟩
        (List.mem_filterMap.mpr ⟨f, hf, by simp [hm]⟩) with ⟨g, hg, hgp⟩ | hseal
      · exact .inl (List.mem_map.mpr ⟨g, hg, hgp⟩)
      · exact .inr (List.mem_map.mpr ⟨_, hseal, rfl⟩)

/-- What is carried from `entries`: fit files at paths that are not on disk. -/
def Carryable (a : CommitArgs) (rules : List ProtectPrefix) (onDisk : String → Prop)
    (entries : FileMap) : Prop :=
  ∀ (path : String) (fe : FileEntry), entries[path]? = some fe → NormalPath path ∧
    (a.sparse.matchesPath path = false → ¬ onDisk path → Ruled rules path fe.perms)

theorem carryAbsent_fit {prot : Protection} {skip : List String} {onDisk : String → Prop}
    {entries : FileMap} (hent : Carryable a prot.prefixes onDisk entries) {c c' : Carrying}
    {e : String × FileEntry} (he : e ∈ entries.toList)
    (hc : (∀ g ∈ c.all, Fit prot.prefixes g) ∧ ∀ p, onDisk p → c.onDisk.contains p = true)
    (h : carryAbsent store a prot skip c e = .ok c') :
    (∀ g ∈ c'.all, Fit prot.prefixes g) ∧ ∀ p, onDisk p → c'.onDisk.contains p = true := by
  obtain ⟨path, fe⟩ := e
  obtain ⟨hpath, hfe⟩ := hent path fe ((BTreeMap.mem_toList_iff _ _ _).mp he)
  unfold carryAbsent at h
  simp only at h
  split_ifs at h with hskip hgone
  · cases h
    exact hc
  · cases h
    exact hc
  · obtain ⟨o, -, h⟩ := bind_ok h
    split at h
    · cases h
      refine ⟨fun g hg => ?_, fun p hp => ?_⟩
      · rcases List.mem_append.mp hg with hg | hg
        · exact hc.1 g hg
        · obtain rfl := List.mem_singleton.mp hg
          refine ⟨hpath, ?_⟩
          rcases not_and_or.mp hgone with hprot | hout
          · exact ruled_of_protected (not_not.mp hprot).1
          · refine hfe (not_not.mp hout) (fun hp => hskip ?_)
            rw [hc.2 path hp, Bool.true_or]
      · rw [Std.ExtTreeSet.contains_iff_mem, BTreeSet.mem_insert]
        exact .inr (Std.ExtTreeSet.contains_iff_mem.mp (hc.2 p hp))
    · cases h
      exact hc

theorem commitFiles_subset {files files' : List WorkFile}
    (h : commitFiles store a files = .ok files') : files' ⊆ files := by
  have hkeep : ∀ roots : List ObjectId, files.filter (fun f =>
      !(a.sidecars.contains f.path && !roots.any (tracked store f.path))) ⊆ files :=
    fun _ => List.filter_subset_self files
  unfold commitFiles withoutRecordedSidecars at h
  split_ifs at h
  · cases h
    exact List.Subset.refl _
  · simp only at h
    split at h
    · cases h
      exact hkeep _
    · obtain ⟨snap, -, h⟩ := bind_ok h
      cases h
      exact hkeep _
    · cases h
      exact hkeep _
  · cases h
    exact List.Subset.refl _

/-- The write set of a commit is fit when what it carries from outside the view is. -/
theorem snapshotFiles_ok {files : List WorkFile} {c : Committed}
    (h : snapshotFiles env store a files = .ok c) (hfiles : ∀ f ∈ files, NormalPath f.path) :
    ∃ prot secrets files' sources, commitPolicy env store a = .ok (prot, secrets) ∧
      commitFiles store a files = .ok files' ∧ carrySources env store a = .ok sources ∧
      c.snapshot.protection.prefixes = prot.prefixes ∧
      ((∀ m ∈ sources, Carryable a prot.prefixes (fun p => ∃ f ∈ files', f.path = p) m) →
        ∃ all puts, (∀ g ∈ all, Fit prot.prefixes g) ∧
          (writeTreeWithPerms env.idOf all).run [] = (.ok c.snapshot.root, puts) ∧
          c.puts = puts ++ [.snapshot c.snapshot]) := by
  unfold snapshotFiles at h
  obtain ⟨⟨prot, secrets⟩, hpol, h⟩ := bind_ok h
  obtain ⟨files', hfs, h⟩ := bind_ok h
  have hsub : ∀ f ∈ files', NormalPath f.path := fun f hf => hfiles f (commitFiles_subset hfs hf)
  simp only at h
  by_cases hreport : scanFiles a.scanner env.idOf
      (files'.filter (fun f => matchingPrefix prot.prefixes f.path = none)) ≠ []
  · rw [if_pos hreport] at h
    cases h
  rw [if_neg hreport] at h
  obtain ⟨tipEntries, -, h⟩ := bind_ok h
  obtain ⟨otherRoot, -, h⟩ := bind_ok h
  obtain ⟨d, hd, h⟩ := bind_ok h
  obtain ⟨s, hs, h⟩ := bind_ok h
  obtain ⟨sources, hsrc, h⟩ := bind_ok h
  obtain ⟨cs, hcs, h⟩ := bind_ok h
  obtain ⟨hall, hdisk⟩ := decided_sealed hsub hd hs
  split at h
  · cases h
  · next root puts hrun =>
    cases h
    refine ⟨prot, secrets, files', sources, hpol, hfs, hsrc, rfl, fun hcarry => ?_⟩
    have hfit : (∀ g ∈ cs.all, Fit prot.prefixes g) ∧
        ∀ p, (∃ f ∈ files', f.path = p) → cs.onDisk.contains p = true := by
      refine foldlM_ok (I := fun c : Carrying => (∀ g ∈ c.all, Fit prot.prefixes g) ∧
        ∀ p, (∃ f ∈ files', f.path = p) → c.onDisk.contains p = true)
        (fun c m hm c' hc hrun => ?_) ⟨hall, ?_⟩ hcs
      · exact foldlM_ok (fun c e he c' hc hok => carryAbsent_fit (hcarry m hm) he hc hok) hc hrun
      · rintro p ⟨f, hf, rfl⟩
        rw [Std.ExtTreeSet.contains_iff_mem, BTreeSet.mem_ofList]
        exact hdisk f hf
    exact ⟨cs.all, puts, hfit.1, hrun, rfl⟩

end Written

end SrcControl
