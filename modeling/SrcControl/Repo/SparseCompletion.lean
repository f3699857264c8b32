import SrcControl.Repo.SnapshotFiles

/-!
# Completing a stopped operation under a sparse view

The completion of a stopped merge, pick or rebase step reads the view's files from disk and
carries the rest of the decided tree. On a decided tree of unprotected files the outcome does
not depend on the view, unless the scanner refuses a file that one view lays out.
-/

namespace SrcControl

open SlashPath TreeEntries Fallible Vfs Merge Puts

/-- `read_worktree`: an ignored file is read when it is tracked, and an ignored directory is
entered when a tracked path lies under it. -/
def readWorktree (ignored : String → Bool) (tracked : List String) (disk : List WorkFile) :
    List WorkFile :=
  (disk.filter (fun f =>
    (ancestors f.path).all (fun dir =>
      !ignored dir || tracked.any (fun p => startsWith p (dir ++ "/"))) &&
    (!ignored f.path || tracked.contains f.path))).mergeSort
      (fun f g => (compare f.path g.path).isLE)

section Complete

variable {crypto : SealCrypto} (env : MergeEnv crypto) (store : Store) (a : CommitArgs)

/-- `tracked_paths_at` the parent, and `with_decided_paths`. -/
def trackedPaths : Except Error (List String) := do
  let tip ← tipEntries env store a
  match a.decidedRoot with
  | none => pure tip.keys
  | some root => do
    let decided ← treeFileEntriesWithPerms env.fuel store root
    pure (tip.keys ++ a.conflictPlaintext ++ decided.keys)

/-- The completion of a stopped operation from the files on disk. -/
def completeFromDisk (ignored : String → Bool) (disk : List WorkFile) : Except Error Committed := do
  let tracked ← trackedPaths env store a
  snapshotFiles env store a (readWorktree ignored tracked disk)

end Complete

/-- The same completion in another checkout: its view and its cache. -/
def CommitArgs.inView (a : CommitArgs) (sparse : Sparse)
    (cache : String → Bytes → Option ObjectId) : CommitArgs :=
  { a with sparse := sparse, cache := some cache }

/-! ## Lookups -/

theorem mem_readWorktree {ignored : String → Bool} {tracked : List String} {disk : List WorkFile}
    {f : WorkFile} (hf : f.path ∈ tracked) : f ∈ readWorktree ignored tracked disk ↔ f ∈ disk := by
  rw [readWorktree, List.mem_mergeSort, List.mem_filter, and_iff_left_iff_imp]
  intro _
  rw [Bool.and_eq_true, List.all_eq_true]
  refine ⟨fun dir hdir => ?_, by simp [hf]⟩
  obtain ⟨rest, hrest⟩ := mem_ancestors.mp hdir
  rw [Bool.or_eq_true]
  exact Or.inr (List.any_eq_true.mpr ⟨f.path, hf, startsWith_iff.mpr ⟨rest, hrest⟩⟩)

theorem readWorktree_subset {ignored : String → Bool} {tracked : List String}
    {disk : List WorkFile} : readWorktree ignored tracked disk ⊆ disk := by
  intro f hf
  rw [readWorktree, List.mem_mergeSort] at hf
  exact List.mem_of_mem_filter hf

/-- The lookup by path finds every leaf of a full tree. -/
theorem treeEntryAt_of_leaf {store : Store} {n : Nat} {root : ObjectId} (h : FullAt store n root)
    {cs : List String} {fe : FileEntry} (hl : Leaf store root cs fe) :
    treeEntryAt store root cs = .ok (some fe) := by
  induction n generalizing root cs with
  | zero => exact h.elim
  | succ n ih =>
    obtain ⟨t, ht, hsorted, hbelow⟩ := h
    obtain ⟨e, he, ds, rfl, hentry⟩ := (leaf_iff ht).mp hl
    have hget : t.get e.name = some e := hsorted.get_eq_some_iff.mpr ⟨he, rfl⟩
    have hkind := hbelow e he
    rcases hentry with ⟨hk, rfl, rfl⟩ | ⟨hk, hleaf⟩
    · simp [treeEntryAt, ht, hget, hk, bind, Except.bind, pure, Except.pure]
    · simp only [hk] at hkind
      have hne : ds ≠ [] := by
        rintro rfl
        exact not_leaf_nil hleaf
      obtain ⟨d, ds, rfl⟩ := List.exists_cons_of_ne_nil hne
      simp only [treeEntryAt, ht, hget, hk, bind, Except.bind]
      exact ih hkind hleaf

/-! ## A decided tree of unprotected files -/

/-- The decided tree: full, of plain file names, holding unprotected blobs, addressed by their
content; `files` is its flattening. -/
structure PlainTree (idOf : Object → ObjectId) (store : Store) (fuel : Nat) (root : ObjectId)
    (files : FileMap) : Prop where
  full : FullAt store fuel root
  named : Named store root
  flat : treeFileEntriesWithPerms fuel store root = .ok files
  normal : ∀ (p : String) (fe : FileEntry), files[p]? = some fe → NormalPath p
  perms : ∀ (p : String) (fe : FileEntry), files[p]? = some fe → fe.perms = 0
  addressed : ∀ (p : String) (fe : FileEntry), files[p]? = some fe →
    ∃ b, store.get fe.id = .ok (.blob b) ∧ idOf (.blob b) = fe.id

variable {idOf : Object → ObjectId} {store : Store} {fuel : Nat} {root : ObjectId}
  {files : FileMap}

/-- A file of the decided tree is tracked. -/
theorem PlainTree.tracked (h : PlainTree idOf store fuel root files) {p : String} {fe : FileEntry}
    (hp : files[p]? = some fe) : SrcControl.tracked store p root = true := by
  obtain ⟨fs, hfs, hspec⟩ := treeFileEntriesWithPerms_spec h.full h.named
  have heq : fs = files := by
    have := hfs fuel (Nat.le_refl fuel)
    rw [h.flat] at this
    exact (Except.ok.inj this).symm
  subst heq
  obtain ⟨ds, hleaf, rfl⟩ := (hspec p fe).mp hp
  have hne : ds ≠ [] := by
    rintro rfl
    exact not_leaf_nil hleaf
  rw [SrcControl.tracked, split_ofNames (hleaf.names h.named) hne,
    treeEntryAt_of_leaf h.full hleaf]

/-! ## The write set -/

def WorkFile.plain (f : WorkFile) : SealedFile := ⟨f.path, f.bytes, f.mode, 0⟩

/-- An entry of the decided tree with the bytes it names. -/
def carriedFile (store : Store) (e : String × FileEntry) : SealedFile :=
  ⟨e.1, match store.get e.2.id with
    | .ok (.blob b) => b
    | _ => [], e.2.mode, e.2.perms⟩

/-- Absent from disk, not removed by the user, and outside the view. -/
def outOfView (a : CommitArgs) (skip : List String) (onDisk : BTreeSet String)
    (e : String × FileEntry) : Bool :=
  !(onDisk.contains e.1 || skip.contains e.1) && !a.sparse.matchesPath e.1

theorem carryAbsent_plain {a : CommitArgs} {prot : Protection} {skip : List String} {c : Carrying}
    {e : String × FileEntry} (hperms : e.2.perms = 0)
    (hb : ∃ b, store.get e.2.id = .ok (.blob b)) :
    ∃ c', carryAbsent store a prot skip c e = .ok c' ∧
      if outOfView a skip c.onDisk e then
        c'.all = c.all ++ [carriedFile store e] ∧ c'.onDisk = c.onDisk.insert e.1
      else c' = c := by
  obtain ⟨b, hb⟩ := hb
  have hplain : ¬ (e.2.perms &&& PROTECTED ≠ 0 ∧ matchingPrefix prot.prefixes e.1 ≠ none) := by
    rw [hperms]
    rintro ⟨h, -⟩
    exact h rfl
  unfold carryAbsent outOfView
  simp only [hplain, not_false_eq_true, true_and]
  generalize (c.onDisk.contains e.1 || skip.contains e.1) = skipped
  generalize a.sparse.matchesPath e.1 = inView
  cases skipped with
  | true => exact ⟨c, rfl, rfl⟩
  | false =>
    cases inView with
    | true => exact ⟨c, by simp, by simp⟩
    | false =>
      have hfile : carriedFile store e = ⟨e.1, b, e.2.mode, e.2.perms⟩ := by
        simp only [carriedFile, hb]
      refine ⟨⟨c.all ++ [⟨e.1, b, e.2.mode, e.2.perms⟩], c.onDisk.insert e.1,
        keepWraps prot.wrapped e.2.id c.fresh⟩, ?_, ?_⟩
      · simp [hb, bind, Except.bind, pure, Except.pure]
      · simp [hfile]

/-- Carrying over distinct paths takes exactly those absent and outside the view. -/
theorem carryAll_plain {a : CommitArgs} {prot : Protection} {skip : List String}
    {entries : List (String × FileEntry)} (hnd : (entries.map (·.1)).Nodup)
    (hperms : ∀ e ∈ entries, e.2.perms = 0)
    (hb : ∀ e ∈ entries, ∃ b, store.get e.2.id = .ok (.blob b)) (c : Carrying) :
    ∃ c', entries.foldlM (carryAbsent store a prot skip) c = .ok c' ∧
      c'.all = c.all ++ (entries.filter (outOfView a skip c.onDisk)).map (carriedFile store) := by
  induction entries generalizing c with
  | nil => exact ⟨c, rfl, by simp⟩
  | cons e entries ih =>
    obtain ⟨hnot, hnd⟩ := List.nodup_cons.mp hnd
    obtain ⟨c₁, hstep, hout⟩ := @carryAbsent_plain store a prot skip c e
      (hperms e List.mem_cons_self) (hb e List.mem_cons_self)
    obtain ⟨c₂, hrest, hall⟩ := ih hnd (fun x hx => hperms x (List.mem_cons_of_mem e hx))
      (fun x hx => hb x (List.mem_cons_of_mem e hx)) c₁
    refine ⟨c₂, by rw [List.foldlM_cons, hstep]; exact hrest, ?_⟩
    rw [hall]
    by_cases hcond : outOfView a skip c.onDisk e = true
    · rw [if_pos hcond] at hout
      obtain ⟨hall₁, hdisk₁⟩ := hout
      -- the path just carried is none of the later ones
      have hsame : entries.filter (outOfView a skip c₁.onDisk) =
          entries.filter (outOfView a skip c.onDisk) := by
        refine List.filter_congr fun x hx => ?_
        have hne : x.1 ≠ e.1 := fun he => hnot (List.mem_map.mpr ⟨x, hx, he⟩)
        have hcontains : c₁.onDisk.contains x.1 = c.onDisk.contains x.1 := by
          rw [hdisk₁, Bool.eq_iff_iff, Std.ExtTreeSet.contains_iff_mem,
            Std.ExtTreeSet.contains_iff_mem, BTreeSet.mem_insert]
          simp [hne]
        simp only [outOfView, hcontains]
      rw [hsame, hall₁, List.filter_cons_of_pos hcond, List.map_cons, List.append_assoc]
      rfl
    · rw [if_neg hcond] at hout
      rw [hout, List.filter_cons_of_neg hcond]

/-! ## The files written -/

theorem fileMap_of_mem {fs : List SealedFile} (hn : ∀ f ∈ fs, NormalPath f.path)
    (hsame : ∀ f ∈ fs, ∀ g ∈ fs, f.path = g.path → f.entry idOf = g.entry idOf) {m : FileMap}
    {f : SealedFile} (hf : f ∈ fs) : (fileMap idOf fs m)[f.path]? = some (f.entry idOf) := by
  have hlast : ∀ (fs : List SealedFile) (m : FileMap), (∀ g ∈ fs, NormalPath g.path) →
      (∀ g ∈ fs, g.path = f.path → g.entry idOf = f.entry idOf) →
      (f ∈ fs ∨ m[f.path]? = some (f.entry idOf)) →
      (fileMap idOf fs m)[f.path]? = some (f.entry idOf) := by
    intro fs
    induction fs with
    | nil =>
      intro m _ _ h
      exact h.resolve_left (by simp)
    | cons g fs ih =>
      intro m hn hsame h
      refine ih _ (fun x hx => hn x (List.mem_cons_of_mem g hx))
        (fun x hx => hsame x (List.mem_cons_of_mem g hx)) ?_
      rw [BTreeMap.getElem?_insert, (hn g List.mem_cons_self).normalize]
      by_cases hpath : g.path = f.path
      · exact Or.inr (by rw [if_pos hpath, hsame g List.mem_cons_self hpath])
      · rw [if_neg hpath]
        exact h.imp_left fun h => (List.mem_cons.mp h).resolve_left fun he => hpath (he ▸ rfl)
  exact hlast fs m hn (fun g hg hpath => hsame g hg f hf hpath) (Or.inl hf)

/-- A write set that spells a map writes that map. -/
theorem fileMap_eq {fs : List SealedFile} (hn : ∀ f ∈ fs, NormalPath f.path)
    {want : String → Option FileEntry}
    (hfs : ∀ p fe, (∃ f ∈ fs, f.path = p ∧ f.entry idOf = fe) ↔ want p = some fe) (p : String) :
    (fileMap idOf fs ∅)[p]? = want p := by
  have hsame : ∀ f ∈ fs, ∀ g ∈ fs, f.path = g.path → f.entry idOf = g.entry idOf := by
    intro f hf g hg hpath
    have hwf := (hfs f.path _).mp ⟨f, hf, rfl, rfl⟩
    have hwg := (hfs f.path _).mp ⟨g, hg, hpath.symm, rfl⟩
    rw [hwf] at hwg
    exact Option.some.inj hwg
  refine Option.ext fun fe => ?_
  constructor
  · intro h
    rcases mem_fileMap hn h with hm | hf
    · simp at hm
    · exact (hfs p fe).mp hf
  · intro h
    obtain ⟨f, hf, rfl, rfl⟩ := (hfs p fe).mpr h
    exact fileMap_of_mem hn hsame hf

/-! ## Committing unruled files -/

section Commit

variable {crypto : SealCrypto} {env : MergeEnv crypto} {a : CommitArgs} {decided : ObjectId}
  {tree : FileMap}

/-- What the completion writes: the files read, and what it carries. -/
def writeSet (store : Store) (a : CommitArgs) (tree : FileMap) (fs : List WorkFile) :
    List SealedFile :=
  let skip := if a.mergeHead.isSome || a.pickHead.isSome then a.conflictPlaintext else []
  fs.map WorkFile.plain ++ (tree.toList.filter (outOfView a skip
    (BTreeSet.ofList ((fs.map WorkFile.plain).map (·.path))))).map (carriedFile store)

theorem nodup_keys (m : FileMap) : (m.toList.map (·.1)).Nodup := by
  rw [Std.ExtTreeMap.map_fst_toList_eq_keys]
  exact Std.ExtTreeMap.nodup_keys

/-- With no file under a rule, a completion is the scanner's refusal, or the write. -/
theorem snapshotFiles_unruled {files files' : List WorkFile} {prot : Protection}
    {secrets : BTreeMap String ObjectId} {tip : FileMap} {other : Option ObjectId}
    (htree : PlainTree env.idOf store env.fuel decided tree) (ha : a.decidedRoot = some decided)
    (hpol : commitPolicy env store a = .ok (prot, secrets))
    (hfiles : commitFiles store a files = .ok files')
    (hnone : ∀ f ∈ files', matchingPrefix prot.prefixes f.path = none)
    (htip : tipEntries env store a = .ok tip) (hother : otherRoot store a = .ok other) :
    if scanFiles a.scanner env.idOf files' ≠ [] then
      snapshotFiles env store a files = .error (.secretDetected (scanFiles a.scanner env.idOf files'))
    else match (writeTreeWithPerms env.idOf (writeSet store a tree files')).run [] with
      | (.error e, _) => snapshotFiles env store a files = .error e
      | (.ok root, puts) => ∃ c, snapshotFiles env store a files = .ok c ∧
          c.snapshot.root = root ∧ c.puts = puts ++ [.snapshot c.snapshot] := by
  have hplain : files'.filter (fun f => matchingPrefix prot.prefixes f.path = none) = files' :=
    List.filter_eq_self.mpr fun f hf => by simpa using hnone f hf
  have hruled : files'.filterMap (fun f => (matchingPrefix prot.prefixes f.path).map
      (fun rule => SealInput.mk f.path f.bytes f.mode rule.grantedKeys)) = [] :=
    List.filterMap_eq_nil_iff.mpr fun f hf => by rw [hnone f hf]; rfl
  have hsources : carrySources env store a = .ok [tree] := by
    unfold carrySources
    rw [ha]
    simp [htree.flat, bind, Except.bind, pure, Except.pure]
  obtain ⟨cs, hcs, hall⟩ := @carryAll_plain store a prot
    (if a.mergeHead.isSome || a.pickHead.isSome then a.conflictPlaintext else []) tree.toList
    (nodup_keys tree)
    (fun e he => htree.perms e.1 e.2 ((BTreeMap.mem_toList_iff _ _ _).mp he))
    (fun e he => by
      obtain ⟨b, hb, -⟩ := htree.addressed e.1 e.2 ((BTreeMap.mem_toList_iff _ _ _).mp he)
      exact ⟨b, hb⟩)
    ⟨files'.map WorkFile.plain,
      BTreeSet.ofList ((files'.map WorkFile.plain).map (·.path)),
      (∅ : WrapMap).toList.foldl (fun m w => m.insert w.1 w.2) ∅⟩
  have hset : cs.all = writeSet store a tree files' := hall
  split
  · next hreport =>
    unfold snapshotFiles
    simp only [hpol, hfiles, bind, Except.bind, hplain, if_pos hreport]
  · next hreport =>
    have hrun : snapshotFiles env store a files =
        match (writeTreeWithPerms env.idOf cs.all).run [] with
        | (.error e, _) => .error e
        | (.ok root, puts) =>
          let snap : Snapshot := ⟨root, a.parentsOverride.getD (a.tip.toList ++ a.mergeHead.toList),
            a.author, a.now, a.message, secrets,
            ⟨prot.prefixes, reusePriorWraps cs.fresh prot.wrapped⟩⟩
          .ok ⟨snap, puts ++ [.snapshot snap]⟩ := by
      unfold snapshotFiles
      simp only [hpol, hfiles, bind, Except.bind, hplain, if_neg hreport, htip, hother, hruled,
        List.foldlM_nil, pure, Except.pure, encryptProtected, hsources, List.append_nil]
      have hone : [tree].foldlM (fun c (entries : FileMap) =>
          entries.toList.foldlM (carryAbsent store a prot
            (if a.mergeHead.isSome || a.pickHead.isSome then a.conflictPlaintext else [])) c)
          ⟨files'.map WorkFile.plain, BTreeSet.ofList ((files'.map WorkFile.plain).map (·.path)),
            (∅ : WrapMap).toList.foldl (fun m w => m.insert w.1 w.2) ∅⟩ = .ok cs := by
        rw [List.foldlM_cons, hcs]
        rfl
      delta WorkFile.plain at hone
      rw [hone]
      all_goals rfl
    rw [hset] at hrun
    rw [hrun]
    split
    · rfl
    · exact ⟨_, rfl, rfl, rfl⟩

/-! ## The layout of a stop -/

/-- What a resolution leaves at a conflicted path; `none` deletes it. -/
abbrev Resolution := String → Option (Bytes × FileMode)

/-- A stopped merge, pick or rebase step of unprotected files. -/
structure StoppedAt (env : MergeEnv crypto) (store : Store) (a : CommitArgs) (decided : ObjectId)
    (tree : FileMap) (conflicts : List String) : Prop where
  op : (a.mergeHead.isSome || a.pickHead.isSome) = true
  decides : a.decidedRoot = some decided
  plainTree : PlainTree env.idOf store env.fuel decided tree
  unruled : ∀ prot secrets, commitPolicy env store a = .ok (prot, secrets) →
    ∀ (p : String) (fe : FileEntry), tree[p]? = some fe → matchingPrefix prot.prefixes p = none
  -- A conflict is pushed together with the file at its path.
  held : ∀ p ∈ conflicts, ∃ fe, tree[p]? = some fe
  -- The stop refuses to write a sidecar over a tracked file.
  sidecars : ∀ p ∈ a.sidecars, tracked store p decided = false

/-- The working tree of a stop in the view of `a`, its conflicts resolved: the view's files of
the decided tree, the resolutions, and nothing untracked besides recorded sidecars. -/
structure LaidOut (store : Store) (tree : FileMap) (conflicts : List String) (res : Resolution)
    (a : CommitArgs) (disk : List WorkFile) : Prop where
  kept : ∀ (p : String) (fe : FileEntry), tree[p]? = some fe → p ∉ conflicts →
    a.sparse.matchesPath p = true → ∃ f ∈ disk, f.path = p
  resolved : ∀ p ∈ conflicts, ∀ b mode, res p = some (b, mode) → ⟨p, b, mode⟩ ∈ disk
  files : ∀ f ∈ disk,
    (f.path ∉ conflicts ∧ a.sparse.matchesPath f.path = true ∧
      ∃ fe : FileEntry, tree[f.path]? = some fe ∧ store.blobBytes fe.id = .ok f.bytes ∧
        fe.mode = f.mode) ∨
    (f.path ∈ conflicts ∧ res f.path = some (f.bytes, f.mode)) ∨
    (f.path ∈ a.sidecars ∧ tree[f.path]? = none)

/-- The decided tree with each conflicted path replaced by its resolution. -/
def replaced (idOf : Object → ObjectId) (tree : FileMap) (conflicts : List String)
    (res : Resolution) (p : String) : Option FileEntry :=
  if p ∈ conflicts then (res p).map (fun r => ⟨idOf (.blob r.1), r.2, 0⟩) else tree[p]?

variable {conflicts : List String} {res : Resolution} {disk : List WorkFile}

/-- A completion drops the recorded sidecars that the decided tree does not hold. -/
theorem commitFiles_stopped (hop : (a.mergeHead.isSome || a.pickHead.isSome) = true)
    (ha : a.decidedRoot = some decided) (fs : List WorkFile) :
    commitFiles store a fs = .ok (fs.filter (fun f =>
      !(a.sidecars.contains f.path && !tracked store f.path decided))) := by
  unfold commitFiles withoutRecordedSidecars
  rw [if_pos (by rw [hop, Bool.true_or])]
  by_cases hnil : a.sidecars = []
  · rw [if_pos hnil, hnil]
    simp [pure, Except.pure]
  · rw [if_neg hnil, ha]
    simp [bind, Except.bind, pure, Except.pure]

/-- The files a completion commits from disk are those the decided tree holds. -/
theorem read_stopped (hs : StoppedAt env store a decided tree conflicts)
    (hd : LaidOut store tree conflicts res a disk) {ignored : String → Bool} {paths : List String}
    (hpaths : ∀ p ∈ tree.keys, p ∈ paths) :
    ∃ files, commitFiles store a (readWorktree ignored paths disk) = .ok files ∧
      ∀ f, f ∈ files ↔ f ∈ disk ∧ ∃ fe, tree[f.path]? = some fe := by
  refine ⟨_, commitFiles_stopped hs.op hs.decides _, fun f => ?_⟩
  rw [List.mem_filter]
  constructor
  · intro h
    have hmem := readWorktree_subset h.1
    refine ⟨hmem, ?_⟩
    rcases hd.files f hmem with ⟨-, -, fe, hfe, -⟩ | ⟨hc, -⟩ | ⟨hside, -⟩
    · exact ⟨fe, hfe⟩
    · exact hs.held f.path hc
    · have hkeep := h.2
      simp [hside, hs.sidecars f.path hside] at hkeep
  · rintro ⟨hmem, fe, hfe⟩
    have hin : f.path ∈ paths := hpaths f.path ((BTreeMap.mem_keys_iff _ _).mpr ⟨fe, hfe⟩)
    exact ⟨(mem_readWorktree hin).mpr hmem, by simp [hs.plainTree.tracked hfe]⟩

theorem entry_of_blob (htree : PlainTree env.idOf store env.fuel decided tree) {p : String}
    {fe : FileEntry} (hfe : tree[p]? = some fe) {b : Bytes}
    (hb : store.blobBytes fe.id = .ok b) : env.idOf (.blob b) = fe.id := by
  obtain ⟨b', hb', hid⟩ := htree.addressed p fe hfe
  rw [Store.blobBytes_eq_ok_iff, hb'] at hb
  cases hb
  exact hid

/-- The write set spells the decided tree with the conflicted paths replaced. -/
theorem writeSet_replaced (hs : StoppedAt env store a decided tree conflicts)
    (hd : LaidOut store tree conflicts res a disk)
    (hview : ∀ p ∈ conflicts ++ a.conflictPlaintext, a.sparse.matchesPath p = true)
    {files : List WorkFile} (hfiles : ∀ f, f ∈ files ↔ f ∈ disk ∧ ∃ fe, tree[f.path]? = some fe)
    (p : String) (fe : FileEntry) :
    (∃ f ∈ writeSet store a tree files, f.path = p ∧ f.entry env.idOf = fe) ↔
      replaced env.idOf tree conflicts res p = some fe := by
  have hcontains : ∀ q, (BTreeSet.ofList ((files.map WorkFile.plain).map (·.path))).contains q =
      true ↔ ∃ f ∈ files, f.path = q := by
    intro q
    rw [Std.ExtTreeSet.contains_iff_mem, BTreeSet.mem_ofList]
    simp [WorkFile.plain]
  have hcarried : ∀ e : String × FileEntry, outOfView a
      (if a.mergeHead.isSome || a.pickHead.isSome then a.conflictPlaintext else [])
      (BTreeSet.ofList ((files.map WorkFile.plain).map (·.path))) e = true ↔
      (¬ ∃ f ∈ files, f.path = e.1) ∧ e.1 ∉ a.conflictPlaintext ∧
        a.sparse.matchesPath e.1 = false := by
    intro e
    rw [if_pos hs.op, outOfView, ← hcontains e.1]
    generalize (BTreeSet.ofList ((files.map WorkFile.plain).map (·.path))).contains e.1 = onDisk
    simp [and_assoc]
  have hout : ∀ {q : String}, a.sparse.matchesPath q = false →
      q ∉ conflicts ∧ q ∉ a.conflictPlaintext := by
    intro q hq
    refine ⟨fun h => ?_, fun h => ?_⟩
    · rw [hview q (List.mem_append_left _ h)] at hq
      cases hq
    · rw [hview q (List.mem_append_right _ h)] at hq
      cases hq
  unfold replaced
  constructor
  · rintro ⟨f, hf, rfl, rfl⟩
    rcases List.mem_append.mp hf with hf | hf
    · obtain ⟨g, hg, rfl⟩ := List.mem_map.mp hf
      obtain ⟨hdisk, fe, hfe⟩ := (hfiles g).mp hg
      rcases hd.files g hdisk with ⟨hno, -, fe', hfe', hb, hmode⟩ | ⟨hc, hres⟩ | ⟨-, hnone⟩
      · rw [if_neg (show g.plain.path ∉ conflicts from hno),
          show tree[g.plain.path]? = some fe' from hfe']
        have hperms := hs.plainTree.perms _ _ hfe'
        have hid := entry_of_blob hs.plainTree hfe' hb
        simp only [SealedFile.entry, WorkFile.plain, hid, ← hmode, ← hperms]
      · rw [if_pos (show g.plain.path ∈ conflicts from hc),
          show res g.plain.path = some (g.bytes, g.mode) from hres]
        rfl
      · rw [hnone] at hfe
        cases hfe
    · obtain ⟨⟨q, e⟩, he, rfl⟩ := List.mem_map.mp hf
      obtain ⟨hmem, hcond⟩ := List.mem_filter.mp he
      have hq : tree[q]? = some e := (BTreeMap.mem_toList_iff _ _ _).mp hmem
      obtain ⟨-, -, hv⟩ := (hcarried (q, e)).mp hcond
      obtain ⟨b, hb, hid⟩ := hs.plainTree.addressed q e hq
      rw [if_neg (show (carriedFile store (q, e)).path ∉ conflicts from (hout hv).1),
        show tree[(carriedFile store (q, e)).path]? = some e from hq]
      simp only [SealedFile.entry, carriedFile, hb, hid]
  · intro h
    split at h
    · next hc =>
      obtain ⟨⟨b, mode⟩, hres, rfl⟩ := Option.map_eq_some_iff.mp h
      have hdisk := hd.resolved p hc b mode hres
      have hin := (hfiles ⟨p, b, mode⟩).mpr ⟨hdisk, hs.held p hc⟩
      exact ⟨_, List.mem_append_left _ (List.mem_map_of_mem hin), rfl, rfl⟩
    · next hno =>
      by_cases hdisk : ∃ f ∈ files, f.path = p
      · obtain ⟨f, hf, rfl⟩ := hdisk
        obtain ⟨hmem, -⟩ := (hfiles f).mp hf
        refine ⟨_, List.mem_append_left _ (List.mem_map_of_mem hf), rfl, ?_⟩
        rcases hd.files f hmem with ⟨-, -, fe', hfe', hb, hmode⟩ | ⟨hc, -⟩ | ⟨-, hnone⟩
        · rw [h] at hfe'
          cases hfe'
          have hperms := hs.plainTree.perms _ _ h
          have hid := entry_of_blob hs.plainTree h hb
          simp only [SealedFile.entry, WorkFile.plain, hid, ← hmode, ← hperms]
        · exact absurd hc hno
        · rw [hnone] at h
          cases h
      · have hv : a.sparse.matchesPath p = false := by
          by_contra hv
          obtain ⟨f, hf, rfl⟩ := hd.kept p fe h hno (by simpa using hv)
          exact hdisk ⟨f, (hfiles f).mpr ⟨hf, fe, h⟩, rfl⟩
        have hcond := (hcarried (p, fe)).mpr ⟨hdisk, (hout hv).2, hv⟩
        have hmem : (p, fe) ∈ tree.toList := (BTreeMap.mem_toList_iff _ _ _).mpr h
        obtain ⟨b, hb, hid⟩ := hs.plainTree.addressed p fe h
        refine ⟨carriedFile store (p, fe), List.mem_append_right _
          (List.mem_map_of_mem (List.mem_filter.mpr ⟨hmem, hcond⟩)), rfl, ?_⟩
        simp only [SealedFile.entry, carriedFile, hb, hid]

/-! ## Two views -/

/-- A tree of files only flattens once its objects are held. -/
theorem writeTree_flat {idOf : Object → ObjectId} {fs : List SealedFile} {os : List Object}
    {root : ObjectId} (hf : ∀ f ∈ fs, NormalPath f.path)
    (h : (writeTreeWithPerms idOf fs).run [] = (.ok root, os)) {full : Store}
    (hheld : ∀ o ∈ os, full.get (idOf o) = .ok o) :
    ∃ m, Flattens full root "" m ∧ ∀ p : String, m[p]? = (fileMap idOf fs ∅)[p]? := by
  rw [writeTreeWithPerms_eq] at h
  obtain ⟨trees, hos, -, hb⟩ := writeTree_ok hf (by simp) h
  have htrees : ∀ t, .tree t ∈ trees → full.getTree (idOf (.tree t)) = .ok t := fun t ht =>
    Store.getTree_eq_ok_iff.mpr (hheld _ (hos ▸ List.mem_append_right _ ht))
  have hcarried : TreeBuilder.AllFlatten full (fileMap idOf fs ∅) (carriedMap []) [] := by
    refine (TreeBuilder.allFlatten_root_iff (spelled_carriedMap (by simp))).mpr fun p e he => ?_
    simp [carriedMap, BTreeMap.ofList] at he
  obtain ⟨m, hm, -⟩ := hb.flattens htrees hcarried
  exact ⟨m, hm, fun p => Option.ext fun fe => writeTree_flattens hf h hheld hm⟩

theorem writeTree_congr {idOf : Object → ObjectId} {fs gs : List SealedFile}
    (hf : ∀ f ∈ fs, NormalPath f.path)
    (hsame : fileMap idOf fs ∅ = fileMap idOf gs ∅) {root : ObjectId} {os : List Object}
    (h : (writeTreeWithPerms idOf fs).run [] = (.ok root, os)) :
    ∃ os', (writeTreeWithPerms idOf gs).run [] = (.ok root, os') := by
  have hcarried : (writeTreeWithCarried idOf fs []).run [] = (.ok root, os) := h
  obtain ⟨-, -, hclear, -⟩ := writeTree_ok hf (by simp) hcarried
  obtain ⟨r, trees, hemits, -⟩ := @TreeBuilder.buildRoot_emits idOf _ _ (spelled_fileMap hf)
    (spelled_carriedMap (by simp)) hclear
  have hruns : ∀ xs : List SealedFile, fileMap idOf xs ∅ = fileMap idOf fs ∅ →
      (writeTreeWithPerms idOf xs).run [] =
        (.ok r, xs.map (fun f => Object.blob f.bytes) ++ trees) := by
    intro xs hxs
    have hw : Emits (writeTreeWithPerms idOf xs) r
        (xs.map (fun f => Object.blob f.bytes) ++ trees) :=
      (writeFiles_emits xs ∅).bind (by rw [hxs]; exact hemits)
    exact hw []
  rw [hruns fs rfl] at h
  cases h
  exact ⟨_, hruns gs hsame.symm⟩

theorem writeSet_normal (hs : StoppedAt env store a decided tree conflicts) {files : List WorkFile}
    (hfiles : ∀ f ∈ files, ∃ fe, tree[f.path]? = some fe) :
    ∀ f ∈ writeSet store a tree files, NormalPath f.path := by
  intro f hf
  rcases List.mem_append.mp hf with hf | hf
  · obtain ⟨g, hg, rfl⟩ := List.mem_map.mp hf
    obtain ⟨fe, hfe⟩ := hfiles g hg
    exact hs.plainTree.normal g.path fe hfe
  · obtain ⟨⟨q, e⟩, he, rfl⟩ := List.mem_map.mp hf
    exact hs.plainTree.normal q e ((BTreeMap.mem_toList_iff _ _ _).mp (List.mem_of_mem_filter he))

theorem scanFiles_paths {sc : Scanner} {idOf : Object → ObjectId} {fs : List WorkFile} {x : Finding}
    (h : x ∈ scanFiles sc idOf fs) : ∃ f ∈ fs, f.path = x.path := by
  obtain ⟨f, hf, hx⟩ := List.mem_flatMap.mp h
  refine ⟨f, hf, ?_⟩
  simp only at hx
  split at hx
  · cases hx
  · obtain ⟨hit, -, rfl⟩ := List.mem_map.mp hx
    rfl

theorem StoppedAt.inView (hs : StoppedAt env store a decided tree conflicts) (v : Sparse)
    (cache : String → Bytes → Option ObjectId) :
    StoppedAt env store (a.inView v cache) decided tree conflicts :=
  ⟨hs.op, hs.decides, hs.plainTree, hs.unruled, hs.held, hs.sidecars⟩

/-- What a completion does in one view, when the reads common to all views succeed. -/
theorem complete_stopped (hs : StoppedAt env store a decided tree conflicts)
    (hview : ∀ p ∈ conflicts ++ a.conflictPlaintext, a.sparse.matchesPath p = true)
    (hd : LaidOut store tree conflicts res a disk) {prot : Protection}
    {secrets : BTreeMap String ObjectId} {tip : FileMap} {other : Option ObjectId}
    (hpol : commitPolicy env store a = .ok (prot, secrets))
    (htip : tipEntries env store a = .ok tip) (hother : otherRoot store a = .ok other)
    (ignored : String → Bool) :
    (∃ report, completeFromDisk env store a ignored disk = .error (.secretDetected report) ∧
      report ≠ [] ∧ ∀ x ∈ report, ∃ f ∈ disk, f.path = x.path) ∨
    ∃ fs, (∀ f ∈ fs, NormalPath f.path) ∧
      (∀ p, (fileMap env.idOf fs ∅)[p]? = replaced env.idOf tree conflicts res p) ∧
      match (writeTreeWithPerms env.idOf fs).run [] with
      | (.error e, _) => completeFromDisk env store a ignored disk = .error e
      | (.ok root, puts) => ∃ c, completeFromDisk env store a ignored disk = .ok c ∧
          c.snapshot.root = root ∧ c.puts = puts ++ [.snapshot c.snapshot] := by
  have hpaths : trackedPaths env store a = .ok (tip.keys ++ a.conflictPlaintext ++ tree.keys) := by
    unfold trackedPaths
    rw [htip, hs.decides]
    simp [hs.plainTree.flat, bind, Except.bind, pure, Except.pure]
  have hread : ∃ files, commitFiles store a (readWorktree ignored
      (tip.keys ++ a.conflictPlaintext ++ tree.keys) disk) = .ok files ∧
      ∀ f, f ∈ files ↔ f ∈ disk ∧ ∃ fe, tree[f.path]? = some fe :=
    read_stopped hs hd fun p hp => List.mem_append_right _ hp
  obtain ⟨files, hcommit, hfiles⟩ := hread
  have hnone : ∀ f ∈ files, matchingPrefix prot.prefixes f.path = none := by
    intro f hf
    obtain ⟨-, fe, hfe⟩ := (hfiles f).mp hf
    exact hs.unruled prot secrets hpol f.path fe hfe
  have hrun : completeFromDisk env store a ignored disk = snapshotFiles env store a
      (readWorktree ignored (tip.keys ++ a.conflictPlaintext ++ tree.keys) disk) := by
    unfold completeFromDisk
    rw [hpaths]
    rfl
  have hout := snapshotFiles_unruled hs.plainTree hs.decides hpol hcommit hnone htip hother
  rw [hrun]
  split at hout
  · next hreport =>
    refine Or.inl ⟨_, hout, hreport, fun x hx => ?_⟩
    obtain ⟨f, hf, hpath⟩ := scanFiles_paths hx
    exact ⟨f, ((hfiles f).mp hf).1, hpath⟩
  · have hnormal := writeSet_normal hs fun f hf => ((hfiles f).mp hf).2
    exact Or.inr ⟨writeSet store a tree files, hnormal,
      fileMap_eq hnormal (writeSet_replaced hs hd hview hfiles), hout⟩

end Commit

/-! ### A file only one view lays out -/

/-- Blobs and trees by their encoding, snapshots by the length of their message. -/
def scanAddress : Object → ObjectId
  | .snapshot s => ⟨[TAG_SNAPSHOT, UInt8.ofNat s.message.length]⟩
  | o => TreeBuilder.plainId o

def scanEnv : MergeEnv testSealCrypto := ⟨scanAddress, none, none, 0, 3⟩

/-- A binary `a`, and `b`, which the scanner refuses. -/
def scanSide (bytes : Bytes) : Tree := ⟨[testLeaf "a" bytes 0, testLeaf "b" [9] 0]⟩

/-- A conflict of binary files keeps ours, with theirs beside it. -/
def scanTree : Tree := scanSide [255]

def scanTip : Snapshot := ⟨scanAddress (.tree scanTree), [], "a", 0, "ours", ∅, default⟩

def scanPicked : Snapshot :=
  ⟨scanAddress (.tree (scanSide [254])), [], "a", 0, "theirs", ∅, default⟩

def scanStore : Store :=
  Store.putAll scanAddress ⟨∅⟩
    [.blob [255], .blob [254], .blob [9], .tree scanTree, .tree (scanSide [254]),
      .snapshot scanTip, .snapshot scanPicked]

/-- A stopped pick. -/
def scanArgs : CommitArgs :=
  { tip := some (scanAddress (.snapshot scanTip))
    pickHead := some (scanAddress (.snapshot scanPicked))
    decidedRoot := some (scanAddress (.tree scanTree))
    sparse := []
    cache := none
    sidecars := ["a.theirs"]
    scanner := ⟨fun _ => false, fun path _ => if path = "b" then [("key", 1)] else []⟩
    author := "a"
    message := "done!"
    now := 0 }

def scanFileMap : FileMap :=
  ((∅ : FileMap).insert "a" ⟨scanAddress (.blob [255]), .FILE, 0⟩).insert "b"
    ⟨scanAddress (.blob [9]), .FILE, 0⟩

def scanResolution : Resolution := fun _ => some ([6], .FILE)

/-- The conflict resolved, in the view of `a` alone and in the full view. -/
def scanDisk (full : Bool) : List WorkFile :=
  ⟨"a", [6], .FILE⟩ :: if full then [⟨"b", [9], .FILE⟩] else []

def noCache (_ : String) (_ : Bytes) : Option ObjectId := none

theorem scan_getTree : scanStore.getTree (scanAddress (.tree scanTree)) = .ok scanTree := rfl

theorem scan_files {p : String} {fe : FileEntry} (h : scanFileMap[p]? = some fe) :
    (p = "a" ∧ fe = ⟨scanAddress (.blob [255]), .FILE, 0⟩) ∨
      (p = "b" ∧ fe = ⟨scanAddress (.blob [9]), .FILE, 0⟩) := by
  unfold scanFileMap at h
  rw [BTreeMap.getElem?_insert, BTreeMap.getElem?_insert] at h
  split_ifs at h with hb ha
  · exact Or.inr ⟨hb.symm, (Option.some.inj h).symm⟩
  · exact Or.inl ⟨ha.symm, (Option.some.inj h).symm⟩
  · simp at h

theorem scan_entries {e : TreeEntry} (h : e ∈ scanTree.entries) :
    e.kind = .blob ∧ (e.name = "a" ∨ e.name = "b") ∧ ∃ b, scanStore.blobBytes e.id = .ok b := by
  rcases List.mem_pair.mp h with rfl | rfl
  · exact ⟨rfl, Or.inl rfl, [255], rfl⟩
  · exact ⟨rfl, Or.inr rfl, [9], rfl⟩

theorem scan_name {p : String} (h : p = "a" ∨ p = "b") : NormalPath p ∧ IsName p := by
  rcases h with rfl | rfl
  · exact ⟨⟨["a"], by simp, by decide, rfl⟩, by decide⟩
  · exact ⟨⟨["b"], by simp, by decide, rfl⟩, by decide⟩

theorem scan_node {id : ObjectId} (h : Node scanStore (scanAddress (.tree scanTree)) id) :
    id = scanAddress (.tree scanTree) := by
  induction h with
  | root => rfl
  | child _ ht he hk ih =>
    rw [ih, scan_getTree] at ht
    cases ht
    rw [(scan_entries he).1] at hk
    cases hk

theorem scan_plainTree : PlainTree scanEnv.idOf scanStore scanEnv.fuel
    (scanAddress (.tree scanTree)) scanFileMap where
  full := by
    refine ⟨scanTree, scan_getTree, ?_, fun e he => ?_⟩
    · exact List.pairwise_pair.mpr (by decide)
    · obtain ⟨hk, -, hb⟩ := scan_entries he
      simp only [hk]
      exact hb
  named := by
    intro id t hn ht e he
    rw [scan_node hn, scan_getTree] at ht
    cases ht
    exact (scan_name (scan_entries he).2.1).2
  flat := rfl
  normal p fe h := by
    rcases scan_files h with ⟨hp, -⟩ | ⟨hp, -⟩
    · exact (scan_name (Or.inl hp)).1
    · exact (scan_name (Or.inr hp)).1
  perms p fe h := by
    rcases scan_files h with ⟨-, rfl⟩ | ⟨-, rfl⟩ <;> rfl
  addressed p fe h := by
    rcases scan_files h with ⟨-, rfl⟩ | ⟨-, rfl⟩
    · exact ⟨[255], rfl, rfl⟩
    · exact ⟨[9], rfl, rfl⟩

theorem scan_stopped : StoppedAt scanEnv scanStore scanArgs (scanAddress (.tree scanTree))
    scanFileMap ["a"] where
  op := rfl
  decides := rfl
  plainTree := scan_plainTree
  unruled prot secrets h p fe _ := by
    have hpol : (commitPolicy scanEnv scanStore scanArgs).map (fun r => r.1.prefixes) = .ok [] := rfl
    rw [h] at hpol
    have hnil : prot.prefixes = [] := Except.ok.inj hpol
    rw [hnil]
    rfl
  held p hp := by
    obtain rfl := List.mem_singleton.mp hp
    exact ⟨_, rfl⟩
  sidecars p hp := by
    obtain rfl := List.mem_singleton.mp hp
    decide +kernel

theorem scan_laidOut {full : Bool} {v : Sparse} (hv : v.matchesPath "b" = full) :
    LaidOut scanStore scanFileMap ["a"] scanResolution (scanArgs.inView v noCache)
      (scanDisk full) where
  kept p fe h hno hview := by
    rcases scan_files h with ⟨rfl, -⟩ | ⟨rfl, -⟩
    · exact absurd (List.mem_singleton_self _) hno
    · have hfull : full = true := hv ▸ hview
      exact ⟨⟨"b", [9], .FILE⟩, by simp [scanDisk, hfull], rfl⟩
  resolved p hp b mode h := by
    obtain rfl := List.mem_singleton.mp hp
    cases h
    exact List.mem_cons_self
  files f hf := by
    rcases List.mem_cons.mp hf with rfl | hf
    · exact Or.inr (Or.inl ⟨List.mem_singleton_self _, rfl⟩)
    · cases full with
      | false => cases hf
      | true =>
        obtain rfl := List.mem_singleton.mp hf
        refine Or.inl ⟨by decide, ?_, ⟨scanAddress (.blob [9]), .FILE, 0⟩, rfl, rfl, rfl⟩
        exact hv

theorem scan_narrow : ∃ c, completeFromDisk scanEnv scanStore (scanArgs.inView ["a"] noCache)
    (fun _ => false) (scanDisk false) = .ok c := by
  have hok : (completeFromDisk scanEnv scanStore (scanArgs.inView ["a"] noCache)
      (fun _ => false) (scanDisk false)).toBool = true := by decide +kernel
  cases h : completeFromDisk scanEnv scanStore (scanArgs.inView ["a"] noCache)
      (fun _ => false) (scanDisk false) with
  | ok c => exact ⟨c, rfl⟩
  | error e =>
    rw [h] at hok
    cases hok

def reportsSecret {α : Type} : Except Error α → Bool
  | .error (.secretDetected _) => true
  | _ => false

theorem reportsSecret_iff {α : Type} {x : Except Error α} :
    reportsSecret x = true ↔ ∃ report, x = .error (.secretDetected report) := by
  constructor
  · intro h
    unfold reportsSecret at h
    split at h
    · exact ⟨_, rfl⟩
    · cases h
  · rintro ⟨report, rfl⟩
    rfl

theorem scan_full : ∃ report, completeFromDisk scanEnv scanStore (scanArgs.inView [] noCache)
    (fun _ => false) (scanDisk true) = .error (.secretDetected report) := by
  have hread : ∀ paths, readWorktree (fun _ => false) paths (scanDisk true) = scanDisk true := by
    intro paths
    have hall : (scanDisk true).filter (fun f =>
        (ancestors f.path).all (fun dir =>
          !(fun _ => false) dir || paths.any (fun p => startsWith p (dir ++ "/"))) &&
        (!(fun _ => false) f.path || paths.contains f.path)) = scanDisk true :=
      List.filter_eq_self.mpr fun f _ => by simp
    rw [readWorktree, hall]
    exact List.mergeSort_of_pairwise (List.pairwise_pair.mpr (by decide))
  obtain ⟨paths, hpaths⟩ : ∃ paths, trackedPaths scanEnv scanStore (scanArgs.inView [] noCache) =
      .ok paths := ⟨_, rfl⟩
  obtain ⟨report, hreport⟩ := reportsSecret_iff.mp
    (show reportsSecret (snapshotFiles scanEnv scanStore (scanArgs.inView [] noCache)
      (scanDisk true)) = true by decide +kernel)
  unfold completeFromDisk
  rw [hpaths]
  simp only [bind, Except.bind, hread]
  exact ⟨report, hreport⟩

end SrcControl
