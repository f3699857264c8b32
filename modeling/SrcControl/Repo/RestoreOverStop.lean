import SrcControl.Repo.MaterializeRuns

/-!
# The restore of an abort

`materialize_restore` lays a tip over the tree a stopped operation left on disk. It
overwrites and deletes only what the stop owns or what still has the bytes of one of
the two trees, changes nothing through a link, reports what it leaves, and refuses
before its first change.
-/

namespace SrcControl

open SlashPath FileTree TreeEntries Fallible

namespace Worktree

/-- The paths a restore works along: those the stopped tree tracks, and in the view those of the
restored one. -/
def RestorePath (store : Store) (sparse : Sparse) (old target : ObjectId) (p : String) : Prop :=
  (∃ e, Tracked store old p e) ∨ (sparse.matchesPath p = true ∧ ∃ e, Tracked store target p e)

/-- A file a restore may replace: its path is owned, or its bytes are the blob one of the two
trees has there. -/
def Replaceable (store : Store) (idOf : Object → ObjectId) (old target : ObjectId)
    (owned : BTreeSet String) (p : String) (c : FileData) : Prop :=
  p ∈ owned ∨ ∃ e, (Tracked store old p e ∨ Tracked store target p e) ∧
    idOf (.blob c.bytes) = e.id

/-- The user's work came through: files that are not replaceable, links, directories that hold
either, and everything that is not at a literal location along the two trees' paths. -/
structure WorkKept (root : Path OsName) (paths : String → Prop) (may : String → FileData → Prop)
    (d d' : WorkDisk) : Prop where
  files : ∀ q c, d.node q = some (.file c) →
    (∀ p, Safe p → q = root ++ names p → ¬ may p c) → d'.node q = some (.file c)
  links : ∀ q l, d.node q = some (.symlink l) → d'.node q = some (.symlink l)
  dirs : ∀ q, d.node q = some .dir → d'.node q ≠ some .dir → ∀ t n, t ≠ [] →
    d.node (q ++ t) = some n → n = .dir ∨ ∃ c p, n = .file c ∧ Safe p ∧
      q ++ t = root ++ names p ∧ may p c
  along : ∀ q, d'.node q ≠ d.node q → ∃ p r, paths p ∧ q = root ++ r ∧
    (r <+: names p ∨ names p <+: r) ∧ d.Plain root r

theorem Frame.workKept {root : Path OsName} {paths : String → Prop}
    {may : String → FileData → Prop} {d d' : WorkDisk} (h : Frame root paths may d d') :
    WorkKept root paths may d d' where
  files q c hq hno := by
    rcases h.files q c hq with hkept | ⟨p, hsafe, hat, hmay⟩
    · exact hkept
    · exact absurd hmay (hno p hsafe hat)
  links q l hq := (h.links q l).mpr hq
  dirs q _ hgone t n ht hn := by
    have habove : d'.node (q ++ t) = none := Disk.none_below hgone ht
    cases n with
    | dir => exact .inl rfl
    | symlink l =>
      rw [← h.links, habove] at hn
      cases hn
    | file c =>
      rcases h.files _ c hn with hkept | ⟨p, hsafe, hat, hmay⟩
      · rw [habove] at hkept
        cases hkept
      · exact .inr ⟨c, p, rfl, hsafe, hat, hmay⟩
  along := h.along

/-- What is left is reported: a path only the stopped tree tracks, and a path of the restored tree
that does not hold its file, are named as kept or skipped. A tree may name an object that is no
file's bytes: that path is passed over. -/
structure Reported (layout : Layout) (store : Store) (sparse : Sparse) (old target : ObjectId)
    (m : Materialized) (d d' : WorkDisk) : Prop where
  replaced : ∀ p, sparse.matchesPath p = true → (∃ e, Tracked store old p e) →
    (∀ e, ¬ Tracked store target p e) → ∀ n, lstat layout d (names p) = .ok (some n) →
      lstat layout d' (names p) = .ok (some n) → p ∈ m.kept
  restored : ∀ p, sparse.matchesPath p = true → (∃ e, Tracked store target p e) →
    p ∈ m.kept ∨ p ∈ m.skipped ∨ ∃ e, Tracked store target p e ∧
      ((∃ bytes, store.get e.id = .ok (.blob bytes) ∧
          d'.node (layout.root ++ names p) = some (.file ⟨bytes, e.mode⟩)) ∨
        ∃ o, store.get e.id = .ok o ∧ ∀ bytes, o ≠ .blob bytes)

/-! ## Order of the writes -/

/-- A path comes before everything below it. -/
theorem not_compare_below (p rest : String) : compare (p ++ rest) p ≠ .lt := by
  intro h
  have hlt : p ++ rest < p := compareOfLessAndEq_eq_lt.mp h
  rw [String.lt_iff, String.toList_append] at hlt
  exact List.not_lt.mpr List.le_append_left hlt

theorem Husk.edit {root : Path OsName} {p p' : String} {d d' : WorkDisk} (h : Husk root p' d)
    (he : Edit root p d d') (hno : ∀ t, t ≠ [] → ¬ names p' ++ t <+: names p) :
    Husk root p' d' := by
  intro t ht hn
  have hsame : d'.node (root ++ names p' ++ t) = d.node (root ++ names p' ++ t) := by
    by_contra hne
    obtain ⟨r, hr, hpre | ⟨hpre, hdir⟩⟩ := he.along hne
    · rw [List.append_assoc] at hr
      exact hno t ht (List.append_cancel_left hr ▸ hpre)
    · -- an empty directory below went: nothing stands there now
      refine hn ?_
      cases hd : d'.node (root ++ names p' ++ t) with
      | none => rfl
      | some n =>
        cases n with
        | dir => exact absurd (hd.trans hdir.symm) hne
        | symlink l =>
          rw [he.links, hdir] at hd
          cases hd
        | file c =>
          by_cases hat : root ++ names p' ++ t = root ++ names p
          · rw [List.append_assoc] at hat
            exact absurd (List.append_cancel_left hat ▸ List.prefix_rfl) (hno t ht)
          · rw [he.files _ c hat, hdir] at hd
            cases hd
  rw [hsame] at hn ⊢
  exact h t ht hn

theorem not_below_of_lt {p p' : String} (hsafe : Safe p) (hsafe' : Safe p')
    (hlt : compare p p' = .lt) : ∀ t, t ≠ [] → ¬ names p' ++ t <+: names p := by
  rintro t ht ⟨s, hs⟩
  rw [List.append_assoc] at hs
  obtain ⟨parent, rest, rfl, hparent, -⟩ :=
    hsafe.ancestor hs.symm hsafe'.names_ne_nil (by simp [ht])
  have hp' := names_inj hsafe.of_slash.1 hsafe' hparent
  subst hp'
  rw [String.append_assoc] at hlt
  exact not_compare_below _ _ hlt

/-! ## The write pass -/

theorem mem_inView {env : Laying} {target : FileMap} {path : String} {e : FileEntry}
    (he : target[path]? = some e) (hview : env.sparse.matchesPath path = true) :
    path ∈ env.inView target :=
  List.mem_filter.mpr ⟨(BTreeMap.mem_keys_iff _ _).mpr ⟨e, he⟩, hview⟩

/-- A file the restore does not leave is no link, and one the restore may replace. -/
theorem left_false {env : Laying} {owned : BTreeSet String} (howned : env.owned = some owned)
    {tracked : FileMap} {disk : WorkDisk} {path : String} {id : ObjectId}
    (hp : disk.Plain env.layout.root (names path)) (hroot : disk.node env.layout.root = some .dir)
    (h : env.left disk (some tracked) path (names path) id = false) :
    (∀ l, disk.node (env.layout.root ++ names path) ≠ some (.symlink l)) ∧
      ∀ c, disk.node (env.layout.root ++ names path) = some (.file c) →
        path ∈ owned ∨ env.idOf (.blob c.bytes) = id ∨
          ∃ e, tracked[path]? = some e ∧ env.idOf (.blob c.bytes) = e.id := by
  simp only [Laying.left, howned, Bool.or_eq_false_iff] at h
  obtain ⟨hlink, hrest⟩ := h
  refine ⟨fun l hl => ?_, fun c hc => ?_⟩
  · exact Bool.eq_false_iff.mp hlink ((standsAs_iff hp hroot).mpr ⟨_, hl, rfl⟩)
  · have hthere : standsAs env.layout disk (names path) (fun m => !m.isDir) = true :=
      (standsAs_iff hp hroot).mpr ⟨_, hc, rfl⟩
    have hblob : diskBlobId env.layout disk env.idOf (names path) =
        some (env.idOf (.blob c.bytes)) := (diskBlobId_eq_some_iff hp hroot).mpr ⟨c, hc, rfl⟩
    rw [hthere, hblob, Bool.and_true] at hrest
    by_cases hown : owned.contains path = true
    · exact .inl (Std.ExtTreeSet.mem_iff_contains.mpr hown)
    · by_cases hid : env.idOf (.blob c.bytes) = id
      · exact .inr (.inl hid)
      · refine .inr (.inr ?_)
        cases ht : tracked[path]? with
        | none => simp [hown, hid, ht] at hrest
        | some e =>
          refine ⟨e, rfl, ?_⟩
          simpa [hown, hid, ht] using hrest

section Restore

variable {layout : Layout} {store : Store} {fuel : Nat} {idOf : Object → ObjectId}
  {sparse : Sparse} {owned : BTreeSet String} {old targetRoot : ObjectId}
  {target tracked : FileMap} {removals kept : List String} {d₀ : WorkDisk}

/-- What the report or the disk shows of a target entry the pass is done with. -/
def Settled (layout : Layout) (store : Store) (path : String) (e : FileEntry) (m : Materialized)
    (d : WorkDisk) : Prop :=
  path ∈ m.kept ∨ path ∈ m.skipped ∨
    (∃ bytes, store.get e.id = .ok (.blob bytes) ∧
      d.node (layout.root ++ names path) = some (.file ⟨bytes, e.mode⟩)) ∨
    ∃ o, store.get e.id = .ok o ∧ ∀ bytes, o ≠ .blob bytes

theorem Settled.mono {path : String} {e : FileEntry} {m m' : Materialized} {d d' : WorkDisk}
    (h : Settled layout store path e m d) (hkept : ∀ p ∈ m.kept, p ∈ m'.kept)
    (hskipped : ∀ p ∈ m.skipped, p ∈ m'.skipped)
    (hfile : ∀ c, d.node (layout.root ++ names path) = some (.file c) →
      d'.node (layout.root ++ names path) = some (.file c)) : Settled layout store path e m' d' := by
  rcases h with h | h | ⟨bytes, hget, hnode⟩ | h
  · exact .inl (hkept _ h)
  · exact .inr (.inl (hskipped _ h))
  · exact .inr (.inr (.inl ⟨bytes, hget, hfile _ hnode⟩))
  · exact .inr (.inr (.inr h))

theorem Handled.restored {replaced : Option FileMap} {path : String} {e : FileEntry}
    {m m' : Materialized} {d d' : WorkDisk}
    (h : Handled (restoring layout store fuel idOf sparse owned) replaced path e m d m' d') :
    ((restoring layout store fuel idOf sparse owned).left d replaced path (names path) e.id = false ∨
      d' = d) ∧ (∀ p ∈ m.kept, p ∈ m'.kept) ∧ (∀ p ∈ m.skipped, p ∈ m'.skipped) ∧
      Settled layout store path e m' d' := by
  cases h with
  | left hleft =>
    exact ⟨.inr rfl, fun p hp => List.mem_append_left _ hp, fun p hp => hp, .inl (by simp)⟩
  | laid hleft hget hperms hfile =>
    exact ⟨.inl hleft, fun p hp => hp, fun p hp => hp, .inr (.inr (.inl ⟨_, hget, hfile⟩))⟩
  | opened hleft hget hperms hopen => cases hopen
  | skipped hleft hget hperms hopen hnone =>
    exact ⟨.inl hleft, fun p hp => hp, fun p hp => List.mem_append_left _ hp,
      .inr (.inl (by simp))⟩
  | passed hleft hget hkind =>
    exact ⟨.inr rfl, fun p hp => hp, fun p hp => hp, .inr (.inr (.inr ⟨_, hget, hkind⟩))⟩

/-- The state of the write pass, with the entries it is done with. -/
structure Writing (layout : Layout) (store : Store) (idOf : Object → ObjectId) (sparse : Sparse)
    (owned : BTreeSet String) (old targetRoot : ObjectId) (target : FileMap)
    (removals kept : List String) (d₀ : WorkDisk) (prev : Option Sparse)
    (done : List (String × FileEntry)) (m : Materialized) (s : Checkout) : Prop where
  prev : s.sparsePrev = prev
  frame : Frame layout.root (RestorePath store sparse old targetRoot)
    (Replaceable store idOf old targetRoot owned) d₀ s.disk
  removed : ∀ p ∈ removals, ∀ c, s.disk.node (layout.root ++ names p) ≠ some (.file c)
  kept : ∀ p ∈ kept, p ∈ m.kept
  settled : ∀ x ∈ done, sparse.matchesPath x.1 = true → Settled layout store x.1 x.2 m s.disk
  husks : ∀ x ∈ target.toList, x ∉ done → sparse.matchesPath x.1 = true →
    Husk layout.root x.1 s.disk

theorem writes_outcome (htarget : Flattens store targetRoot sparse target)
    (htracked : ∀ p e, tracked[p]? = some e → Tracked store old p e)
    (hd : Decided (restoring layout store fuel idOf sparse owned) d₀ target tracked removals kept)
    (hu : Unobstructed (restoring layout store fuel idOf sparse owned) d₀ target removals)
    (hroot : d₀.node layout.root = some .dir) {prev : Option Sparse} {m₀ : Materialized}
    {s₁ : Checkout} (h : Writing layout store idOf sparse owned old targetRoot target removals kept
      d₀ prev [] m₀ s₁) :
    Outcome (target.toList.foldlM
        ((restoring layout store fuel idOf sparse owned).writeEntry (some tracked)) m₀) s₁
      (Writing layout store idOf sparse owned old targetRoot target removals kept d₀ prev
        target.toList)
      (fun err s' => ¬ Refusal err ∧ Frame layout.root (RestorePath store sparse old targetRoot)
        (Replaceable store idOf old targetRoot owned) d₀ s'.disk) := by
  refine Outcome.foldlM ?_ h
  rintro done ⟨path, e⟩ rest m s hsplit hw
  have hmem : (path, e) ∈ target.toList := by rw [hsplit]; simp
  have hentry := (BTreeMap.mem_toList_iff _ _ _).mp hmem
  have hin := fun hview => @mem_inView (restoring layout store fuel idOf sparse owned) target path
    e hentry hview
  have hplain₀ := fun hview => hu.plain hd hroot (hin hview)
  have hplain := fun hview => hw.frame.plain_iff.mpr (hplain₀ hview)
  have hleft := fun hview => @left_false (restoring layout store fuel idOf sparse owned) owned rfl
    tracked s.disk path e.id (hplain hview) hw.frame.root_dir
  obtain ⟨-, htracks⟩ := htarget.sound path e hentry
  have hframe : ∀ d', sparse.matchesPath path = true → Safe path →
      (restoring layout store fuel idOf sparse owned).left s.disk (some tracked) path (names path)
        e.id = false → Edit layout.root path s.disk d' →
      Frame layout.root (RestorePath store sparse old targetRoot)
        (Replaceable store idOf old targetRoot owned) d₀ d' := by
    intro d' hview hsafe hl hedit
    refine hw.frame.edit hedit hsafe (.inr ⟨hview, e, htracks⟩) (hplain₀ hview) (fun c hc => ?_)
    rcases (hleft hview hl).2 c hc with hown | hid | ⟨e', he', hid⟩
    · exact .inl hown
    · exact .inr ⟨e, .inr htracks, hid⟩
    · exact .inr ⟨e', .inl (htracked path e' he'), hid⟩
  refine (writeEntry_outcome hplain hw.frame.root_dir (fun hview hl => (hleft hview hl).1)).mono
    ?_ ?_
  · rintro m' s' ⟨hprev, ⟨hview, rfl, rfl⟩ | ⟨hview, hsafe, hedit, hhandled⟩⟩
    · refine ⟨hw.prev, hw.frame, hw.removed, hw.kept, fun x hx hv => ?_, fun x hx hn => ?_⟩
      · rcases List.mem_append.mp hx with hx | hx
        · exact hw.settled x hx hv
        · rw [List.mem_singleton.mp hx] at hv
          exact absurd hv (Bool.eq_false_iff.mp hview)
      · exact hw.husks x hx (fun hdone => hn (List.mem_append_left _ hdone))
    · obtain ⟨hdisk, hkept, hskipped, hsettled⟩ := hhandled.restored
      have hother : ∀ {p : String}, Safe p → p ≠ path → ∀ c,
          (s'.disk.node (layout.root ++ names p) = some (.file c) ↔
            s.disk.node (layout.root ++ names p) = some (.file c)) := by
        intro p hp hne c
        refine hedit.files _ c (fun he => hne (names_inj hp hsafe ?_))
        exact List.append_cancel_left he
      refine ⟨hprev.trans hw.prev, ?_, fun p hp c hc => ?_, fun p hp => hkept p (hw.kept p hp),
        fun x hx hv => ?_, fun x hx hn hv => ?_⟩
      · rcases hdisk with hl | hsame
        · exact hframe _ hview hsafe hl hedit
        · exact hsame ▸ hw.frame
      · obtain ⟨_, -, hgone, hsafe', -⟩ := hd.removed p hp
        refine hw.removed p hp c ((hother hsafe' ?_ c).mp hc)
        rintro rfl
        have hcontains : target.contains p = true := by
          rw [Std.ExtTreeMap.contains_eq_isSome_getElem?, hentry]
          rfl
        rw [Gone, hcontains, Bool.true_and] at hgone
        exact Bool.eq_false_iff.mp hgone hview
      · rcases List.mem_append.mp hx with hx | hx
        · have hxt : x ∈ target.toList := by rw [hsplit]; simp [hx]
          have hx' := (BTreeMap.mem_toList_iff _ x.1 x.2).mp hxt
          by_cases hne : x.1 = path
          · have he : x.2 = e := by
              rw [hne, hentry] at hx'
              exact (Option.some.inj hx').symm
            rw [hne, he]
            exact hsettled
          · have hxin := @mem_inView (restoring layout store fuel idOf sparse owned) target x.1 x.2
              hx' hv
            exact (hw.settled x hx hv).mono hkept hskipped
              (fun c => (hother (hu.safe _ hxin) hne c).mpr)
        · rw [List.mem_singleton.mp hx]
          exact hsettled
      · have hxrest : x ∈ rest := by
          rw [hsplit] at hx
          rcases List.mem_append.mp hx with hx | hx
          · exact absurd (List.mem_append_left _ hx) hn
          · rcases List.mem_cons.mp hx with rfl | hx
            · exact absurd (by simp) hn
            · exact hx
        have hasc := BTreeMap.toList_ascending target
        rw [hsplit] at hasc
        have hlt := (List.pairwise_cons.mp (List.pairwise_append.mp hasc).2.1).1 x hxrest
        have hxin := @mem_inView (restoring layout store fuel idOf sparse owned) target x.1 x.2
          ((BTreeMap.mem_toList_iff _ x.1 x.2).mp hx) hv
        exact (hw.husks x hx (fun hdone => hn (List.mem_append_left _ hdone)) hv).edit hedit
          (not_below_of_lt hsafe (hu.safe _ hxin) hlt)
  · rintro err s' ⟨hstate, href⟩
    refine ⟨fun hr => ?_, ?_⟩
    · obtain ⟨hview, -, hhusk⟩ := href hr
      refine hhusk (hw.husks (path, e) hmem (fun hdone => ?_) hview)
      have hasc := BTreeMap.toList_ascending target
      rw [hsplit] at hasc
      have hlt := (List.pairwise_append.mp hasc).2.2 _ hdone (path, e) (by simp)
      simp at hlt
    · rcases hstate with rfl | ⟨hview, hsafe, hl, hedit⟩
      · exact hw.frame
      · exact hframe _ hview hsafe hl hedit

/-! ## The whole restore -/

theorem oldFiles_flattens {env : Laying} {oldView prev : Option Sparse} {files : FileMap}
    (h : env.oldFiles oldView prev old = .ok files) :
    Flattens env.store old (env.walkBound oldView prev).1 files := by
  unfold Laying.oldFiles at h
  dsimp only at h
  split at h
  · exact treeFileEntriesPresent_flattens h
  · exact treeFileEntriesWithPermsSparse_flattens h

/-- The removal walk covers the view. -/
theorem walkBound_covers {env : Laying} {prev : Option Sparse} {p : String}
    (h : env.sparse.matchesPath p = true) : (env.walkBound none prev).1.matchesPath p = true := by
  unfold Laying.walkBound
  cases env.layout.promisor with
  | none => rfl
  | some promisor =>
    cases prev with
    | none => exact h
    | some q => exact Sparse.matchesPath_union h

theorem lstat_eq_some_iff {d : WorkDisk} {full : Path OsName} {n : Node OsName FileData} :
    lstat layout d full = .ok (some n) ↔ d.lstat layout.root full = .ok n := by
  unfold lstat
  cases d.lstat layout.root full with
  | error e => cases e <;> simp
  | ok n' => simp

/-- An abort's restore keeps the user's work whether it succeeds or fails, reports what it leaves,
and refuses before its first change. -/
theorem restore_keeps_work (layout : Layout) (store : Store) (fuel : Nat)
    (idOf : Object → ObjectId) (targetRoot old : ObjectId) (sparse : Sparse)
    (owned : BTreeSet String) (s : Checkout) (hroot : s.disk.node layout.root = some .dir) :
    Outcome (materializeRestore layout store fuel idOf targetRoot (some old) sparse owned) s
      (fun m s' =>
        WorkKept layout.root (RestorePath store sparse old targetRoot)
          (Replaceable store idOf old targetRoot owned) s.disk s'.disk ∧
        Reported layout store sparse old targetRoot m s.disk s'.disk)
      (fun err s' =>
        WorkKept layout.root (RestorePath store sparse old targetRoot)
          (Replaceable store idOf old targetRoot owned) s.disk s'.disk ∧
        (Refusal err → s'.disk = s.disk)) := by
  have hstay : ∀ s' : Checkout, s'.disk = s.disk →
      WorkKept layout.root (RestorePath store sparse old targetRoot)
        (Replaceable store idOf old targetRoot owned) s.disk s'.disk := by
    intro s' hs
    rw [hs]
    exact (Frame.refl hroot).workKept
  unfold materializeRestore materializeImpl
  refine Outcome.bind (attempt_outcome.mono ?_ ?_)
  swap
  · rintro err s' ⟨rfl, -⟩
    exact ⟨hstay _ rfl, fun _ => rfl⟩
  rintro - s' ⟨rfl, -⟩
  refine Outcome.bind (attempt_outcome.mono ?_ ?_)
  swap
  · rintro err s₁ ⟨rfl, -⟩
    exact ⟨hstay _ rfl, fun _ => rfl⟩
  rintro target s₁ ⟨rfl, htarget⟩
  have htarget := treeFileEntriesWithPermsSparse_flattens htarget
  refine Outcome.bind (Outcome.get ?_)
  -- every file the removal pass deletes is the stop's own
  have hours : ∀ tracked removals kept,
      (restoring layout store fuel idOf sparse owned).oldFiles none s₁.sparsePrev old = .ok tracked →
      Decided (restoring layout store fuel idOf sparse owned) s₁.disk target tracked removals kept →
      ∀ p ∈ removals, Safe p ∧ s₁.disk.Plain layout.root (names p) ∧
        RestorePath store sparse old targetRoot p ∧
        ∃ c, s₁.disk.node (layout.root ++ names p) = some (.file c) ∧
          Replaceable store idOf old targetRoot owned p c := by
    intro tracked removals kept hold hd p hp
    obtain ⟨hsafe, hplain, c, e, hc, he, hwhy⟩ := hd.file hroot hp
    have htracks := ((oldFiles_flattens hold).sound p e he).2
    refine ⟨hsafe, hplain, .inl ⟨e, htracks⟩, c, hc, ?_⟩
    rcases hwhy with ⟨-, hown⟩ | ⟨-, hid | hown⟩
    · exact .inl (Std.ExtTreeSet.mem_iff_contains.mpr hown)
    · exact .inr ⟨e, .inl htracks, hid⟩
    · exact .inl (Std.ExtTreeSet.mem_iff_contains.mpr hown)
  refine Outcome.bind (Outcome.bind ((removalPass_outcome hroot).mono ?_ ?_))
  swap
  · rintro err s₂ (rfl | ⟨href, tracked, removals, kept, done, hold, hd, hdone, hrem⟩)
    · exact ⟨hstay _ rfl, fun _ => rfl⟩
    · refine ⟨(Frame.of_removed hroot (fun p hp => ?_) hrem).workKept, fun h => absurd h href⟩
      exact hours tracked removals kept hold hd p (hdone p hp)
  rintro ⟨tracked, kept⟩ s₂ ⟨hprev, hold, removals, hd, hu, hrem⟩
  have hflat := oldFiles_flattens hold
  have hstart : Writing layout store idOf sparse owned old targetRoot target removals kept s₁.disk
      s₂.sparsePrev [] ⟨[], kept, []⟩ s₂ := by
    refine ⟨rfl, Frame.of_removed hroot (hours tracked removals kept hold hd) hrem,
      fun p hp c hc => ?_, fun p hp => hp, by simp, fun x hx _ hv => ?_⟩
    · have hnone : s₂.disk.node (layout.root ++ names p) = none := (hrem _).1 ⟨p, hp, rfl⟩
      rw [hnone] at hc
      cases hc
    · exact hu.husk hd hroot (mem_inView ((BTreeMap.mem_toList_iff _ x.1 x.2).mp hx) hv) hrem
  refine Outcome.pure ?_
  refine Outcome.bind ((writes_outcome htarget
    (fun p e he => (hflat.sound p e he).2) hd hu hroot hstart).mono ?_ ?_)
  swap
  · rintro err s₃ ⟨href, hframe⟩
    exact ⟨hframe.workKept, fun h => absurd h href⟩
  intro m s₃ hw
  have hreport : Reported layout store sparse old targetRoot
      { m with kept := m.kept.mergeSort (fun a b => a ≤ b) } s₁.disk s₃.disk := by
    refine ⟨fun p hv ⟨e, he⟩ hno n hn hn' => ?_, fun p hv ⟨e, he⟩ => ?_⟩
    · obtain ⟨e', he'⟩ := hflat.complete p e he (walkBound_covers hv)
      have hgone : Gone (restoring layout store fuel idOf sparse owned) target p := by
        have hnone : target[p]? = none := by
          by_contra hne
          obtain ⟨e'', he''⟩ := Option.ne_none_iff_exists'.mp hne
          exact hno e'' (htarget.sound p e'' he'').2
        rw [Gone, Std.ExtTreeMap.contains_eq_isSome_getElem?, hnone]
        rfl
      obtain ⟨-, hnone | hp | hkept⟩ := hd.kept p e' he' hgone
      · rw [show lstat layout s₁.disk (names p) = .ok none from hnone] at hn
        cases hn
      · obtain ⟨-, hplain, c, -, hc, -⟩ := hd.file hroot hp
        have hn := (Disk.lstat_eq_ok_iff hplain hroot).mp (lstat_eq_some_iff.mp hn)
        have hn' := (Disk.lstat_eq_ok_iff (hw.frame.plain_iff.mpr hplain) hw.frame.root_dir).mp
          (lstat_eq_some_iff.mp hn')
        have hcn : n = .file c := Option.some.inj (hn.symm.trans hc)
        exact absurd (hcn ▸ hn') (hw.removed p hp c)
      · exact List.mem_mergeSort.mpr (hw.kept p (hkept hv))
    · obtain ⟨e', he'⟩ := htarget.complete p e he hv
      have htracks := (htarget.sound p e' he').2
      rcases hw.settled (p, e') ((BTreeMap.mem_toList_iff _ _ _).mpr he') hv with
        hk | hk | hfile | hkind
      · exact .inl (List.mem_mergeSort.mpr hk)
      · exact .inr (.inl hk)
      · exact .inr (.inr ⟨e', htracks, .inl hfile⟩)
      · exact .inr (.inr ⟨e', htracks, .inr hkind⟩)
  refine Outcome.bind ?_
  unfold clearPrev
  split
  · exact Outcome.modify (Outcome.pure ⟨hw.frame.workKept, hreport⟩)
  · exact Outcome.pure (Outcome.pure ⟨hw.frame.workKept, hreport⟩)

end Restore

/-! ## A stop with one file -/

def emptyDisk : WorkDisk := ⟨[], fun _ _ h => absurd (by simp [find]) h⟩

def fileX : OsName := .text "x" (by decide)

def oneFile (c : FileData) : WorkDisk := emptyDisk.put [fileX] (.file c) rfl (fun _ => nofun)

/-- A stopped tree with the file `x`, and a tip whose entry `x` names a tree. -/
def stoppedStore : Store := testStore [(1, .tree ⟨[⟨"x", .blob, testId 3, .FILE, 0⟩]⟩),
  (2, .tree ⟨[⟨"x", .blob, testId 4, .FILE, 0⟩]⟩), (3, .tree ⟨[]⟩), (4, .blob [7])]

theorem restore_keeps_work_one_file :
    Outcome (materializeRestore ⟨[], none⟩ stoppedStore 5 (fun _ => testId 4) (testId 1)
        (some (testId 2)) [] ∅) ⟨oneFile ⟨[8], .FILE⟩, none⟩
      (fun m s' =>
        WorkKept [] (RestorePath stoppedStore [] (testId 2) (testId 1))
          (Replaceable stoppedStore (fun _ => testId 4) (testId 2) (testId 1) ∅)
          (oneFile ⟨[8], .FILE⟩) s'.disk ∧
        Reported ⟨[], none⟩ stoppedStore [] (testId 2) (testId 1) m (oneFile ⟨[8], .FILE⟩) s'.disk)
      (fun err s' =>
        WorkKept [] (RestorePath stoppedStore [] (testId 2) (testId 1))
          (Replaceable stoppedStore (fun _ => testId 4) (testId 2) (testId 1) ∅)
          (oneFile ⟨[8], .FILE⟩) s'.disk ∧
        (Refusal err → s'.disk = oneFile ⟨[8], .FILE⟩)) :=
  restore_keeps_work ⟨[], none⟩ stoppedStore 5 (fun _ => testId 4) (testId 1) (testId 2) [] ∅
    ⟨oneFile ⟨[8], .FILE⟩, none⟩ rfl

/-- A path whose entry names a tree is left as the stop has it, without a report. -/
theorem restore_passes_over :
    ¬ ∀ (layout : Layout) (store : Store) (fuel : Nat) (idOf : Object → ObjectId)
      (targetRoot old : ObjectId) (sparse : Sparse) (owned : BTreeSet String) (s : Checkout),
      s.disk.node layout.root = some .dir →
      Outcome (materializeRestore layout store fuel idOf targetRoot (some old) sparse owned) s
        (fun m s' => ∀ p, sparse.matchesPath p = true → (∃ e, Tracked store targetRoot p e) →
          p ∈ m.kept ∨ p ∈ m.skipped ∨ ∃ e bytes, Tracked store targetRoot p e ∧
            store.get e.id = .ok (.blob bytes) ∧
            s'.disk.node (layout.root ++ names p) = some (.file ⟨bytes, e.mode⟩))
        (fun _ _ => True) := by
  intro h
  have hspec := h ⟨[], none⟩ stoppedStore 5 (fun _ => testId 4) (testId 1) (testId 2) [] ∅
    ⟨oneFile ⟨[7], .FILE⟩, none⟩ rfl
  have hrun : (match materializeRestore ⟨[], none⟩ stoppedStore 5 (fun _ => testId 4) (testId 1)
      (some (testId 2)) [] ∅ ⟨oneFile ⟨[7], .FILE⟩, none⟩ with
    | .ok m s' => m.kept = [] && m.skipped = [] &&
        s'.disk.node [fileX] = some (.file ⟨[7], .FILE⟩)
    | .error _ _ => false) = true := by decide +kernel
  have hget : stoppedStore.getTree (testId 1) = .ok ⟨[⟨"x", .blob, testId 3, .FILE, 0⟩]⟩ := by
    decide +kernel
  unfold Outcome at hspec
  split at hspec
  · next m s' hm =>
    rw [hm] at hrun
    simp only [Bool.and_eq_true, decide_eq_true_eq] at hrun
    obtain ⟨⟨hkept, hskipped⟩, -⟩ := hrun
    have htracked : Tracked stoppedStore (testId 1) "x" ⟨testId 3, .FILE, 0⟩ :=
      ⟨["x"], @Leaf.blob _ _ _ ⟨"x", .blob, testId 3, .FILE, 0⟩ hget (by simp) rfl, rfl⟩
    rcases hspec "x" rfl ⟨_, htracked⟩ with hk | hk | ⟨e, bytes, ⟨cs, hleaf, -⟩, hbytes, -⟩
    · rw [hkept] at hk
      cases hk
    · rw [hskipped] at hk
      cases hk
    · obtain ⟨entry, hentry, ds, -, ⟨-, -, rfl⟩ | ⟨hkind, -⟩⟩ := (leaf_iff hget).mp hleaf
      · rw [List.mem_singleton.mp hentry] at hbytes
        have htree : stoppedStore.get (testId 3) = .ok (.tree ⟨[]⟩) := by decide +kernel
        cases htree.symm.trans hbytes
      · rw [List.mem_singleton.mp hentry] at hkind
        cases hkind
  · next err s' hm =>
    rw [hm] at hrun
    cases hrun

end Worktree

end SrcControl
