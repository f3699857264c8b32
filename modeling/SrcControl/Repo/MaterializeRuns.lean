import SrcControl.Repo.WorkEdits

/-!
# Runs of `materialize_impl`

What each pass does to the disk: the removal pass decides everything before it deletes,
and the write pass handles one target path a step, by an edit at that path.
-/

namespace SrcControl

open SlashPath FileTree TreeEntries Fallible

namespace Worktree

/-- The error of a refusal: something of the user's is in the way. -/
def Refusal (e : Error) : Prop := ∃ msg, e = .invalidArgument msg

theorem not_refusal_io : ¬ Refusal (.core .io) := by
  rintro ⟨msg, h⟩
  cases h

theorem attempt_outcome {α : Type} {x : Except Error α} {s : Checkout} :
    Outcome (attempt x) s (fun a s' => s' = s ∧ x = .ok a) (fun e s' => s' = s ∧ x = .error e) := by
  unfold Outcome attempt
  cases x with
  | ok a => exact ⟨rfl, rfl⟩
  | error e => exact ⟨rfl, rfl⟩

theorem Edit.no_link {root : Path OsName} {p : String} {d d' : WorkDisk} (h : Edit root p d d')
    {q : Path OsName} (hq : ∀ l, d.node q ≠ some (.symlink l)) :
    ∀ l, d'.node q ≠ some (.symlink l) :=
  fun l hl => hq l ((h.links q l).mp hl)

section WriteEntry

variable {env : Laying} {path : String} {s : Checkout}

theorem clear_outcome {hasOld : Bool} (hp : s.disk.Plain env.layout.root (names path))
    (hsafe : Safe path) (hroot : s.disk.node env.layout.root = some .dir) :
    Outcome (env.clear hasOld (names path) path) s
      (fun _ s' => Edit env.layout.root path s.disk s'.disk ∧ s'.sparsePrev = s.sparsePrev ∧
        (hasOld = true → s'.disk.node (env.layout.root ++ names path) ≠ some .dir))
      (fun err s' => s' = s ∧ err = dirInTheWay path ∧ hasOld = true ∧
        ¬ Husk env.layout.root path s.disk) := by
  unfold Laying.clear
  cases hasOld with
  | false => exact Outcome.pure ⟨.refl _ _ _, rfl, nofun⟩
  | true =>
    refine (clearDirObstruction_outcome hp hsafe hroot).mono ?_ ?_
    · rintro - s' ⟨hedit, hprev, hdir⟩
      exact ⟨hedit, hprev, fun _ => hdir⟩
    · rintro err s' ⟨hs, herr, hhusk⟩
      exact ⟨hs, herr, rfl, hhusk⟩

theorem layBytes_outcome {hasOld : Bool} {bytes : Bytes} {mode : FileMode}
    (hp : s.disk.Plain env.layout.root (names path)) (hsafe : Safe path)
    (hroot : s.disk.node env.layout.root = some .dir)
    (hlink : ∀ l, s.disk.node (env.layout.root ++ names path) ≠ some (.symlink l)) :
    Outcome (env.layBytes hasOld (names path) path bytes mode) s
      (fun _ s' => Edit env.layout.root path s.disk s'.disk ∧ s'.sparsePrev = s.sparsePrev ∧
        s'.disk.node (env.layout.root ++ names path) = some (.file ⟨bytes, mode⟩))
      (fun err s' => Edit env.layout.root path s.disk s'.disk ∧
        (Refusal err → hasOld = true ∧ ¬ Husk env.layout.root path s.disk)) := by
  refine Outcome.bind ((clear_outcome hp hsafe hroot).mono ?_ ?_)
  swap
  · rintro err s' ⟨rfl, -, hold, hhusk⟩
    exact ⟨.refl _ _ _, fun _ => ⟨hold, hhusk⟩⟩
  rintro - s₁ ⟨hedit, hprev, -⟩
  refine Outcome.bind ((createDirAll_outcome (hedit.plain hp) hsafe
    (hedit.root_dir hsafe hroot)).mono ?_ ?_)
  swap
  · rintro err s₂ ⟨hedit₂, rfl⟩
    exact ⟨hedit.trans hedit₂, fun h => absurd h not_refusal_io⟩
  rintro - s₂ ⟨hedit₂, hprev₂, -, -⟩
  have hedit' := hedit.trans hedit₂
  refine (writeFile_outcome (hedit'.plain hp) (hedit'.root_dir hsafe hroot)
    (hedit'.no_link hlink)).mono ?_ ?_
  · rintro - s₃ ⟨hedit₃, hprev₃, hfile⟩
    exact ⟨hedit'.trans hedit₃, hprev₃.trans (hprev₂.trans hprev), hfile⟩
  · rintro err s₃ ⟨rfl, rfl⟩
    exact ⟨hedit', fun h => absurd h not_refusal_io⟩

/-- What one step of the write pass did with an in-view target entry. -/
inductive Handled (env : Laying) (replaced : Option FileMap) (path : String) (e : FileEntry)
    (m : Materialized) (d : WorkDisk) : Materialized → WorkDisk → Prop
  | left (hleft : env.left d replaced path (names path) e.id = true) :
      Handled env replaced path e m d { m with kept := m.kept ++ [path] } d
  | laid {bytes : Bytes} {d' : WorkDisk}
      (hleft : env.left d replaced path (names path) e.id = false)
      (hget : env.store.get e.id = .ok (.blob bytes)) (hperms : e.perms &&& PROTECTED = 0)
      (hfile : d'.node (env.layout.root ++ names path) = some (.file ⟨bytes, e.mode⟩)) :
      Handled env replaced path e m d m d'
  | opened {bytes plain : Bytes} {m' : Materialized} {d' : WorkDisk}
      (hleft : env.left d replaced path (names path) e.id = false)
      (hget : env.store.get e.id = .ok (.blob bytes)) (hperms : e.perms &&& PROTECTED ≠ 0)
      (hopen : env.decryptProtected bytes e.id = some plain)
      (hkept : m'.kept = m.kept) (hskipped : m'.skipped = m.skipped)
      (hfile : d'.node (env.layout.root ++ names path) = some (.file ⟨plain, e.mode⟩)) :
      Handled env replaced path e m d m' d'
  | skipped {bytes : Bytes} {d' : WorkDisk}
      (hleft : env.left d replaced path (names path) e.id = false)
      (hget : env.store.get e.id = .ok (.blob bytes)) (hperms : e.perms &&& PROTECTED ≠ 0)
      (hopen : env.decryptProtected bytes e.id = none)
      (hnone : d'.node (env.layout.root ++ names path) = none) :
      Handled env replaced path e m d { m with skipped := m.skipped ++ [path] } d'
  | passed {o : Object} (hleft : env.left d replaced path (names path) e.id = false)
      (hget : env.store.get e.id = .ok o) (hkind : ∀ bytes, o ≠ .blob bytes) :
      Handled env replaced path e m d m d

theorem writeEntry_outcome {replaced : Option FileMap} {m : Materialized} {e : FileEntry}
    (hp : env.sparse.matchesPath path = true → s.disk.Plain env.layout.root (names path))
    (hroot : s.disk.node env.layout.root = some .dir)
    (hlink : env.sparse.matchesPath path = true →
      env.left s.disk replaced path (names path) e.id = false → ∀ l, s.disk.node (env.layout.root ++ names path) ≠ some (.symlink l)) :
    Outcome (env.writeEntry replaced m (path, e)) s
      (fun m' s' => s'.sparsePrev = s.sparsePrev ∧
        ((env.sparse.matchesPath path = false ∧ m' = m ∧ s' = s) ∨
          (env.sparse.matchesPath path = true ∧ Safe path ∧
            Edit env.layout.root path s.disk s'.disk ∧
            Handled env replaced path e m s.disk m' s'.disk)))
      (fun err s' => (s' = s ∨ (env.sparse.matchesPath path = true ∧ Safe path ∧
          env.left s.disk replaced path (names path) e.id = false ∧
          Edit env.layout.root path s.disk s'.disk)) ∧
        (Refusal err → env.sparse.matchesPath path = true ∧ replaced.isSome = true ∧
          ¬ Husk env.layout.root path s.disk)) := by
  unfold Laying.writeEntry
  dsimp only
  by_cases hview : env.sparse.matchesPath path = true
  swap
  · rw [if_pos (by simp [hview])]
    exact Outcome.pure ⟨rfl, .inl ⟨Bool.eq_false_iff.mpr hview, rfl, rfl⟩⟩
  rw [if_neg (by simp [hview])]
  refine Outcome.bind (attempt_outcome.mono ?_ ?_)
  swap
  · rintro err s' ⟨rfl, herr⟩
    refine ⟨.inl rfl, ?_⟩
    rintro ⟨msg, rfl⟩
    unfold safeJoin at herr
    split at herr <;> cases herr
  rintro full s' ⟨rfl, hjoin⟩
  obtain ⟨hsafe, rfl⟩ := safeJoin_eq_ok_iff.mp hjoin
  refine Outcome.bind (Outcome.get ?_)
  by_cases hleft : env.left s'.disk replaced path (names path) e.id = true
  · rw [if_pos hleft]
    exact Outcome.pure ⟨rfl, .inr ⟨hview, hsafe, .refl _ _ _, .left hleft⟩⟩
  rw [if_neg hleft]
  rw [Bool.not_eq_true] at hleft
  have hlink' := hlink hview hleft
  have hp' := hp hview
  refine Outcome.bind (attempt_outcome.mono ?_ ?_)
  swap
  · rintro err s₁ ⟨rfl, herr⟩
    refine ⟨.inl rfl, ?_⟩
    rintro ⟨msg, rfl⟩
    unfold Store.get at herr
    split at herr <;> cases herr
  rintro o s₁ ⟨rfl, hget⟩
  have hfail : ∀ (err : Error) (s₂ : Checkout),
      Edit env.layout.root path s₁.disk s₂.disk ∧
        (Refusal err → replaced.isSome = true ∧ ¬ Husk env.layout.root path s₁.disk) →
      (s₂ = s₁ ∨ (env.sparse.matchesPath path = true ∧ Safe path ∧
        env.left s₁.disk replaced path (names path) e.id = false ∧
        Edit env.layout.root path s₁.disk s₂.disk)) ∧
      (Refusal err → env.sparse.matchesPath path = true ∧ replaced.isSome = true ∧
        ¬ Husk env.layout.root path s₁.disk) := by
    rintro err s₂ ⟨hedit, href⟩
    exact ⟨.inr ⟨hview, hsafe, hleft, hedit⟩, fun h => ⟨hview, href h⟩⟩
  cases o with
  | blob bytes =>
    simp only
    by_cases hperms : e.perms &&& PROTECTED = 0
    · rw [if_neg (not_not.mpr hperms)]
      refine Outcome.bind ((layBytes_outcome hp' hsafe hroot hlink').mono ?_ hfail)
      rintro - s₂ ⟨hedit, hprev, hfile⟩
      exact Outcome.pure ⟨hprev, .inr ⟨hview, hsafe, hedit, .laid hleft hget hperms hfile⟩⟩
    · rw [if_pos hperms]
      cases hopen : env.decryptProtected bytes e.id with
      | some plain =>
        refine Outcome.bind ((layBytes_outcome hp' hsafe hroot hlink').mono ?_ hfail)
        rintro - s₂ ⟨hedit, hprev, hfile⟩
        split
        · exact Outcome.pure ⟨hprev, .inr ⟨hview, hsafe, hedit,
            .opened hleft hget hperms hopen rfl rfl hfile⟩⟩
        · exact Outcome.pure ⟨hprev, .inr ⟨hview, hsafe, hedit,
            .opened hleft hget hperms hopen rfl rfl hfile⟩⟩
      | none =>
        refine Outcome.bind ((clear_outcome hp' hsafe hroot).mono ?_ ?_)
        swap
        · rintro err s₂ ⟨rfl, -, hold, hhusk⟩
          exact ⟨.inl rfl, fun _ => ⟨hview, hold, hhusk⟩⟩
        rintro - s₂ ⟨hedit, hprev, -⟩
        refine Outcome.bind ((removeFile_outcome (hedit.plain hp')
          (hedit.root_dir hsafe hroot) (hedit.no_link hlink')).mono ?_ ?_)
        · rintro - s₃ ⟨hedit₃, hprev₃, hnone⟩
          exact Outcome.pure ⟨hprev₃.trans hprev, .inr ⟨hview, hsafe, hedit.trans hedit₃,
            .skipped hleft hget hperms hopen hnone⟩⟩
        · rintro err s₃ ⟨rfl, rfl⟩
          exact ⟨.inr ⟨hview, hsafe, hleft, hedit⟩, fun h => absurd h not_refusal_io⟩
  | _ => exact Outcome.pure ⟨rfl, .inr ⟨hview, hsafe, .refl _ _ _, .passed hleft hget nofun⟩⟩

end WriteEntry

/-! ## The removal pass -/

/-- `p` is no in-view target path. -/
def Gone (env : Laying) (target : FileMap) (p : String) : Prop :=
  (target.contains p && env.sparse.matchesPath p) = false

/-- What was decided before the first removal. -/
structure Decided (env : Laying) (disk : WorkDisk) (target tracked : FileMap)
    (removals kept : List String) : Prop where
  removed : ∀ p ∈ removals, ∃ e, tracked[p]? = some e ∧ Gone env target p ∧ Safe p ∧
    env.ours disk p (names p) e = true
  kept : ∀ p e, tracked[p]? = some e → Gone env target p → Safe p ∧
    (lstat env.layout disk (names p) = .ok none ∨ p ∈ removals ∨
      (env.sparse.matchesPath p = true → p ∈ kept))

section Removal

variable {env : Laying} {target tracked : FileMap} {removals kept : List String}

theorem decided_of_fold {disk : WorkDisk}
    (h : tracked.toList.foldlM (env.decideRemoval disk target) ([], []) = .ok (removals, kept)) :
    Decided env disk target tracked removals kept := by
  have hinv := Fallible.foldlM_ok_done (I := fun done (acc : List String × List String) =>
    (∀ p ∈ acc.1, ∃ e, (p, e) ∈ done ∧ Gone env target p ∧ Safe p ∧
      env.ours disk p (names p) e = true) ∧
    (∀ p e, (p, e) ∈ done → Gone env target p → Safe p ∧
      (lstat env.layout disk (names p) = .ok none ∨ p ∈ acc.1 ∨
        (env.sparse.matchesPath p = true → p ∈ acc.2)))) ?_ ⟨by simp, by simp⟩ h
  · refine ⟨fun p hp => ?_, fun p e he hg => ?_⟩
    · obtain ⟨e, he, hrest⟩ := hinv.1 p hp
      exact ⟨e, (BTreeMap.mem_toList_iff _ _ _).mp he, hrest⟩
    · exact hinv.2 p e ((BTreeMap.mem_toList_iff _ _ _).mpr he) hg
  · rintro done acc ⟨p, e⟩ acc' ⟨hsound, hcomplete⟩ hstep
    -- the earlier facts survive whatever is appended
    have hold : (∀ q ∈ acc.1, q ∈ acc'.1) → (∀ q ∈ acc.2, q ∈ acc'.2) →
        (∀ q ∈ acc'.1, q ∈ acc.1 ∨ (q = p ∧ Gone env target p ∧ Safe p ∧
          env.ours disk p (names p) e = true)) →
        (Gone env target p → Safe p ∧ (lstat env.layout disk (names p) = .ok none ∨ p ∈ acc'.1 ∨
          (env.sparse.matchesPath p = true → p ∈ acc'.2))) →
        (∀ q ∈ acc'.1, ∃ e', (q, e') ∈ done ++ [(p, e)] ∧ Gone env target q ∧ Safe q ∧
          env.ours disk q (names q) e' = true) ∧
        (∀ q e', (q, e') ∈ done ++ [(p, e)] → Gone env target q → Safe q ∧
          (lstat env.layout disk (names q) = .ok none ∨ q ∈ acc'.1 ∨
            (env.sparse.matchesPath q = true → q ∈ acc'.2))) := by
      intro h₁ h₂ hnew hp
      refine ⟨fun q hq => ?_, fun q e' hq hg => ?_⟩
      · rcases hnew q hq with hq | ⟨rfl, hrest⟩
        · obtain ⟨e', he', hrest⟩ := hsound q hq
          exact ⟨e', List.mem_append_left _ he', hrest⟩
        · exact ⟨e, by simp, hrest⟩
      · rcases List.mem_append.mp hq with hq | hq
        · obtain ⟨hs, hnone | hr | hk⟩ := hcomplete q e' hq hg
          · exact ⟨hs, .inl hnone⟩
          · exact ⟨hs, .inr (.inl (h₁ q hr))⟩
          · exact ⟨hs, .inr (.inr (fun hv => h₂ q (hk hv)))⟩
        · cases List.mem_singleton.mp hq
          exact hp hg
    unfold Laying.decideRemoval at hstep
    dsimp only at hstep
    split at hstep
    · next hpresent =>
      cases hstep
      refine hold (fun _ h => h) (fun _ h => h) (fun q hq => .inl hq) (fun hg => ?_)
      rw [Gone, hpresent] at hg
      cases hg
    · next habsent =>
      have hg : Gone env target p := Bool.eq_false_iff.mpr habsent
      obtain ⟨full, hjoin, hstep⟩ := bind_ok hstep
      obtain ⟨hsafe, rfl⟩ := safeJoin_eq_ok_iff.mp hjoin
      obtain ⟨found, hfound, hstep⟩ := bind_ok hstep
      cases found with
      | none =>
        cases hstep
        exact hold (fun _ h => h) (fun _ h => h) (fun q hq => .inl hq)
          (fun _ => ⟨hsafe, .inl hfound⟩)
      | some n =>
        dsimp only at hstep
        split at hstep
        · next hours =>
          cases hstep
          refine hold (fun q h => List.mem_append_left _ h) (fun _ h => h) (fun q hq => ?_)
            (fun _ => ⟨hsafe, .inr (.inl (by simp))⟩)
          rcases List.mem_append.mp hq with hq | hq
          · exact .inl hq
          · exact .inr ⟨List.mem_singleton.mp hq, hg, hsafe, hours⟩
        · split at hstep
          · cases hstep
            exact hold (fun _ h => h) (fun q h => List.mem_append_left _ h) (fun q hq => .inl hq)
              (fun _ => ⟨hsafe, .inr (.inr (fun _ => by simp))⟩)
          · next hview =>
            cases hstep
            exact hold (fun _ h => h) (fun _ h => h) (fun q hq => .inl hq)
              (fun _ => ⟨hsafe, .inr (.inr (fun hv => absurd hv hview))⟩)

/-- Exactly the files at `removals` went. -/
def Removed (root : Path OsName) (removals : List String) (d d' : WorkDisk) : Prop :=
  ∀ q, ((∃ p ∈ removals, q = root ++ names p) → d'.node q = none) ∧
    ((∀ p ∈ removals, q ≠ root ++ names p) → d'.node q = d.node q)

theorem Removed.node_eq {root : Path OsName} {d d' : WorkDisk} (h : Removed root removals d d')
    {q : Path OsName} (hq : d'.node q ≠ none) : d'.node q = d.node q :=
  (h q).2 (fun p hp he => hq ((h q).1 ⟨p, hp, he⟩))

theorem Removed.of_none {root : Path OsName} {d d' : WorkDisk} (h : Removed root removals d d')
    {q : Path OsName} (hq : d.node q = none) : d'.node q = none := by
  by_contra hne
  exact hne ((h.node_eq hne).trans hq)

/-- A file the pass may delete is a regular file with no link on the way, of the tree's bytes
unless it is protected or the stop owns it. -/
theorem ours_iff {disk : WorkDisk} {p : String} {full : Path OsName} {e : FileEntry} :
    env.ours disk p full e = true ↔ underSymlink env.layout disk p = false ∧
      ∃ c, disk.lstat env.layout.root full = .ok (.file c) ∧
        ((e.perms &&& PROTECTED ≠ 0 ∧ env.owned.all (fun owned => owned.contains p) = true) ∨
          (e.perms &&& PROTECTED = 0 ∧ (env.idOf (.blob c.bytes) = e.id ∨
            env.owned.any (fun owned => owned.contains p) = true))) := by
  have hfile : standsAs env.layout disk full Node.isFile = true ↔
      ∃ c, disk.lstat env.layout.root full = .ok (.file c) := by
    unfold standsAs
    cases disk.lstat env.layout.root full with
    | error e => simp [Except.toOption]
    | ok n => cases n <;> simp [Except.toOption, Node.isFile]
  have hblob : diskIsBlob env.layout disk env.idOf full e.id = true ↔
      ∃ c, disk.lstat env.layout.root full = .ok (.file c) ∧ env.idOf (.blob c.bytes) = e.id := by
    unfold diskIsBlob diskBlobId
    cases disk.lstat env.layout.root full with
    | error e => simp
    | ok n => cases n <;> simp
  unfold Laying.ours
  rw [Bool.and_eq_true, Bool.not_eq_true']
  refine and_congr_right (fun _ => ?_)
  by_cases hperms : e.perms &&& PROTECTED = 0
  · rw [if_neg (not_not.mpr hperms), Bool.or_eq_true, Bool.and_eq_true, hblob, hfile]
    constructor
    · rintro (⟨c, hc, hid⟩ | ⟨hown, c, hc⟩)
      · exact ⟨c, hc, .inr ⟨hperms, .inl hid⟩⟩
      · exact ⟨c, hc, .inr ⟨hperms, .inr hown⟩⟩
    · rintro ⟨c, hc, ⟨hne, -⟩ | ⟨-, hid | hown⟩⟩
      · exact absurd hperms hne
      · exact .inl ⟨c, hc, hid⟩
      · exact .inr ⟨hown, c, hc⟩
  · rw [if_pos hperms, Bool.and_eq_true, hfile]
    constructor
    · rintro ⟨⟨c, hc⟩, hown⟩
      exact ⟨c, hc, .inl ⟨hperms, hown⟩⟩
    · rintro ⟨c, hc, ⟨-, hown⟩ | ⟨h, -⟩⟩
      · exact ⟨⟨c, hc⟩, hown⟩
      · exact absurd h hperms

/-- The refusals passed: what stands at and above an in-view target path makes way. -/
structure Unobstructed (env : Laying) (disk : WorkDisk) (target : FileMap)
    (removals : List String) : Prop where
  safe : ∀ path ∈ env.inView target, Safe path
  clearable : ∀ path ∈ env.inView target, standsAs env.layout disk (names path) Node.isDir = true →
    dirClearable env.layout disk (names path) path (fun c => removals.contains c) = true
  parents : ∀ path ∈ env.inView target, ∀ parent ∈ ancestors path,
    standsAs env.layout disk (names parent) (fun m => !m.isDir) = true → parent ∈ removals

theorem unobstructed_of_ok {disk : WorkDisk}
    (h : env.refuseObstructions disk target removals = .ok ()) :
    Unobstructed env disk target removals := by
  obtain ⟨u, hdirs, hparents⟩ := bind_ok h
  have hdirs := Fallible.forM_ok_iff.mp hdirs
  have hparents := Fallible.forM_ok_iff.mp hparents
  refine ⟨fun path hpath => ?_, fun path hpath hdir => ?_, fun path hpath parent hparent hno => ?_⟩
  · obtain ⟨full, hjoin, -⟩ := bind_ok (hdirs path hpath)
    exact (safeJoin_eq_ok_iff.mp hjoin).1
  · obtain ⟨full, hjoin, hok⟩ := bind_ok (hdirs path hpath)
    obtain ⟨-, rfl⟩ := safeJoin_eq_ok_iff.mp hjoin
    by_contra hclear
    rw [Bool.not_eq_true] at hclear
    rw [if_pos (by rw [hdir, hclear]; rfl)] at hok
    cases hok
  · have hok := Fallible.forM_ok_iff.mp (hparents path hpath) parent hparent
    by_contra hrem
    simp [hno, hrem] at hok

variable {disk : WorkDisk}

theorem Decided.file (h : Decided env disk target tracked removals kept)
    (hroot : disk.node env.layout.root = some .dir) {p : String} (hp : p ∈ removals) :
    Safe p ∧ disk.Plain env.layout.root (names p) ∧
      ∃ c e, disk.node (env.layout.root ++ names p) = some (.file c) ∧ tracked[p]? = some e ∧
        ((e.perms &&& PROTECTED ≠ 0 ∧ env.owned.all (fun owned => owned.contains p) = true) ∨
          (e.perms &&& PROTECTED = 0 ∧ (env.idOf (.blob c.bytes) = e.id ∨
            env.owned.any (fun owned => owned.contains p) = true))) := by
  obtain ⟨e, he, -, hsafe, hours⟩ := h.removed p hp
  obtain ⟨hunder, c, hc, hwhy⟩ := ours_iff.mp hours
  have hplain := plain_of_underSymlink hroot hsafe hunder
  exact ⟨hsafe, hplain, c, e, (Disk.lstat_eq_ok_iff hplain hroot).mp hc, he, hwhy⟩

/-- Past the refusals, no in-view target path lies through a link. -/
theorem Unobstructed.plain (h : Unobstructed env disk target removals)
    (hd : Decided env disk target tracked removals kept)
    (hroot : disk.node env.layout.root = some .dir) {path : String}
    (hpath : path ∈ env.inView target) : disk.Plain env.layout.root (names path) := by
  refine plain_of_ancestors hroot (h.safe path hpath) (fun parent hparent => ?_)
  rw [← Bool.not_eq_true]
  intro hlink
  have hnot : standsAs env.layout disk (names parent) (fun m => !m.isDir) = true := by
    unfold standsAs at hlink ⊢
    cases hl : disk.lstat env.layout.root (names parent) with
    | error e =>
      rw [hl] at hlink
      cases hlink
    | ok n =>
      rw [hl] at hlink
      cases n with
      | symlink l => rfl
      | _ => cases hlink
  obtain ⟨-, hplain, c, -, hc, -⟩ := hd.file hroot (h.parents path hpath parent hparent hnot)
  obtain ⟨n, hn, hsym⟩ := (standsAs_iff hplain hroot).mp hlink
  rw [hc] at hn
  cases hn
  cases hsym

/-- After the removals only a husk is left below an in-view target path. -/
theorem Unobstructed.husk (h : Unobstructed env disk target removals)
    (hd : Decided env disk target tracked removals kept)
    (hroot : disk.node env.layout.root = some .dir) {path : String}
    (hpath : path ∈ env.inView target) {d' : WorkDisk}
    (hrem : Removed env.layout.root removals disk d') : Husk env.layout.root path d' := by
  have hplain := h.plain hd hroot hpath
  intro t ht hn
  have hsame := hrem.node_eq hn
  rw [hsame] at hn ⊢
  have hdir : disk.node (env.layout.root ++ names path) = some .dir := Disk.dir_above hn ht
  have hclear := h.clearable path hpath ((standsAs_iff hplain hroot).mpr ⟨_, hdir, rfl⟩)
  obtain ⟨children, hchildren, hnode⟩ := (dirClearable_iff hplain hroot hdir).mp hclear t ht hn
  refine ⟨?_, mapM_toStr_iff.mp ⟨children, hchildren⟩⟩
  · rcases hnode with hd | ⟨-, hc⟩
    · exact hd
    · have hgone := (hrem (env.layout.root ++ names path ++ t)).1
        ⟨childPath path children, by simpa using hc, by rw [names_childPath hchildren,
          List.append_assoc]⟩
      rw [hgone] at hsame
      exact absurd hsame.symm hn

theorem Removed.plain {root : Path OsName} {d d' : WorkDisk} (h : Removed root removals d d')
    {r : Path OsName} (hp : d.Plain root r) : d'.Plain root r := by
  intro a b hab hb l hl
  refine hp a b hab hb l ?_
  rw [← h.node_eq (by rw [hl]; simp), hl]

theorem Removed.root_dir {root : Path OsName} {d d' : WorkDisk} (h : Removed root removals d d')
    (hsafe : ∀ p ∈ removals, Safe p) (hroot : d.node root = some .dir) :
    d'.node root = some .dir := by
  rw [(h root).2 (fun p hp he => (hsafe p hp).names_ne_nil (by simpa using he)), hroot]

/-- The pass over the removals deletes them one by one, and stops where a deletion fails. -/
theorem removals_outcome {s : Checkout} (hroot : s.disk.node env.layout.root = some .dir)
    (hps : ∀ p ∈ removals, Safe p ∧ s.disk.Plain env.layout.root (names p)) :
    Outcome (removals.forM (fun p => do removeFile env.layout (← attempt (safeJoin p))) : Io Unit) s
      (fun _ s' => s'.sparsePrev = s.sparsePrev ∧
        Removed env.layout.root removals s.disk s'.disk)
      (fun err s' => ¬ Refusal err ∧ ∃ done, (∀ p ∈ done, p ∈ removals) ∧
        Removed env.layout.root done s.disk s'.disk) := by
  refine Outcome.forM (I := fun done (s' : Checkout) => s'.sparsePrev = s.sparsePrev ∧
    Removed env.layout.root done s.disk s'.disk) ?_ ⟨rfl, fun q => ⟨by simp, fun _ => rfl⟩⟩
  intro done p rest s₁ hsplit ⟨hprev, hrem⟩
  have hmem : ∀ q ∈ done, q ∈ removals := fun q hq => by rw [hsplit]; simp [hq]
  obtain ⟨hsafe, hplain⟩ := hps p (by rw [hsplit]; simp)
  refine Outcome.bind (attempt_outcome.mono ?_ ?_)
  swap
  · rintro err s' ⟨rfl, herr⟩
    rw [safeJoin_eq_ok_iff.mpr ⟨hsafe, rfl⟩] at herr
    cases herr
  rintro full s' ⟨rfl, hjoin⟩
  obtain ⟨-, rfl⟩ := safeJoin_eq_ok_iff.mp hjoin
  refine (removeFile_exact (hrem.plain hplain)
    (hrem.root_dir (fun q hq => (hps q (hmem q hq)).1) hroot)).mono ?_ ?_
  · rintro - s₂ ⟨hprev₂, hnode⟩
    refine ⟨hprev₂.trans hprev, fun q => ⟨?_, fun hq => ?_⟩⟩
    · rintro ⟨p', hp', rfl⟩
      rw [hnode]
      split
      · rfl
      · next hne =>
        rcases List.mem_append.mp hp' with hp' | hp'
        · exact (hrem _).1 ⟨p', hp', rfl⟩
        · exact absurd (by rw [List.mem_singleton.mp hp']) hne
    · rw [hnode, if_neg (hq p (by simp))]
      exact (hrem q).2 (fun p' hp' => hq p' (by simp [hp']))
  · rintro err s₂ ⟨rfl, rfl⟩
    exact ⟨not_refusal_io, done, hmem, hrem⟩

theorem Frame.of_removed {root : Path OsName} {paths : String → Prop}
    {may : String → FileData → Prop} {d d' : WorkDisk} (hroot : d.node root = some .dir)
    (hps : ∀ p ∈ removals, Safe p ∧ d.Plain root (names p) ∧ paths p ∧
      ∃ c, d.node (root ++ names p) = some (.file c) ∧ may p c)
    (h : Removed root removals d d') : Frame root paths may d d' where
  root_dir := h.root_dir (fun p hp => (hps p hp).1) hroot
  links q l := by
    constructor
    · intro hl
      rw [← h.node_eq (by rw [hl]; simp), hl]
    · intro hl
      rw [(h q).2, hl]
      rintro p hp rfl
      obtain ⟨-, -, -, c, hc, -⟩ := hps p hp
      rw [hl] at hc
      cases hc
  files q c hq := by
    by_cases hex : ∃ p ∈ removals, q = root ++ names p
    · obtain ⟨p, hp, rfl⟩ := hex
      obtain ⟨hsafe, -, -, c', hc', hmay⟩ := hps p hp
      rw [hq] at hc'
      cases hc'
      exact .inr ⟨p, hsafe, rfl, hmay⟩
    · exact .inl (by rw [(h q).2 (fun p hp he => hex ⟨p, hp, he⟩), hq])
  along q hq := by
    by_cases hex : ∃ p ∈ removals, q = root ++ names p
    · obtain ⟨p, hp, rfl⟩ := hex
      obtain ⟨-, hplain, hpath, -⟩ := hps p hp
      exact ⟨p, names p, hpath, rfl, .inl List.prefix_rfl, hplain⟩
    · exact absurd ((h q).2 (fun p hp he => hex ⟨p, hp, he⟩)) hq

/-- The removal pass refuses, or fails to read, before it changes anything; past that point it
deletes what it decided to. -/
theorem removalPass_outcome {s : Checkout} (hroot : s.disk.node env.layout.root = some .dir)
    {old : ObjectId} {oldView : Option Sparse} :
    Outcome (env.removalPass target old oldView) s
      (fun r s' => s'.sparsePrev = s.sparsePrev ∧
        env.oldFiles oldView s.sparsePrev old = .ok r.1 ∧ ∃ removals,
          Decided env s.disk target r.1 removals r.2 ∧
          Unobstructed env s.disk target removals ∧
          Removed env.layout.root removals s.disk s'.disk)
      (fun err s' => s' = s ∨ (¬ Refusal err ∧ ∃ tracked removals kept done,
        env.oldFiles oldView s.sparsePrev old = .ok tracked ∧
        Decided env s.disk target tracked removals kept ∧ (∀ p ∈ done, p ∈ removals) ∧
        Removed env.layout.root done s.disk s'.disk)) := by
  unfold Laying.removalPass
  refine Outcome.bind (Outcome.get ?_)
  refine Outcome.bind (attempt_outcome.mono ?_ (fun _ _ h => .inl h.1))
  rintro tracked s' ⟨rfl, htracked⟩
  refine Outcome.bind (attempt_outcome.mono ?_ (fun _ _ h => .inl h.1))
  rintro ⟨removals, kept⟩ s' ⟨rfl, hfold⟩
  have hdecided := decided_of_fold hfold
  dsimp only
  refine Outcome.bind (attempt_outcome.mono ?_ (fun _ _ h => .inl h.1))
  rintro u s' ⟨rfl, hok⟩
  refine Outcome.bind ((removals_outcome hroot (fun p hp =>
    ⟨(hdecided.file hroot hp).1, (hdecided.file hroot hp).2.1⟩)).mono ?_ ?_)
  · rintro - s₁ ⟨hprev, hrem⟩
    exact Outcome.pure ⟨hprev, htracked, removals, hdecided, unobstructed_of_ok hok, hrem⟩
  · rintro err s₁ ⟨href, done, hdone, hrem⟩
    exact .inr ⟨href, tracked, removals, kept, done, htracked, hdecided, hdone, hrem⟩

end Removal

end Worktree

end SrcControl
