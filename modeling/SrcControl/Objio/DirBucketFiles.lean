import SrcControl.Objio.DirBucket

/-!
# The files of a bucket

What the steps of a call do to the files: a temporary file is written while only the holder of
the lock knows its inode, so the inode behind a key never changes its content, and a file that
is open for reading is read as it was when it was opened.
-/

namespace SrcControl.Objio

variable {fs fs' : Fs} {p q key : Path} {i j pid : Nat}

/-! ## Names the bucket takes for itself -/

/-- The path of the lock file, or of a temporary file. -/
def Reserved (key : Path) : Prop :=
  key = casLock ∨ ∃ k pid, validateKey k = true ∧ tmpPath k pid = key

theorem tmpPath_ne_casLock (k : Path) (pid : Nat) : tmpPath k pid ≠ casLock := by
  intro heq
  have hne : LineText.showNat pid ≠ [] := Nat.toDigits_ne_nil
  have hlast : (tmpPath k pid).getLast? = (LineText.showNat pid).getLast? := by
    unfold tmpPath withExtension
    rw [List.getLast?_append, List.getLast?_cons, List.getLast?_append]
    rcases hg : (LineText.showNat pid).getLast? with _ | c
    · exact absurd (List.getLast?_eq_none_iff.mp hg) hne
    · rfl
  rw [heq] at hlast
  have hdigit := LineText.showNat_isDigit (List.mem_of_getLast? hlast.symm)
  exact absurd hdigit (by decide)

theorem tmpPath_ne {k : Path} (hkey : ¬Reserved key) (hk : validateKey k = true) (pid : Nat) :
    tmpPath k pid ≠ key :=
  fun heq => hkey (.inr ⟨k, pid, hk, heq⟩)

theorem casLock_ne (hkey : ¬Reserved key) : casLock ≠ key := fun heq => hkey (.inl heq.symm)

/-! ## Inodes -/

/-- Every inode in use is old and has one path. -/
structure Fs.Sound (fs : Fs) : Prop where
  inj : ∀ {p q i}, fs.link p = some i → fs.link q = some i → p = q
  below : ∀ {p i}, fs.link p = some i → i < fs.fresh

/-- No temporary file has the inode, so that no step writes to it. -/
structure Stable (fs : Fs) (i : Nat) : Prop where
  below : i < fs.fresh
  apart : ∀ k pid, validateKey k = true → fs.link (tmpPath k pid) ≠ some i

theorem Fs.Sound.stable (h : fs.Sound) (hkey : ¬Reserved key) (hi : fs.link key = some i) :
    Stable fs i :=
  ⟨h.below hi, fun _ pid hk heq => tmpPath_ne hkey hk pid (h.inj heq hi)⟩

/-- A step away from the temporary files. -/
structure Kept (fs fs' : Fs) : Prop where
  data : ∀ i < fs.fresh, fs'.data i = fs.data i
  tmp : ∀ k pid, validateKey k = true → fs'.link (tmpPath k pid) = fs.link (tmpPath k pid)
  fresh : fs.fresh ≤ fs'.fresh

theorem Kept.refl (fs : Fs) : Kept fs fs :=
  ⟨fun _ _ => rfl, fun _ _ _ => rfl, Nat.le_refl _⟩

theorem Kept.stable (h : Kept fs fs') (hi : Stable fs i) :
    Stable fs' i ∧ fs'.data i = fs.data i :=
  ⟨⟨hi.below.trans_le h.fresh, fun k pid hk => h.tmp k pid hk ▸ hi.apart k pid hk⟩,
    h.data i hi.below⟩

theorem Kept.read (h : Kept fs fs') (hs : fs.Sound) (hlink : fs'.link p = fs.link p) :
    fs'.read p = fs.read p := by
  unfold Fs.read
  rw [hlink]
  rcases hl : fs.link p with _ | i
  · rfl
  · rw [Option.map_some, Option.map_some, h.data i (hs.below hl)]

theorem link_make_self : (fs.make p).link p = some fs.fresh := Function.update_self _ _ _

theorem link_make_of_ne (h : q ≠ p) : (fs.make p).link q = fs.link q :=
  Function.update_of_ne h _ _

theorem data_make_of_lt (hi : i < fs.fresh) : (fs.make p).data i = fs.data i :=
  Function.update_of_ne (Nat.ne_of_lt hi) _ _

theorem Fs.Sound.make (h : fs.Sound) (p : Path) : (fs.make p).Sound := by
  have hlink : ∀ {q i}, (fs.make p).link q = some i →
      (q = p ∧ i = fs.fresh) ∨ fs.link q = some i ∧ i < fs.fresh := by
    intro q i hq
    by_cases heq : q = p
    · subst heq
      rw [link_make_self] at hq
      exact .inl ⟨rfl, (Option.some.inj hq).symm⟩
    · rw [link_make_of_ne heq] at hq
      exact .inr ⟨hq, h.below hq⟩
  constructor
  · intro q r i hq hr
    rcases hlink hq with ⟨rfl, rfl⟩ | ⟨hq, hi⟩ <;> rcases hlink hr with ⟨rfl, heq⟩ | ⟨hr, hi'⟩
    · rfl
    · omega
    · omega
    · exact h.inj hq hr
  · intro q i hq
    change i < fs.fresh + 1
    rcases hlink hq with ⟨-, rfl⟩ | ⟨-, hi⟩ <;> omega

/-! ## The lock file -/

theorem openOrCreate_casLock (hs : fs.Sound) : (fs.openOrCreate casLock).Sound ∧
    Kept fs (fs.openOrCreate casLock) ∧
    ∀ q, q ≠ casLock → (fs.openOrCreate casLock).link q = fs.link q := by
  unfold Fs.openOrCreate
  split
  · exact ⟨hs, .refl fs, fun _ _ => rfl⟩
  · refine ⟨hs.make casLock, ⟨fun i hi => data_make_of_lt hi, fun k pid _ => ?_, Nat.le_succ _⟩,
      fun q hq => link_make_of_ne hq⟩
    exact link_make_of_ne (tmpPath_ne_casLock k pid)

/-! ## Deleting -/

theorem unlink_key (hs : fs.Sound) (hkey : ¬Reserved key) : (fs.unlink key).Sound ∧
    Kept fs (fs.unlink key) ∧ (fs.unlink key).link key = none ∧
    ∀ q, q ≠ key → (fs.unlink key).link q = fs.link q := by
  have hne : ∀ q, q ≠ key → (fs.unlink key).link q = fs.link q :=
    fun q hq => Function.update_of_ne hq _ _
  have hself : (fs.unlink key).link key = none := Function.update_self _ _ _
  have hold : ∀ {q i}, (fs.unlink key).link q = some i → fs.link q = some i := by
    intro q i hq
    by_cases heq : q = key
    · rw [heq, hself] at hq
      cases hq
    · rwa [hne q heq] at hq
  refine ⟨⟨fun hp hq => hs.inj (hold hp) (hold hq), fun hq => hs.below (hold hq)⟩,
    ⟨fun _ _ => rfl, fun k pid hk => ?_, Nat.le_refl _⟩, hself, hne⟩
  exact hne _ (tmpPath_ne hkey hk pid)

/-! ## Writing -/

/-- A step on the temporary file `t`: the keys and what is open for reading stay as they are. -/
structure Wrote (fs fs' : Fs) : Prop where
  stable : ∀ i, Stable fs i → Stable fs' i ∧ fs'.data i = fs.data i
  read : ∀ q, ¬Reserved q → fs'.read q = fs.read q
  link : ∀ q, ¬Reserved q → fs'.link q = fs.link q

theorem read_eq_of_link (hlink : fs'.link q = fs.link q)
    (hdata : ∀ i, fs.link q = some i → fs'.data i = fs.data i) : fs'.read q = fs.read q := by
  unfold Fs.read
  rw [hlink]
  rcases hl : fs.link q with _ | i
  · rfl
  · rw [Option.map_some, Option.map_some, hdata i hl]

theorem create_tmp {k : Path} (hk : validateKey k = true) (hs : fs.Sound) :
    (fs.create (tmpPath k pid)).2.Sound ∧ Wrote fs (fs.create (tmpPath k pid)).2 ∧
      (fs.create (tmpPath k pid)).2.link (tmpPath k pid) = some (fs.create (tmpPath k pid)).1 := by
  unfold Fs.create
  rcases hl : fs.link (tmpPath k pid) with _ | i
  · have hlink : ∀ q, ¬Reserved q → (fs.make (tmpPath k pid)).link q = fs.link q :=
      fun q hq => link_make_of_ne (Ne.symm (tmpPath_ne hq hk pid))
    refine ⟨hs.make _, ⟨fun j hj => ⟨⟨hj.below.trans (Nat.lt_succ_self _), ?_⟩,
      data_make_of_lt hj.below⟩, fun q hq => ?_, hlink⟩, link_make_self⟩
    · intro k' pid' hk' heq
      by_cases hsame : tmpPath k' pid' = tmpPath k pid
      · rw [hsame] at heq
        rw [show (fs.make (tmpPath k pid)).link (tmpPath k pid) = some fs.fresh from
          link_make_self] at heq
        exact absurd (Option.some.inj heq) (Nat.ne_of_gt hj.below)
      · rw [show (fs.make (tmpPath k pid)).link (tmpPath k' pid') = fs.link (tmpPath k' pid') from
          link_make_of_ne hsame] at heq
        exact hj.apart k' pid' hk' heq
    · exact read_eq_of_link (hlink q hq) (fun j hj => data_make_of_lt (hs.below hj))
  · have hdata : ∀ j, j ≠ i → Function.update fs.data i [] j = fs.data j :=
      fun j hj => Function.update_of_ne hj _ _
    refine ⟨⟨hs.inj, hs.below⟩, ⟨fun j hj => ⟨⟨hj.below, hj.apart⟩, hdata j ?_⟩, fun q hq => ?_,
      fun q _ => rfl⟩, hl⟩
    · rintro rfl
      exact hj.apart k pid hk hl
    · refine read_eq_of_link rfl (fun j hj => hdata j ?_)
      rintro rfl
      exact tmpPath_ne hq hk pid (hs.inj hl hj)

theorem write_tmp {k : Path} (hk : validateKey k = true) (hs : fs.Sound)
    (hl : fs.link (tmpPath k pid) = some i) (bytes : Bytes) :
    (fs.write i bytes).Sound ∧ Wrote fs (fs.write i bytes) ∧
      (fs.write i bytes).data i = bytes := by
  have hdata : ∀ j, j ≠ i → (fs.write i bytes).data j = fs.data j :=
    fun j hj => Function.update_of_ne hj _ _
  refine ⟨⟨hs.inj, hs.below⟩, ⟨fun j hj => ⟨⟨hj.below, hj.apart⟩, hdata j ?_⟩, fun q hq => ?_,
    fun q _ => rfl⟩, Function.update_self _ _ _⟩
  · rintro rfl
    exact hj.apart k pid hk hl
  · refine read_eq_of_link rfl (fun j hj => hdata j ?_)
    rintro rfl
    exact tmpPath_ne hq hk pid (hs.inj hl hj)

/-- The rename puts the written file at its key, in one step. -/
theorem rename_tmp {k : Path} (hk : validateKey k = true) (hkey : ¬Reserved key) (hs : fs.Sound)
    (hl : fs.link (tmpPath k pid) = some i) :
    ∃ fs', fs.rename (tmpPath k pid) key = some fs' ∧ fs'.Sound ∧
      (∀ j, Stable fs j → Stable fs' j ∧ fs'.data j = fs.data j) ∧
      fs'.read key = some (fs.data i) ∧
      ∀ q, ¬Reserved q → q ≠ key → fs'.read q = fs.read q := by
  have hne := tmpPath_ne hkey hk pid
  unfold Fs.rename
  rw [hl]
  refine ⟨_, rfl, ?_⟩
  set link := Function.update (Function.update fs.link (tmpPath k pid) none) key (some i) with hdef
  have hself : link key = some i := Function.update_self _ _ _
  have hgone : link (tmpPath k pid) = none := by
    rw [hdef, Function.update_of_ne hne, Function.update_self]
  have hother : ∀ q, q ≠ key → q ≠ tmpPath k pid → link q = fs.link q := by
    intro q hq hq'
    rw [hdef, Function.update_of_ne hq, Function.update_of_ne hq']
  have hcases : ∀ {q j}, link q = some j →
      (q = key ∧ j = i) ∨ (q ≠ key ∧ q ≠ tmpPath k pid ∧ fs.link q = some j) := by
    intro q j hq
    by_cases heq : q = key
    · subst heq
      rw [hself] at hq
      exact .inl ⟨rfl, (Option.some.inj hq).symm⟩
    · by_cases htmp : q = tmpPath k pid
      · rw [htmp, hgone] at hq
        cases hq
      · exact .inr ⟨heq, htmp, hother q heq htmp ▸ hq⟩
  refine ⟨⟨?_, ?_⟩, fun j hj => ⟨⟨hj.below, fun k' pid' hk' heq => ?_⟩, rfl⟩, ?_,
    fun q hq hq' => ?_⟩
  · intro q r j hq hr
    rcases hcases hq with ⟨hqk, hji⟩ | ⟨-, hqt, hqold⟩ <;>
      rcases hcases hr with ⟨hrk, hji'⟩ | ⟨-, hrt, hrold⟩
    · exact hqk.trans hrk.symm
    · exact absurd (hs.inj hrold (hji ▸ hl)) hrt
    · exact absurd (hs.inj hqold (hji' ▸ hl)) hqt
    · exact hs.inj hqold hrold
  · intro q j hq
    rcases hcases hq with ⟨-, rfl⟩ | ⟨-, -, hq⟩
    · exact hs.below hl
    · exact hs.below hq
  · rcases hcases heq with ⟨heq, -⟩ | ⟨-, -, heq⟩
    · exact tmpPath_ne hkey hk' pid' heq
    · exact hj.apart k' pid' hk' heq
  · change (link key).map fs.data = some (fs.data i)
    rw [hself, Option.map_some]
  · exact read_eq_of_link (hother q hq' (Ne.symm (tmpPath_ne hq hk pid))) (fun j _ => rfl)

end SrcControl.Objio
