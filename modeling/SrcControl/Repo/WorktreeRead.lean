import SrcControl.Repo.IgnoreRules
import SrcControl.Core.Object
import SrcControl.Lib.OrderedMap

/-!
# Reading the working tree

The walk over the directories on disk, which leaves out the repository's own directory and does
not enter a directory that an ignore rule matches unless a tracked path lies under it. It selects
by the path it reports: where no name holds a backslash, exactly the files that are tracked or
matched by no rule.
-/

namespace SrcControl.WorktreeRead

open SlashPath IgnoreRules

/-! ## The disk -/

abbrev FileName := {name : String // IsName name}

/-- A directory as it is listed, one entry and the entries after it; `other` is a link, a socket
or any other entry that is neither a directory nor a regular file. -/
inductive DiskTree
  | nil
  | file (name : FileName) (bytes : ByteArray) (mode : FileMode) (rest : DiskTree)
  | dir (name : FileName) (children rest : DiskTree)
  | other (name : FileName) (rest : DiskTree)

structure ReadFile where
  path : String
  bytes : ByteArray
  mode : FileMode

/-! ## The walk -/

/-- `.replace('\\', "/")`. -/
def slashed (path : String) : String :=
  String.ofList (path.toList.map (fun c => if c = '\\' then '/' else c))

/-- The `.sc` directory under the root. -/
def skip : String := ".sc"

/-- Is any tracked path inside directory `dir`? -/
def trackedUnder (tracked : BTreeSet String) (dir : String) : Bool :=
  let head := dir ++ "/"
  ((tracked.toList.find? (fun p => (compare head p).isLE)).map (startsWith · head)).getD false

def walkDiskPaths (ignore : Ignore) (tracked : BTreeSet String) (dir : String) :
    DiskTree → List String
  | .nil => []
  | .file name _ _ rest =>
    let path := join dir name
    let rel := slashed path
    let tail := walkDiskPaths ignore tracked dir rest
    if path = skip then tail
    else if ignore.matches rel && !tracked.contains rel then tail
    else rel :: tail
  | .dir name children rest =>
    let path := join dir name
    let rel := slashed path
    let tail := walkDiskPaths ignore tracked dir rest
    if path = skip then tail
    else if ignore.matches rel && !trackedUnder tracked rel then tail
    else walkDiskPaths ignore tracked path children ++ tail
  | .other _ rest => walkDiskPaths ignore tracked dir rest

def walkDisk (ignore : Ignore) (tracked : BTreeSet String) (dir : String) :
    DiskTree → List ReadFile
  | .nil => []
  | .file name bytes mode rest =>
    let path := join dir name
    let rel := slashed path
    let tail := walkDisk ignore tracked dir rest
    if path = skip then tail
    else if ignore.matches rel && !tracked.contains rel then tail
    else ⟨rel, bytes, mode⟩ :: tail
  | .dir name children rest =>
    let path := join dir name
    let rel := slashed path
    let tail := walkDisk ignore tracked dir rest
    if path = skip then tail
    else if ignore.matches rel && !trackedUnder tracked rel then tail
    else walkDisk ignore tracked path children ++ tail
  | .other _ rest => walkDisk ignore tracked dir rest

def readWorktree (scignore : Option (List Char)) (tracked : BTreeSet String) (disk : DiskTree) :
    List ReadFile :=
  (walkDisk (load scignore) tracked "" disk).mergeSort (fun a b => (compare a.path b.path).isLE)

def listWorktreePaths (scignore : Option (List Char)) (tracked : BTreeSet String)
    (disk : DiskTree) : List String :=
  (walkDiskPaths (load scignore) tracked "" disk).mergeSort (fun a b => (compare a b).isLE)

/-- Both walks visit the same files. -/
theorem walkDiskPaths_eq (ignore : Ignore) (tracked : BTreeSet String) (dir : String)
    (disk : DiskTree) :
    walkDiskPaths ignore tracked dir disk = (walkDisk ignore tracked dir disk).map (·.path) := by
  induction disk generalizing dir with
  | nil => rfl
  | file name bytes mode rest ih =>
    simp only [walkDiskPaths, walkDisk, ih]
    split_ifs <;> rfl
  | dir name children rest ihc ihr =>
    simp only [walkDiskPaths, walkDisk, ihc, ihr]
    split_ifs <;> simp
  | other name rest ih => exact ih dir

/-! ## The regular files -/

/-- Every regular file at or below a directory, with the names down to it. -/
def filesAt (above : List String) : DiskTree → List (List String × ByteArray × FileMode)
  | .nil => []
  | .file name bytes mode rest => (above ++ [name.1], bytes, mode) :: filesAt above rest
  | .dir name children rest => filesAt (above ++ [name.1]) children ++ filesAt above rest
  | .other _ rest => filesAt above rest

/-- The regular files outside `.sc`, each under its path. -/
def files (disk : DiskTree) : List ReadFile :=
  ((filesAt [] disk).filter (fun f => f.1.head? != some skip)).map
    (fun f => ⟨ofNames f.1, f.2.1, f.2.2⟩)

/-- Tracked, or matched by no rule. -/
def Kept (scignore : Option (List Char)) (tracked : BTreeSet String) (path : String) : Prop :=
  path ∈ tracked ∨ ∀ rule ∈ rules scignore, ¬RuleMatches rule path

/-! ## Reported paths -/

/-- The file under the path the walk reports. -/
def ReadFile.reported (file : ReadFile) : ReadFile := { file with path := slashed file.path }

theorem not_mem_slashed (path : String) : '\\' ∉ (slashed path).toList := by
  rw [slashed, String.toList_ofList, List.mem_map]
  rintro ⟨c, -, hc⟩
  split_ifs at hc with h
  · exact absurd hc (by decide)
  · exact h hc

theorem slashed_eq_self {path : String} (h : '\\' ∉ path.toList) : slashed path = path := by
  have hmap : path.toList.map (fun c => if c = '\\' then '/' else c) = path.toList := by
    refine (List.map_congr_left fun c hc => if_neg ?_).trans (List.map_id _)
    rintro rfl
    exact h hc
  rw [slashed, hmap, String.ofList_toList]

theorem slashed_slash (p q : String) : slashed (p ++ "/" ++ q) = slashed p ++ "/" ++ slashed q := by
  refine String.ext ?_
  simp [slashed, String.toList_append]

/-! ## The tracked exemption -/

theorem isLE_compare_iff {a b : String} : (compare a b).isLE = true ↔ ¬b.toList < a.toList := by
  rw [← String.lt_iff]
  rcases lt_trichotomy a b with h | rfl | h
  · have hc : compare a b = .lt := if_pos h
    simp [hc, h.not_gt]
  · simp
  · have hc : compare a b = .gt := (if_neg h.not_gt).trans (if_neg h.ne')
    simp [hc, h]

/-- What stands between a text and one of its continuations continues the text. -/
theorem prefix_of_between {head p rest : List Char} (hlo : ¬p < head) (hhi : ¬head ++ rest < p) :
    head <+: p := by
  induction head generalizing p with
  | nil => exact List.nil_prefix
  | cons c head ih =>
    cases p with
    | nil => exact absurd (List.nil_lt_cons c head) hlo
    | cons d p =>
      rw [List.cons_append, List.cons_lt_cons_iff, not_or, not_and] at hhi
      rw [List.cons_lt_cons_iff, not_or, not_and] at hlo
      have heq : c = d := le_antisymm (not_lt.mp hlo.1) (not_lt.mp hhi.1)
      exact List.cons_prefix_cons.mpr ⟨heq, ih (hlo.2 heq.symm) (hhi.2 heq)⟩

/-- The range query answers whether a tracked path lies under the directory. -/
theorem trackedUnder_iff {tracked : BTreeSet String} {dir : String} :
    trackedUnder tracked dir = true ↔ ∃ p ∈ tracked, ∃ rest, p = dir ++ "/" ++ rest := by
  constructor
  · intro h
    rw [trackedUnder] at h
    cases hf : tracked.toList.find? (fun p => (compare (dir ++ "/") p).isLE) with
    | none => simp [hf] at h
    | some p =>
      simp only [hf, Option.map_some, Option.getD_some] at h
      exact ⟨p, Std.ExtTreeSet.mem_toList.mp (List.mem_of_find?_eq_some hf), startsWith_iff.mp h⟩
  · rintro ⟨p, hp, rest, rfl⟩
    have hle : (compare (dir ++ "/") (dir ++ "/" ++ rest)).isLE = true := by
      rw [isLE_compare_iff, String.toList_append (s := dir ++ "/")]
      exact List.not_lt.mpr List.le_append_left
    obtain ⟨q, hq⟩ : ∃ q, tracked.toList.find? (fun p => (compare (dir ++ "/") p).isLE) = some q :=
      Option.isSome_iff_exists.mp
        (List.find?_isSome.mpr ⟨_, Std.ExtTreeSet.mem_toList.mpr hp, hle⟩)
    obtain ⟨hqle, before, after, hcut, hbefore⟩ := List.find?_eq_some_iff_append.mp hq
    have hord := Std.ExtTreeSet.ordered_toList (t := tracked)
    have hmem := Std.ExtTreeSet.mem_toList.mpr hp
    rw [hcut] at hord hmem
    have hbelow : (compare q (dir ++ "/" ++ rest)).isLE = true := by
      rcases List.mem_append.mp hmem with hin | hin
      · exact absurd hle (by simpa using hbefore _ hin)
      · rcases List.mem_cons.mp hin with he | hin
        · rw [he]
          simp
        · have hlt := List.rel_of_pairwise_cons (List.pairwise_append.mp hord).2.1 hin
          rw [hlt]
          rfl
    rw [isLE_compare_iff] at hqle hbelow
    rw [String.toList_append (s := dir ++ "/")] at hbelow
    have hpre := prefix_of_between hqle hbelow
    rw [trackedUnder]
    simp only [hq, Option.map_some, Option.getD_some]
    exact List.isPrefixOf_iff_prefix.mpr hpre

/-! ## The walk selects by reported path -/

theorem kept_iff {scignore : Option (List Char)} {tracked : BTreeSet String} {path : String} :
    Kept scignore tracked path ↔
      ((load scignore).matches path && !tracked.contains path) = false := by
  rw [Kept, Bool.and_eq_false_iff, Bool.not_eq_false', Std.ExtTreeSet.contains_iff_mem,
    ← Bool.not_eq_true, matches_iff]
  simp only [not_exists, not_and]
  exact or_comm

/-- A pruned directory holds no file that is kept. -/
theorem not_kept_below {scignore : Option (List Char)} {tracked : BTreeSet String} {dir : String}
    (h : ((load scignore).matches dir && !trackedUnder tracked dir) = true) (rest : String) :
    ¬Kept scignore tracked (dir ++ "/" ++ rest) := by
  rw [Bool.and_eq_true, Bool.not_eq_true', ← Bool.not_eq_true, trackedUnder_iff, matches_iff] at h
  obtain ⟨⟨rule, hrule, hmatch⟩, hno⟩ := h
  rintro (htracked | hfree)
  · exact hno ⟨_, htracked, rest, rfl⟩
  · exact hfree rule hrule (hmatch.below rest)

theorem mem_filesAt {above : List String} {disk : DiskTree} {f : List String × ByteArray × FileMode}
    (h : f ∈ filesAt above disk) : ∃ ds, ds ≠ [] ∧ (∀ d ∈ ds, IsName d) ∧ f.1 = above ++ ds := by
  induction disk generalizing above with
  | nil => simp [filesAt] at h
  | file name bytes mode rest ih =>
    rcases List.mem_cons.mp h with rfl | h
    · exact ⟨[name.1], by simp, by simp [name.2], rfl⟩
    · exact ih h
  | dir name children rest ihc ihr =>
    rcases List.mem_append.mp h with h | h
    · obtain ⟨ds, -, hds, he⟩ := ihc h
      refine ⟨name.1 :: ds, by simp, ?_, by rw [he, List.append_assoc]; rfl⟩
      rintro d (_ | ⟨_, hd⟩)
      · exact name.2
      · exact hds d hd
    · exact ihr h
  | other name rest ih => exact ih h

theorem ofNames_eq_skip_iff {above : List String} {name : String} (hnames : ∀ c ∈ above, IsName c)
    (hname : IsName name) (hout : above.head? ≠ some skip) :
    ofNames (above ++ [name]) = skip ↔ (above ++ [name]).head? = some skip := by
  constructor
  · intro he
    have hall : ∀ c ∈ above ++ [name], IsName c := by
      intro c hc
      rcases List.mem_append.mp hc with hc | hc
      · exact hnames c hc
      · exact List.mem_singleton.mp hc ▸ hname
    have hskip : ∀ c ∈ [skip], IsName c := by decide
    rw [(ofNames_inj hall hskip).mp he]
    rfl
  · intro hhead
    cases above with
    | nil => exact Option.some.inj hhead
    | cons a above => exact absurd hhead hout

section Walk

open Classical

variable {scignore : Option (List Char)} {tracked : BTreeSet String}

/-- The walk reports what is kept under the path it reports. -/
theorem walkDisk_eq {above : List String} (hnames : ∀ c ∈ above, IsName c)
    (hout : above.head? ≠ some skip) (disk : DiskTree) :
    walkDisk (load scignore) tracked (ofNames above) disk =
      ((filesAt above disk).filter (fun f => f.1.head? != some skip &&
          decide (Kept scignore tracked (slashed (ofNames f.1))))).map
        (fun f => ⟨slashed (ofNames f.1), f.2.1, f.2.2⟩) := by
  induction disk generalizing above with
  | nil => rfl
  | file name bytes mode rest ih =>
    have hjoin := ofNames_append_singleton above name.1
    simp only [walkDisk, filesAt, ← hjoin, ih hnames hout, ofNames_eq_skip_iff hnames name.2 hout]
    split_ifs with hskip hignored
    · rw [List.filter_cons_of_neg (by simp only [hskip, bne_self_eq_false, Bool.false_and,
        Bool.false_eq_true, not_false_eq_true])]
    · have hno := mt kept_iff.mp (Bool.not_eq_false _ ▸ hignored)
      rw [List.filter_cons_of_neg (by simp only [hno, decide_false, Bool.and_false,
        Bool.false_eq_true, not_false_eq_true])]
    · have hkept := kept_iff.mpr (Bool.not_eq_true _ ▸ hignored)
      rw [List.filter_cons_of_pos (by simp only [hkept, decide_true, Bool.and_true, bne_iff_ne,
        ne_eq, hskip, not_false_eq_true]), List.map_cons]
  | dir name children rest ihc ihr =>
    have hjoin := ofNames_append_singleton above name.1
    have hdeep : ∀ c ∈ above ++ [name.1], IsName c := by
      intro c hc
      rcases List.mem_append.mp hc with hc | hc
      · exact hnames c hc
      · exact List.mem_singleton.mp hc ▸ name.2
    simp only [walkDisk, filesAt, ← hjoin, ihr hnames hout, List.filter_append, List.map_append]
    split_ifs with hskip hprune
    · rw [ofNames_eq_skip_iff hnames name.2 hout] at hskip
      refine (List.append_left_eq_self.mpr (List.map_eq_nil_iff.mpr ?_)).symm
      refine List.filter_eq_nil_iff.mpr fun f hf => ?_
      obtain ⟨ds, -, -, hds⟩ := mem_filesAt hf
      simp only [hds, List.head?_append, hskip, Option.some_or, bne_self_eq_false, Bool.false_and,
        Bool.false_eq_true, not_false_eq_true]
    · refine (List.append_left_eq_self.mpr (List.map_eq_nil_iff.mpr ?_)).symm
      refine List.filter_eq_nil_iff.mpr fun f hf => ?_
      obtain ⟨ds, hne, hds, hf⟩ := mem_filesAt hf
      have hno := not_kept_below hprune (slashed (ofNames ds))
      rw [← slashed_slash, ← ofNames_append hdeep (by simp) hds hne, ← hf] at hno
      simp [hno]
    · rw [ofNames_eq_skip_iff hnames name.2 hout] at hskip
      rw [ihc hdeep hskip]
  | other name rest ih => exact ih hnames hout

theorem walkDisk_root (disk : DiskTree) :
    walkDisk (load scignore) tracked "" disk =
      ((files disk).filter (fun f => decide (Kept scignore tracked (slashed f.path)))).map
        ReadFile.reported := by
  rw [← ofNames_nil, walkDisk_eq (by simp) (by simp) disk, files, List.filter_map, List.map_map,
    List.filter_filter]
  refine congrArg (List.map _) (List.filter_congr fun f _ => ?_)
  exact Bool.and_comm _ _

/-- The files to be read: those outside `.sc` that are kept under their own paths. -/
noncomputable def selected (scignore : Option (List Char)) (tracked : BTreeSet String)
    (disk : DiskTree) : List ReadFile :=
  (files disk).filter (fun f => decide (Kept scignore tracked f.path))

/-- No file whose path holds a backslash is kept, under its own path or under the reported one. -/
def NoBackslashKept (scignore : Option (List Char)) (tracked : BTreeSet String)
    (disk : DiskTree) : Prop :=
  ∀ f ∈ files disk, '\\' ∈ f.path.toList →
    ¬Kept scignore tracked f.path ∧ ¬Kept scignore tracked (slashed f.path)

theorem walkDisk_perm_iff {disk : DiskTree} :
    (walkDisk (load scignore) tracked "" disk).Perm (selected scignore tracked disk) ↔
      NoBackslashKept scignore tracked disk := by
  rw [walkDisk_root, selected]
  constructor
  · intro hperm
    -- a kept file with a backslash would be reported, but no reported path holds one
    have htrue : ∀ f ∈ files disk, Kept scignore tracked f.path → '\\' ∉ f.path.toList := by
      intro f hf hkept
      have hin := hperm.mem_iff.mpr (List.mem_filter.mpr ⟨hf, decide_eq_true hkept⟩)
      obtain ⟨g, -, rfl⟩ := List.mem_map.mp hin
      exact not_mem_slashed g.path
    have himp : ∀ f ∈ files disk, Kept scignore tracked f.path →
        Kept scignore tracked (slashed f.path) := by
      intro f hf hkept
      rwa [slashed_eq_self (htrue f hf hkept)]
    have hfilter : (files disk).filter (fun f => decide (Kept scignore tracked f.path)) =
        ((files disk).filter (fun f => decide (Kept scignore tracked (slashed f.path)))).filter
          (fun f => decide (Kept scignore tracked f.path)) := by
      rw [List.filter_filter]
      refine List.filter_congr fun f hf => ?_
      have := himp f hf
      by_cases hk : Kept scignore tracked f.path <;> simp_all
    have hlen := hperm.length_eq
    rw [List.length_map, hfilter] at hlen
    have hall := List.length_filter_eq_length_iff.mp hlen.symm
    intro f hf hslash
    refine ⟨fun hkept => htrue f hf hkept hslash, fun hkept => ?_⟩
    have hown := hall f (List.mem_filter.mpr ⟨hf, decide_eq_true hkept⟩)
    exact htrue f hf (of_decide_eq_true hown) hslash
  · intro hno
    have hclean : ∀ f ∈ files disk, Kept scignore tracked (slashed f.path) →
        '\\' ∉ f.path.toList := fun f hf hkept hslash => (hno f hf hslash).2 hkept
    have hsame : (files disk).filter (fun f => decide (Kept scignore tracked (slashed f.path))) =
        (files disk).filter (fun f => decide (Kept scignore tracked f.path)) := by
      refine List.filter_congr fun f hf => ?_
      by_cases hslash : '\\' ∈ f.path.toList
      · rw [decide_eq_false (hno f hf hslash).1, decide_eq_false (hno f hf hslash).2]
      · rw [slashed_eq_self hslash]
    rw [← hsame]
    refine List.Perm.of_eq ((List.map_congr_left fun f hf => ?_).trans (List.map_id _))
    obtain ⟨hf, hkept⟩ := List.mem_filter.mp hf
    rw [ReadFile.reported, slashed_eq_self (hclean f hf (of_decide_eq_true hkept)), id]

end Walk

/-! ## The read -/

/-- Both reads give exactly the selected files, each once and in path order. -/
structure ReadsExactly (scignore : Option (List Char)) (tracked : BTreeSet String)
    (disk : DiskTree) : Prop where
  files : (readWorktree scignore tracked disk).Perm (selected scignore tracked disk)
  files_sorted : (readWorktree scignore tracked disk).Pairwise
    (fun a b => (compare a.path b.path).isLE = true)
  paths : (listWorktreePaths scignore tracked disk).Perm
    ((selected scignore tracked disk).map (·.path))
  paths_sorted : (listWorktreePaths scignore tracked disk).Pairwise
    (fun a b => (compare a b).isLE = true)

theorem readWorktree_perm_iff {scignore : Option (List Char)} {tracked : BTreeSet String}
    {disk : DiskTree} :
    (readWorktree scignore tracked disk).Perm (selected scignore tracked disk) ↔
      NoBackslashKept scignore tracked disk := by
  rw [← walkDisk_perm_iff]
  have hsort := List.mergeSort_perm (walkDisk (load scignore) tracked "" disk)
    (fun a b => (compare a.path b.path).isLE)
  exact ⟨hsort.symm.trans, hsort.trans⟩

/-- The read is exact when and only when no file with a backslash in its path is kept under
either path. -/
theorem readsExactly_iff (scignore : Option (List Char)) (tracked : BTreeSet String)
    (disk : DiskTree) :
    ReadsExactly scignore tracked disk ↔ NoBackslashKept scignore tracked disk := by
  constructor
  · exact fun h => readWorktree_perm_iff.mp h.files
  · intro h
    have hwalk := (walkDisk_perm_iff.mpr h).map (·.path)
    rw [← walkDiskPaths_eq] at hwalk
    exact ⟨readWorktree_perm_iff.mpr h, pairwise_mergeSort_key _ _,
      (List.mergeSort_perm _ _).trans hwalk, pairwise_mergeSort_key id _⟩

/-- A lone file whose name holds a backslash is reported under a path that is not on the disk. -/
def backslashDisk : DiskTree := .file ⟨"a\\b", by decide⟩ .empty FileMode.FILE .nil

theorem backslash_misread : ¬ReadsExactly none ∅ backslashDisk := by
  intro h
  refine (readWorktree_perm_iff.mp h.files ⟨"a\\b", .empty, FileMode.FILE⟩ ?_ (by decide)).1 ?_
  · exact List.mem_singleton.mpr rfl
  · exact .inr (by simp [rules])

end SrcControl.WorktreeRead
