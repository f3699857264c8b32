import SrcControl.Forge.GitTrees
import SrcControl.Forge.Merges
import SrcControl.Lib.Fallible
import SrcControl.Lib.LineText
import SrcControl.Lib.SlashPath
import SrcControl.Repo.Refs

/-!
# Rewriting the trees along a path

The git half of a contents write: which paths may be written, what the directories along a path
hold, whether they allow the write, and the trees that replace them. The trees are rebuilt from
the last directory up, from the raw entries that the walk has read.
-/

namespace SrcControl.GitWrite

open GitTrees SlashPath Fallible

/-! ## The paths that may be written -/

def maxDepth : Nat := 64

/-- The largest listing of one directory that is read for a write. -/
def maxListing : Nat := 16777216

/-- The listings of one attempt together. -/
def totalListing : Nat := 33554432

/-- The longest line of a `.gitattributes`. -/
def attrLine : Nat := 2048

def hfsIgnorable (c : Char) : Bool :=
  (0x200c ≤ c.toNat && c.toNat ≤ 0x200f) || (0x202a ≤ c.toNat && c.toNat ≤ 0x202e) ||
    (0x206a ≤ c.toNat && c.toNat ≤ 0x206f) || c.toNat = 0xfeff

def numbered (stem : String) (count : Nat) : List String :=
  (List.range' 1 count).map (fun n => stem ++ "~" ++ toString n)

/-- The names of the special file, and its short names on NTFS. -/
def specialNames (name : String) (hash : Option String) : List String :=
  ("." ++ name) :: numbered (String.ofList (name.toList.take 6)) 4 ++
    (hash.map (fun h => numbered h 9)).getD []

def isAlias (component : String) (names : List String) : Bool :=
  let c := component.toList.filter (fun c => !hfsIgnorable c)
  let c := (c.takeWhile (· ≠ ':')).rdropWhile (fun c => c = ' ' || c = '.')
  names.contains (String.ofList (c.map Char.toLower))

def gitNames : List String := [".git", "git~1"]

def modulesNames : List String := specialNames "gitmodules" (some "gi7eba")

def attributesNames : List String := specialNames "gitattributes" (some "gi7d29")

def isControl (c : Char) : Bool := c.toNat < 0x20 || (0x7f ≤ c.toNat && c.toNat ≤ 0x9f)

def validPath (p : String) : Bool :=
  p ≠ "" && (bytesOf p).length ≤ 4096 && !startsWith p "/" && !p.toList.any isControl &&
    (split p).all (fun c => c ≠ "" && c ≠ "." && c ≠ "..")

def writePathOk (path : String) : Bool :=
  let comps := split path
  validPath path && path.toList.getLast? ≠ some '/' && !path.toList.contains '\\' &&
    comps.length ≤ maxDepth &&
    comps.all (fun c =>
      (bytesOf c).length ≤ 255 && !isAlias c gitNames && !isAlias c modulesNames) &&
    comps.dropLast.all (fun c => !isAlias c attributesNames)

def contentOk (path : String) (content : Bytes) : Bool :=
  !isAlias ((split path).getLastD path) attributesNames ||
    (content.splitOn 10).all (fun l => l.length < attrLine)

theorem mem_intercalate {α : Type} {x a : α} {xs : List α} {ls : List (List α)} (hxs : xs ∈ ls)
    (ha : a ∈ xs) : a ∈ [x].intercalate ls := by
  induction ls with
  | nil => cases hxs
  | cons ys ls ih =>
    cases ls with
    | nil =>
      rw [List.mem_singleton] at hxs
      rw [List.intercalate_singleton, ← hxs]
      exact ha
    | cons zs ls =>
      rw [List.intercalate_cons_cons]
      rcases List.mem_cons.mp hxs with rfl | hxs
      · simp [ha]
      · simp [ih hxs]

theorem split_writePathOk {path : String} (h : writePathOk path = true) {c : String}
    (hc : c ∈ split path) : (0 : UInt8) ∉ bytesOf c := by
  simp only [writePathOk, validPath, Bool.and_eq_true, Bool.not_eq_true', List.any_eq_false] at h
  have hctl := h.1.1.1.1.1.1.2
  refine LossyText.not_mem_encode (c := '\x00') (by decide) (fun hmem => ?_)
  obtain ⟨cs, hcs, rfl⟩ := List.mem_map.mp hc
  rw [String.toList_ofList] at hmem
  have hin : '\x00' ∈ path.toList := by
    have hjoin : ['/'].intercalate (path.toList.splitOn '/') = path.toList :=
      List.intercalate_splitOn '/'
    rw [← hjoin]
    exact mem_intercalate hcs hmem
  exact absurd (hctl _ hin) (by decide)

/-! ## Git -/

inductive GitError
  | busy
  | timeout
  | outputTooLarge
  | cancelled
  | spawn (e : String)
  | failed (message : String)

structure Identity where
  name : String
  email : String
  date : Option Int

/-- What a command printed, as text and trimmed. -/
def printed (out : Bytes) : String :=
  String.ofList (LineText.trim Refs.isWhitespace (LossyText.decode out))

/-- The commands of git that a write runs in a repository. `trees` are the trees that it stores,
and `parents` and `root` say what a commit of a given id is. A command may fail at any time. -/
structure Plumbing (R : Type) where
  trees : R → Trees
  parents : String → List String
  root : String → Option String
  lsTree : R → String → Nat → Except GitError Bytes
  mktree : Bytes → EStateM GitError R Bytes
  hashObject : Bytes → EStateM GitError R Bytes
  commitTree : String → Option String → String → Identity → EStateM GitError R Bytes
  commitRoot : R → String → Except GitError (Option String)
  isAncestor : R → String → String → Except GitError Bool

/-- What git's documentation says of these commands. `ls-tree` prints a stored tree, `mktree`
stores one that lists what it was given, an id stands for one commit, and no commit comes before
itself. -/
structure Plumbing.Lawful {R : Type} (git : Plumbing R) : Prop where
  lsTree : ∀ {r oid cap raw}, git.lsTree r oid cap = .ok raw →
    ∃ l, git.trees r oid = some l ∧ raw = mktreeInput l.entries
  mktree : ∀ {l : Listing} {r out r'}, git.mktree (mktreeInput l.entries) r = .ok out r' →
    ∃ l', git.trees r' (printed out) = some l' ∧ l'.entries.Perm l.entries
  mktree_keeps : ∀ {input r out r'}, git.mktree input r = .ok out r' →
    Keeps (git.trees r) (git.trees r')
  mktree_id : ∀ {input r out r'}, git.mktree input r = .ok out r' → Token (printed out)
  hashObject_keeps : ∀ {bytes r out r'}, git.hashObject bytes r = .ok out r' →
    Keeps (git.trees r) (git.trees r')
  hashObject_id : ∀ {bytes r out r'}, git.hashObject bytes r = .ok out r' → Token (printed out)
  commitTree : ∀ {tree parent message id r out r'},
    git.commitTree tree parent message id r = .ok out r' →
      git.parents (printed out) = parent.toList ∧ git.root (printed out) = some tree
  commitTree_keeps : ∀ {tree parent message id r out r'},
    git.commitTree tree parent message id r = .ok out r' → Keeps (git.trees r) (git.trees r')
  commitRoot : ∀ {r c t}, git.commitRoot r c = .ok (some t) → git.root c = some t
  isAncestor : ∀ {r a b answer}, git.isAncestor r a b = .ok answer →
    (answer = true ↔ Forge.Ancestor git.parents a b)
  acyclic : ∀ {a b}, a ∈ git.parents b → ¬ Forge.Ancestor git.parents b a

inductive WriteErr
  | git (e : GitError)
  | rewrite (message : String)

section Commands

variable {R : Type} (git : Plumbing R)

/-- `read_tree`, with what is left of the listing bytes. -/
def readTree (r : R) (oid : String) (budget : Nat) : Except WriteErr (List Entry × Nat) :=
  match git.lsTree r oid (min maxListing budget) with
  | .error e => .error (.git e)
  | .ok raw => match parseTree raw with
    | none => .error (.rewrite ("unreadable tree " ++ oid))
    | some entries => .ok (entries, budget - min raw.length budget)

/-- `mktree`. -/
def writeTree (entries : List Entry) : EStateM WriteErr R String := fun r =>
  match git.mktree (mktreeInput entries) r with
  | .ok out r' => .ok (printed out) r'
  | .error (.failed m) r' => .error (.rewrite m) r'
  | .error e r' => .error (.git e) r'

/-! ## The walk -/

structure Walk where
  levels : List (List Entry)
  blocker : Option Nat

def Walk.leaf (walk : Walk) (comps : List String) : Option Entry :=
  if walk.levels.length < comps.length || walk.blocker.isSome then none
  else comps.getLast?.bind (fun last =>
    named (walk.levels.getD (comps.length - 1) []) (bytesOf last))

/-- The loop of `walk` from the directory that lists `level`: the listings below it. -/
def descend (r : R) : List Entry → List String → Nat → Nat → Except WriteErr (Walk × Nat)
  | _, [], _, budget => .ok (⟨[], none⟩, budget)
  | level, c :: parents, i, budget =>
    match named level (bytesOf c) with
    | none => .ok (⟨[], none⟩, budget)
    | some e =>
      if e.kind = "tree" then do
        let next ← readTree git r e.oid budget
        let rest ← descend r next.1 parents (i + 1) next.2
        pure (⟨next.1 :: rest.1.levels, rest.1.blocker⟩, rest.2)
      else .ok (⟨[], some i⟩, budget)

/-- The root listing; a branch that is not born yet has an empty one. -/
def readRoot (r : R) (root : Option String) (budget : Nat) :
    Except WriteErr (List Entry × Nat) :=
  match root with
  | some t => readTree git r t budget
  | none => .ok ([], budget)

def walk (r : R) (root : Option String) (comps : List String) (budget : Nat) :
    Except WriteErr (Walk × Nat) := do
  let top ← readRoot git r root budget
  let rest ← descend git r top.1 comps.dropLast 0 top.2
  pure (⟨top.1 :: rest.1.levels, rest.1.blocker⟩, rest.2)

inductive Op
  | create
  | update (given : String)
  | delete (given : String)

inductive Refuse
  | alreadyExists
  | blocked (path : String)
  | noFile
  | notRegular
  | shaMismatch (given expected : String)
deriving DecidableEq

/-- The checks that an update and a deletion share. -/
def checkFile (given : String) : Option Entry → Except Refuse (Option String)
  | none => .error .noFile
  | some e =>
    if e.kind ≠ "blob" ∨ (e.mode ≠ "100644" ∧ e.mode ≠ "100755") then .error .notRegular
    else if e.oid ≠ given then .error (.shaMismatch given e.oid)
    else .ok (some e.mode)

def check (op : Op) (comps : List String) (walk : Walk) : Except Refuse (Option String) :=
  match walk.blocker with
  | some i => match op with
    | .create => .error (.blocked (String.intercalate "/" (comps.take (i + 1))))
    | _ => .error .noFile
  | none => match op with
    | .create => match walk.leaf comps with
      | some _ => .error .alreadyExists
      | none => .ok none
    | .update given => checkFile given (walk.leaf comps)
    | .delete given => checkFile given (walk.leaf comps)

/-! ## The rewrite -/

/-- The loop of `rebuild` below the root: it does the levels below first, and what it returns is
the entry that replaces the first component, none when nothing is left of it. -/
def rebuildBelow (file : Option (String × String)) :
    List (List Entry) → List String → EStateM WriteErr R (Option Entry)
  | _, [] => pure none
  | levels, dir :: comps => match comps with
    | [] => pure (file.map (fun f => ⟨f.1, "blob", f.2, bytesOf dir⟩))
    | c :: _ => do
      let child ← rebuildBelow file levels.tail comps
      let entries := rewrite (levels.headD []) (bytesOf c) child
      if entries.isEmpty then pure none
      else do
        let oid ← writeTree git entries
        pure (some (dirEntry oid (bytesOf dir)))

def rebuild (walk : Walk) (comps : List String) (file : Option (String × String)) :
    EStateM WriteErr R String := do
  let child ← rebuildBelow git file walk.levels.tail comps
  writeTree git (rewrite (walk.levels.headD []) (bytesOf (comps.headD "")) child)

end Commands

/-! ## What the walk finds -/

/-- The listings below `entries` along a path, as far as there are directories; none of the
components before the last is anything but a directory. -/
inductive Along (trees : Trees) : List Entry → List Bytes → List (List Entry) → Prop
  | last {entries : List Entry} {name : Bytes} : Along trees entries [name] []
  | missing {entries : List Entry} {name : Bytes} {path : List Bytes} (hpath : path ≠ [])
      (hname : named entries name = none) : Along trees entries (name :: path) []
  | down {entries : List Entry} {name : Bytes} {path : List Bytes} {e : Entry} {l : Listing}
      {levels : List (List Entry)} (hpath : path ≠ []) (hname : named entries name = some e)
      (hkind : e.kind = "tree") (hl : trees e.oid = some l)
      (sub : Along trees l.entries path levels) :
      Along trees entries (name :: path) (l.entries :: levels)

section Along

variable {trees trees' : Trees} {entries : List Entry} {name : Bytes} {path : List Bytes}
  {levels : List (List Entry)}

theorem Along.keeps (h : Along trees entries path levels) (hk : Keeps trees trees') :
    Along trees' entries path levels := by
  induction h with
  | last => exact .last
  | missing hpath hname => exact .missing hpath hname
  | down hpath hname hkind hl _ ih => exact .down hpath hname hkind (hk _ _ hl) ih

theorem along_empty (h : path ≠ []) : Along trees [] path [] := by
  cases path with
  | nil => exact absurd rfl h
  | cons name path =>
    by_cases hp : path = []
    · subst hp
      exact .last
    · exact .missing hp rfl

theorem subdir_down {e : Entry} {l : Listing} (hname : named entries name = some e)
    (hkind : e.kind = "tree") (hl : trees e.oid = some l) :
    subdir trees entries name = l.entries := by
  simp [subdir, hname, children, hkind, hl]

theorem subdir_missing (hname : named entries name = none) : subdir trees entries name = [] := by
  simp [subdir, hname]

/-- One step down: the next listing is that of the directory at the first component. -/
theorem Along.next (h : Along trees entries (name :: path) levels) (hpath : path ≠ []) :
    levels.headD [] = subdir trees entries name ∧
      Along trees (subdir trees entries name) path levels.tail := by
  cases h with
  | last => exact absurd rfl hpath
  | missing _ hname =>
    rw [subdir_missing hname]
    exact ⟨rfl, along_empty hpath⟩
  | down _ hname hkind hl sub =>
    rw [subdir_down hname hkind hl]
    exact ⟨rfl, sub⟩

/-- What stands on the way is a directory. -/
theorem Along.dirs (h : Along trees entries path levels) {q : List Bytes} (hq : q <+: path)
    (hproper : q ≠ path) {e : Entry} (he : entryAt trees entries q = some e) :
    e.kind = "tree" := by
  induction h generalizing q with
  | last =>
    cases q with
    | nil => cases he
    | cons other q =>
      obtain ⟨rfl, hrest⟩ := List.cons_prefix_cons.mp hq
      rw [List.prefix_nil.mp hrest] at hproper
      exact absurd rfl hproper
  | missing hpath hname =>
    cases q with
    | nil => cases he
    | cons other q =>
      obtain ⟨rfl, hrest⟩ := List.cons_prefix_cons.mp hq
      by_cases hne : q = []
      · rw [hne, entryAt_name, hname] at he
        cases he
      · rw [entryAt_cons hne, subdir_missing hname, entryAt_empty] at he
        cases he
  | down hpath hname hkind hl _ ih =>
    cases q with
    | nil => cases he
    | cons other q =>
      obtain ⟨rfl, hrest⟩ := List.cons_prefix_cons.mp hq
      by_cases hne : q = []
      · rw [hne, entryAt_name, hname] at he
        cases he
        exact hkind
      · rw [entryAt_cons hne, subdir_down hname hkind hl] at he
        exact ih hrest (fun heq => hproper (by rw [heq])) he

/-- The listing of the last directory, when the walk got that far, names the file. -/
theorem Along.leaf (h : Along trees entries path levels) :
    (if levels.length + 1 < path.length then none
      else path.getLast?.bind (fun last =>
        named ((entries :: levels).getD (path.length - 1) []) last)) =
      entryAt trees entries path := by
  induction h with
  | last => rfl
  | @missing entries name path hpath hname =>
    have hlen := List.length_pos_iff.mpr hpath
    rw [if_pos (by simp only [List.length_nil, List.length_cons]; omega), entryAt_cons hpath,
      subdir_missing hname, entryAt_empty]
  | @down entries name path e l levels hpath hname hkind hl _ ih =>
    have hlen := List.length_pos_iff.mpr hpath
    rw [entryAt_cons hpath, subdir_down hname hkind hl, ← ih, List.getLast?_cons_of_ne_nil hpath]
    have hindex : (name :: path).length - 1 = path.length - 1 + 1 := by
      rw [List.length_cons]
      omega
    rw [hindex, List.getD_cons_succ]
    simp only [List.length_cons, Nat.add_lt_add_iff_right]

end Along

section Walks

variable {R : Type} {git : Plumbing R} {r : R}

theorem readTree_ok (hg : git.Lawful) {oid : String} {budget : Nat} {p : List Entry × Nat}
    (h : readTree git r oid budget = .ok p) :
    ∃ l, git.trees r oid = some l ∧ p.1 = l.entries := by
  rw [readTree] at h
  cases hraw : git.lsTree r oid (min maxListing budget) with
  | error e =>
    rw [hraw] at h
    cases h
  | ok raw =>
    obtain ⟨l, hl, rfl⟩ := hg.lsTree hraw
    rw [hraw] at h
    simp only [parseTree_mktreeInput l.printable] at h
    cases h
    exact ⟨l, hl, rfl⟩

theorem descend_along (hg : git.Lawful) {level : List Entry} {comps : List String} {last : String}
    {i budget : Nat} {p : Walk × Nat} (h : descend git r level comps i budget = .ok p)
    (hb : p.1.blocker = none) :
    Along (git.trees r) level ((comps ++ [last]).map bytesOf) p.1.levels := by
  induction comps generalizing level i budget p with
  | nil =>
    cases h
    exact .last
  | cons c parents ih =>
    have hpath : (parents ++ [last]).map bytesOf ≠ [] := by simp
    rw [descend] at h
    cases hn : named level (bytesOf c) with
    | none =>
      rw [hn] at h
      cases h
      exact .missing hpath hn
    | some e =>
      rw [hn] at h
      simp only at h
      split_ifs at h with hkind
      · obtain ⟨next, hnext, h⟩ := bind_ok h
        obtain ⟨rest, hrest, h⟩ := bind_ok h
        cases h
        obtain ⟨l, hl, hentries⟩ := readTree_ok hg hnext
        have hsub := ih hrest hb
        rw [hentries] at hsub ⊢
        exact .down hpath hn hkind hl hsub
      · cases h
        cases hb

/-- The entries of a root tree, none for a branch that is not born yet. -/
def rootEntries (trees : Trees) (root : Option String) : List Entry :=
  ((root.bind trees).map Listing.entries).getD []

/-- A walk that met no obstacle: its levels are the listings along the path, and its leaf is what
is stored there. -/
structure Walked (trees : Trees) (root : Option String) (comps : List String) (w : Walk) :
    Prop where
  stored : ∀ t ∈ root, ∃ l, trees t = some l
  top : w.levels.headD [] = rootEntries trees root
  along : Along trees (rootEntries trees root) (comps.map bytesOf) w.levels.tail
  leaf : w.leaf comps = entryAt trees (rootEntries trees root) (comps.map bytesOf)

theorem walk_walked (hg : git.Lawful) {root : Option String} {comps : List String}
    (hne : comps ≠ []) {budget : Nat} {p : Walk × Nat} (h : walk git r root comps budget = .ok p)
    (hb : p.1.blocker = none) : Walked (git.trees r) root comps p.1 := by
  unfold walk at h
  obtain ⟨top, htop, h⟩ := bind_ok h
  obtain ⟨rest, hrest, h⟩ := bind_ok h
  cases h
  have hroot : (∀ t ∈ root, ∃ l, git.trees r t = some l) ∧
      top.1 = rootEntries (git.trees r) root := by
    cases root with
    | none =>
      cases htop
      exact ⟨by simp, rfl⟩
    | some t =>
      obtain ⟨l, hl, hentries⟩ := readTree_ok hg htop
      refine ⟨?_, ?_⟩
      · intro t' ht'
        cases ht'
        exact ⟨l, hl⟩
      · simp [rootEntries, hl, hentries]
  have halong := @descend_along R git r hg top.1 comps.dropLast (comps.getLast hne) 0 top.2 rest
    hrest hb
  rw [List.dropLast_append_getLast, hroot.2] at halong
  refine ⟨hroot.1, hroot.2, halong, ?_⟩
  rw [← halong.leaf, Walk.leaf]
  have hblock : rest.1.blocker.isSome = false := by
    rw [show rest.1.blocker = none from hb]
    rfl
  simp only [hblock, Bool.or_false, decide_eq_true_eq, List.length_cons, List.length_map,
    List.getLast?_map, hroot.2, Option.bind_map]
  rfl

theorem rootEntries_keeps {trees trees' : Trees} {root : Option String}
    (hs : ∀ t ∈ root, ∃ l, trees t = some l) (hk : Keeps trees trees') :
    rootEntries trees' root = rootEntries trees root := by
  cases root with
  | none => rfl
  | some t =>
    obtain ⟨l, hl⟩ := hs t rfl
    simp [rootEntries, hl, hk _ _ hl]

theorem Walked.keeps {trees trees' : Trees} {root : Option String} {comps : List String} {w : Walk}
    (h : Walked trees root comps w) (hk : Keeps trees trees') : Walked trees' root comps w := by
  have hroot := rootEntries_keeps h.stored hk
  have halong : Along trees' (rootEntries trees' root) (comps.map bytesOf) w.levels.tail := by
    rw [hroot]
    exact h.along.keeps hk
  refine ⟨fun t ht => ?_, by rw [h.top, hroot], halong, ?_⟩
  · obtain ⟨l, hl⟩ := h.stored t ht
    exact ⟨l, hk _ _ hl⟩
  · rw [h.leaf, ← h.along.leaf, ← halong.leaf, hroot]

/-- A regular file with the id that a request names. -/
structure IsFile (given : String) (e : Entry) : Prop where
  kind : e.kind = "blob"
  mode : e.mode = "100644" ∨ e.mode = "100755"
  oid : e.oid = given

theorem checkFile_ok {given : String} {leaf : Option Entry} {prev : Option String}
    (h : checkFile given leaf = .ok prev) :
    ∃ e, leaf = some e ∧ IsFile given e ∧ prev = some e.mode := by
  cases leaf with
  | none => cases h
  | some e =>
    rw [checkFile] at h
    split_ifs at h with hregular hsha
    cases h
    refine ⟨e, rfl, ⟨?_, ?_, not_not.mp hsha⟩, rfl⟩
    · by_contra hkind
      exact hregular (.inl hkind)
    · by_contra hmode
      exact hregular (.inr (not_or.mp hmode))

/-- What an accepted check has seen. -/
theorem check_ok {op : Op} {comps : List String} {walked : Walk} {prev : Option String}
    (h : check op comps walked = .ok prev) :
    walked.blocker = none ∧ ((op = .create ∧ walked.leaf comps = none ∧ prev = none) ∨
      ∃ given e, (op = .update given ∨ op = .delete given) ∧ walked.leaf comps = some e ∧
        IsFile given e ∧ prev = some e.mode) := by
  unfold check at h
  cases hb : walked.blocker with
  | some i =>
    rw [hb] at h
    cases op <;> cases h
  | none =>
    refine ⟨rfl, ?_⟩
    rw [hb] at h
    cases op with
    | create =>
      simp only at h
      cases hl : walked.leaf comps with
      | some e => simp [hl] at h
      | none =>
        simp only [hl, Except.ok.injEq] at h
        exact .inl ⟨rfl, rfl, h.symm⟩
    | update given =>
      obtain ⟨e, hl, hfile, hprev⟩ := checkFile_ok h
      exact .inr ⟨given, e, .inl rfl, hl, hfile, hprev⟩
    | delete given =>
      obtain ⟨e, hl, hfile, hprev⟩ := checkFile_ok h
      exact .inr ⟨given, e, .inr rfl, hl, hfile, hprev⟩

end Walks

/-! ## What the rewrite stores -/

/-- The entry that a write puts at the path, none for a deletion. -/
def fileEntry (comps : List String) (file : Option (String × String)) : Option Entry :=
  file.map (fun f => ⟨f.1, "blob", f.2, bytesOf (comps.getLastD "")⟩)

section Rebuild

variable {R : Type} {git : Plumbing R} {r r' : R} {file : Option (String × String)}

theorem well_rootEntries (trees : Trees) (root : Option String) :
    Well (rootEntries trees root) := by
  rw [rootEntries]
  cases root.bind trees with
  | none => exact well_nil
  | some l => exact l.well

theorem writeTree_ok (hg : git.Lawful) {entries : List Entry} (hw : Well entries) {oid : String}
    (h : writeTree git entries r = .ok oid r') :
    (∃ l, git.trees r' oid = some l ∧ l.entries.Perm entries) ∧ Token oid ∧
      Keeps (git.trees r) (git.trees r') := by
  rw [writeTree] at h
  cases hrun : git.mktree (mktreeInput entries) r with
  | ok out r₁ =>
    rw [hrun] at h
    cases h
    exact ⟨@hg.mktree ⟨entries, hw.1, hw.2⟩ _ _ _ hrun, hg.mktree_id hrun, hg.mktree_keeps hrun⟩
  | error e r₁ =>
    rw [hrun] at h
    cases e <;> cases h

theorem token_blob : Token "blob" := ⟨by decide, by decide, by decide⟩

theorem token_tree : Token "tree" := ⟨by decide, by decide, by decide⟩

theorem token_dirMode : Token "040000" := ⟨by decide, by decide, by decide⟩

theorem printable_dirEntry {oid : String} {name : Bytes} (hoid : Token oid) (hname : 0 ∉ name) :
    (dirEntry oid name).Printable :=
  ⟨token_dirMode, token_tree, hoid, hname⟩

theorem rebuildBelow_rebuilt (hg : git.Lawful) (hfile : ∀ f ∈ file, Token f.1 ∧ Token f.2)
    {comps : List String} {dir : String} (hcomps : ∀ c ∈ dir :: comps, 0 ∉ bytesOf c)
    {entries : List Entry} (hw : Well entries) {levels : List (List Entry)}
    (halong : Along (git.trees r) entries ((dir :: comps).map bytesOf) levels)
    {child : Option Entry} (h : rebuildBelow git file levels (dir :: comps) r = .ok child r') :
    Keeps (git.trees r) (git.trees r') ∧ (∀ e ∈ child, e.name = bytesOf dir ∧ e.Printable) ∧
      ∀ later, Keeps (git.trees r') later →
        Rebuilt later (fileEntry (dir :: comps) file) entries ((dir :: comps).map bytesOf)
          (rewrite entries (bytesOf dir) child) := by
  induction comps generalizing dir entries levels r r' child with
  | nil =>
    cases h
    have hchild : ∀ e ∈ fileEntry [dir] file, e.name = bytesOf dir ∧ e.Printable := by
      intro e he
      cases file with
      | none => cases he
      | some f =>
        cases he
        exact ⟨rfl, (hfile f rfl).1, token_blob, (hfile f rfl).2, hcomps dir (by simp)⟩
    exact ⟨.refl _, hchild, fun later _ => .last (fun e he => (hchild e he).1)⟩
  | cons c comps ih =>
    have hpath : (c :: comps).map bytesOf ≠ [] := by simp
    obtain ⟨hhead, hsub⟩ := halong.next hpath
    unfold rebuildBelow at h
    obtain ⟨sub, r₁, hrun, h⟩ := state_bind_ok h
    obtain ⟨hkeep₁, hchild₁, hrebuilt⟩ := ih (fun x hx => hcomps x (List.mem_cons_of_mem _ hx))
      (well_subdir _ _ _) hsub hrun
    rw [← hhead] at hrebuilt
    -- the directory reads the same in every repository that has grown from this one
    have hlater : ∀ later, Keeps (git.trees r) later →
        subdir later entries (bytesOf dir) = levels.headD [] :=
      fun later hk => ((halong.keeps hk).next hpath).1.symm
    dsimp only at h
    split_ifs at h with hempty
    · cases h
      refine ⟨hkeep₁, by simp, fun later hk => ?_⟩
      refine .emptied hpath ?_
      have hin := hrebuilt later hk
      rw [List.isEmpty_iff.mp hempty, ← hlater later (hkeep₁.trans hk)] at hin
      exact hin
    · obtain ⟨oid, r₂, hwrite, h⟩ := state_bind_ok h
      cases h
      have hwell : Well (rewrite (levels.headD []) (bytesOf c) sub) := by
        rw [hhead]
        exact (well_subdir _ _ _).rewrite (fun e he => (hchild₁ e he).1)
          (fun e he => (hchild₁ e he).2)
      obtain ⟨⟨l, hl, hperm⟩, hoid, hkeep₂⟩ := writeTree_ok hg hwell hwrite
      refine ⟨hkeep₁.trans hkeep₂, ?_, fun later hk => ?_⟩
      · intro e he
        cases he
        exact ⟨rfl, printable_dirEntry hoid (hcomps dir (by simp))⟩
      · have hin := hrebuilt later (hkeep₂.trans hk)
        have hne : rewrite (levels.headD []) (bytesOf c) sub ≠ [] := by simpa using hempty
        rw [← hlater later (hkeep₁.trans (hkeep₂.trans hk))] at hin hperm hne
        exact .stored hpath hin hne (hk _ _ hl) hperm

/-- What a write does to a tree, both read in a repository that has all of their parts: one path
gets `file` or loses what it had, every entry that is not on the way to it is the one that was
there, and of the directories on the way those stay that have something left in them. -/
structure Changed (trees : Trees) (old new : List Entry) (path : List Bytes)
    (file : Option Entry) : Prop where
  flat : ∀ q, flatten trees new q = if q = path then file else flatten trees old q
  elsewhere : ∀ q, ¬ q <+: path → entryAt trees new q = entryAt trees old q
  onTheWay : ∀ q e, q <+: path → q ≠ path → entryAt trees new q = some e →
    e.kind = "tree" ∧ e.mode = "040000" ∧ children trees e ≠ []

theorem Rebuilt.changed {trees : Trees} {entries entries' : List Entry} {path : List Bytes}
    {levels : List (List Entry)} {file : Option Entry}
    (h : Rebuilt trees file entries path entries') (halong : Along trees entries path levels)
    (hfile : ∀ e ∈ file, e.kind ≠ "tree")
    (hleaf : ∀ e, entryAt trees entries path = some e → e.kind ≠ "tree") :
    Changed trees entries entries' path file := by
  refine ⟨fun q => ?_, fun q hq => h.elsewhere hfile hleaf hq,
    fun q e hq hne he => h.onTheWay hq hne he⟩
  split_ifs with hq
  · rw [hq, flatten, h.here]
    cases file with
    | none => rfl
    | some e => simp [hfile e rfl]
  · by_cases hpre : q <+: path
    · have hgone : ∀ es, (∀ e, entryAt trees es q = some e → e.kind = "tree") →
          flatten trees es q = none := by
        intro es hes
        rw [flatten]
        cases he : entryAt trees es q with
        | none => rfl
        | some e => simp [hes e he]
      rw [hgone _ (fun e he => (h.onTheWay hpre hq he).1),
        hgone _ (fun e he => halong.dirs hpre hq he)]
    · rw [flatten, flatten, h.elsewhere hfile hleaf hpre]

theorem Changed.of_entryAt {trees : Trees} {old new new' : List Entry} {path : List Bytes}
    {file : Option Entry} (h : Changed trees old new path file)
    (hsame : ∀ q, entryAt trees new' q = entryAt trees new q) :
    Changed trees old new' path file := by
  refine ⟨fun q => ?_, fun q hq => ?_, fun q e hq hne he => ?_⟩
  · rw [flatten, hsame]
    exact h.flat q
  · rw [hsame]
    exact h.elsewhere q hq
  · rw [hsame] at he
    exact h.onTheWay q e hq hne he

/-- The tree that `rebuild` writes after a walk, in every repository grown from what it leaves. -/
theorem rebuild_changed (hg : git.Lawful) (hfile : ∀ f ∈ file, Token f.1 ∧ Token f.2)
    {comps : List String} (hne : comps ≠ []) (hcomps : ∀ c ∈ comps, 0 ∉ bytesOf c)
    {root : Option String} {w : Walk} (hw : Walked (git.trees r) root comps w)
    (hleaf : ∀ e, entryAt (git.trees r) (rootEntries (git.trees r) root) (comps.map bytesOf) =
      some e → e.kind ≠ "tree")
    {tree : String} (h : rebuild git w comps file r = .ok tree r') :
    Keeps (git.trees r) (git.trees r') ∧ ∀ later, Keeps (git.trees r') later →
      ∃ l, later tree = some l ∧ Changed later (rootEntries later root) l.entries
        (comps.map bytesOf) (fileEntry comps file) := by
  cases comps with
  | nil => exact absurd rfl hne
  | cons c comps =>
    unfold rebuild at h
    obtain ⟨child, r₁, hrun, h⟩ := state_bind_ok h
    obtain ⟨hkeep₁, hchild, hrebuilt⟩ := rebuildBelow_rebuilt hg hfile hcomps
      (well_rootEntries _ _) hw.along hrun
    rw [hw.top] at h
    have hwell : Well (rewrite (rootEntries (git.trees r) root) (bytesOf c) child) :=
      (well_rootEntries _ _).rewrite (fun e he => (hchild e he).1) (fun e he => (hchild e he).2)
    obtain ⟨⟨l, hl, hperm⟩, -, hkeep₂⟩ := writeTree_ok hg hwell h
    refine ⟨hkeep₁.trans hkeep₂, fun later hk => ⟨l, hk _ _ hl, ?_⟩⟩
    have hgrown := hw.keeps (hkeep₁.trans (hkeep₂.trans hk))
    have hin := hrebuilt later (hkeep₂.trans hk)
    have hfile' : ∀ e ∈ fileEntry (c :: comps) file, e.kind ≠ "tree" := by
      intro e he
      cases file with
      | none => cases he
      | some f =>
        cases he
        simp
    rw [hw.leaf.symm.trans hgrown.leaf] at hleaf
    rw [← rootEntries_keeps hw.stored (hkeep₁.trans (hkeep₂.trans hk))] at hin hperm
    exact (Rebuilt.changed hin hgrown.along hfile' hleaf).of_entryAt
      (fun q => entryAt_perm l.distinct hperm)

end Rebuild

end SrcControl.GitWrite
