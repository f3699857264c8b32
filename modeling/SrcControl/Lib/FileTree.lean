import Mathlib.Data.List.Induction
import Mathlib.Tactic.Common

/-!
# A tree of files, directories and symbolic links

A disk maps absolute locations to nodes, and whatever stands at a location stands in
a directory. A call names a location by a starting directory and a relative path;
finding it follows the symbolic links on the way, and fails as the kernel does. Where
no link lies on the way, a call acts at the literal location and nowhere else.
-/

namespace SrcControl.FileTree

abbrev Path (ν : Type) := List ν

/-- A component of a link's text. -/
inductive Hop (ν : Type)
  | down (name : ν)
  | up
deriving DecidableEq, Repr

structure Link (ν : Type) where
  absolute : Bool
  hops : List (Hop ν)
deriving DecidableEq, Repr

inductive Node (ν β : Type)
  | file (content : β)
  | symlink (link : Link ν)
  | dir
deriving DecidableEq, Repr

inductive Fault
  | notFound
  | notADirectory
  | isADirectory
  | alreadyExists
  | notEmpty
  | tooManyLinks
deriving DecidableEq, Repr

namespace Node

variable {ν β : Type}

def isDir : Node ν β → Bool
  | .dir => true
  | _ => false

def isFile : Node ν β → Bool
  | .file _ => true
  | _ => false

def isSymlink : Node ν β → Bool
  | .symlink _ => true
  | _ => false

@[simp] theorem isDir_iff {n : Node ν β} : n.isDir = true ↔ n = .dir := by cases n <;> simp [isDir]

@[simp] theorem isFile_iff {n : Node ν β} : n.isFile = true ↔ ∃ c, n = .file c := by
  cases n <;> simp [isFile]

@[simp] theorem isSymlink_iff {n : Node ν β} : n.isSymlink = true ↔ ∃ l, n = .symlink l := by
  cases n <;> simp [isSymlink]

end Node

variable {ν β : Type} [DecidableEq ν]

/-- What a list of entries has at a location; the topmost directory is always there. -/
def find (entries : List (Path ν × Node ν β)) (p : Path ν) : Option (Node ν β) :=
  if p = [] then some .dir else entries.lookup p

theorem lookup_filter {entries : List (Path ν × Node ν β)} {keep : Path ν → Bool} {q : Path ν} :
    (entries.filter (fun e => keep e.1)).lookup q = if keep q then entries.lookup q else none := by
  induction entries with
  | nil => simp
  | cons e entries ih =>
    obtain ⟨p, n⟩ := e
    by_cases hq : q = p
    · subst hq
      cases hk : keep q with
      | false =>
        rw [List.filter_cons_of_neg (by simp [hk]), ih, hk]
        simp
      | true =>
        rw [List.filter_cons_of_pos (by simp [hk]), List.lookup_cons, List.lookup_cons]
        simp
    · have hne : (q == p) = false := beq_false_of_ne hq
      cases hk : keep p with
      | false => rw [List.filter_cons_of_neg (by simp [hk]), ih, List.lookup_cons, hne]
      | true =>
        rw [List.filter_cons_of_pos (by simp [hk]), List.lookup_cons, List.lookup_cons, hne, ih]

theorem find_filter {entries : List (Path ν × Node ν β)} (keep : Path ν → Bool) {q : Path ν}
    (hq : q ≠ []) :
    find (entries.filter (fun e => keep e.1)) q = if keep q then find entries q else none := by
  simp only [find, if_neg hq, lookup_filter]

theorem find_cons {entries : List (Path ν × Node ν β)} {p q : Path ν} {n : Node ν β}
    (hq : q ≠ []) : find ((p, n) :: entries) q = if q = p then some n else find entries q := by
  simp only [find, if_neg hq, List.lookup_cons]
  by_cases h : q = p
  · simp [h]
  · simp [h, beq_false_of_ne h]

theorem mem_keys_of_lookup {entries : List (Path ν × Node ν β)} {q : Path ν} :
    entries.lookup q ≠ none ↔ q ∈ entries.map (·.1) := by
  induction entries with
  | nil => simp
  | cons e entries ih =>
    obtain ⟨p, n⟩ := e
    by_cases hq : q = p
    · simp [hq]
    · rw [List.lookup_cons, beq_false_of_ne hq, List.map_cons, List.mem_cons, ← ih]
      simp [hq]

/-- A tree of nodes: everything stands in a directory. -/
structure Disk (ν β : Type) [DecidableEq ν] where
  entries : List (Path ν × Node ν β)
  closed : ∀ p name, find entries (p ++ [name]) ≠ none → find entries p = some .dir

namespace Disk

def node (d : Disk ν β) (p : Path ν) : Option (Node ν β) := find d.entries p

def dirAt (d : Disk ν β) (p : Path ν) : Bool := (d.node p).any Node.isDir

theorem dirAt_iff {d : Disk ν β} {p : Path ν} : d.dirAt p = true ↔ d.node p = some .dir := by
  unfold dirAt
  cases d.node p with
  | none => simp
  | some n => simp

@[simp] theorem node_nil (d : Disk ν β) : d.node [] = some .dir := rfl

theorem parent_dir {d : Disk ν β} {p : Path ν} {name : ν} (h : d.node (p ++ [name]) ≠ none) :
    d.node p = some .dir := d.closed p name h

/-- Everything above something is a directory. -/
theorem dir_above {d : Disk ν β} {p r : Path ν} (h : d.node (p ++ r) ≠ none) (hr : r ≠ []) :
    d.node p = some .dir := by
  induction r using List.reverseRecOn with
  | nil => exact absurd rfl hr
  | append_singleton r name ih =>
    rw [← List.append_assoc] at h
    have hpr := parent_dir h
    by_cases hnil : r = []
    · rwa [hnil, List.append_nil] at hpr
    · exact ih (by rw [hpr]; simp) hnil

/-- Nothing stands below what is not a directory. -/
theorem none_below {d : Disk ν β} {p r : Path ν} (h : d.node p ≠ some .dir) (hr : r ≠ []) :
    d.node (p ++ r) = none := by
  by_contra hne
  exact h (dir_above hne hr)

/-- Where the things strictly below `p` stand, relative to it. -/
def below (d : Disk ν β) (p : Path ν) : List (Path ν) :=
  (d.entries.map (·.1)).filterMap (fun q => if p <+: q ∧ q ≠ p then some (q.drop p.length) else none)

theorem mem_below {d : Disk ν β} {p r : Path ν} :
    r ∈ d.below p ↔ r ≠ [] ∧ d.node (p ++ r) ≠ none := by
  have hkey : ∀ q : Path ν, q ≠ [] → (q ∈ d.entries.map (·.1) ↔ d.node q ≠ none) := by
    intro q hq
    rw [node, find, if_neg hq, mem_keys_of_lookup]
  simp only [below, List.mem_filterMap]
  constructor
  · rintro ⟨q, hq, hsome⟩
    split at hsome
    · next h =>
      obtain ⟨⟨t, rfl⟩, hne⟩ := h
      rw [List.drop_left, Option.some.injEq] at hsome
      subst hsome
      have ht : t ≠ [] := fun ht => hne (by rw [ht, List.append_nil])
      exact ⟨ht, (hkey _ (by simp [ht])).mp hq⟩
    · cases hsome
  · rintro ⟨hr, hn⟩
    refine ⟨p ++ r, (hkey _ (by simp [hr])).mpr hn, ?_⟩
    rw [if_pos ⟨List.prefix_append p r, by simpa using hr⟩, List.drop_left]

/-- `p` goes, and everything below it. -/
def cut (d : Disk ν β) (p : Path ν) : Disk ν β where
  entries := d.entries.filter (fun e => !decide (p <+: e.1 ∧ p ≠ []))
  closed := by
    intro q name h
    have hne : q ++ [name] ≠ [] := by simp
    rw [find_filter (fun q => !decide (p <+: q ∧ p ≠ [])) hne] at h
    split at h
    · next hk =>
      have hq := d.closed q name h
      by_cases hnil : q = []
      · simp [find, hnil]
      · rw [find_filter (fun q => !decide (p <+: q ∧ p ≠ [])) hnil, if_pos, hq]
        simp only [Bool.not_eq_true', decide_eq_false_iff_not, not_and_or, not_not] at hk ⊢
        exact hk.imp_left (fun hk hp => hk (hp.trans (List.prefix_append q [name])))
    · exact absurd rfl h

theorem node_cut {d : Disk ν β} {p q : Path ν} (hp : p ≠ []) :
    (d.cut p).node q = if p <+: q then none else d.node q := by
  by_cases hq : q = []
  · subst hq
    simp [hp]
  · rw [node, cut, find_filter (fun q => !decide (p <+: q ∧ p ≠ [])) hq]
    by_cases h : p <+: q <;> simp [h, hp, node]

/-- Put a node at a location whose directory exists; a leaf only where nothing hangs below. -/
def put (d : Disk ν β) (p : Path ν) (n : Node ν β) (hdir : d.node p.dropLast = some .dir)
    (hleaf : n ≠ .dir → d.node p ≠ some .dir) : Disk ν β where
  entries := (p, n) :: d.entries
  closed := by
    intro q name h
    have hne : q ++ [name] ≠ [] := by simp
    rw [find_cons hne] at h
    by_cases hnil : q = []
    · simp [find, hnil]
    rw [find_cons hnil]
    by_cases hqp : q = p
    · rw [if_pos hqp]
      subst hqp
      rw [if_neg (by simp)] at h
      by_contra hn
      exact hleaf (fun hd => hn (by rw [hd])) (d.closed q name h)
    · rw [if_neg hqp]
      by_cases hp : q ++ [name] = p
      · subst hp
        rwa [List.dropLast_concat] at hdir
      · rw [if_neg hp] at h
        exact d.closed q name h

theorem node_put {d : Disk ν β} {p q : Path ν} {n : Node ν β} {hdir : d.node p.dropLast = some .dir}
    {hleaf : n ≠ .dir → d.node p ≠ some .dir} (hp : p ≠ []) :
    (d.put p n hdir hleaf).node q = if q = p then some n else d.node q := by
  by_cases hq : q = []
  · subst hq
    rw [if_neg (Ne.symm hp)]
    rfl
  · exact find_cons hq

/-! ## Finding a location -/

/-- Walk `hops` from the directory `here`; `link` goes on where a link is met before the end. -/
def advance (d : Disk ν β) (link : Path ν → List (Hop ν) → Except Fault (Path ν)) :
    Path ν → List (Hop ν) → Except Fault (Path ν)
  | here, [] => .ok here
  | here, .up :: rest => advance d link here.dropLast rest
  | here, .down name :: rest =>
    if rest = [] then .ok (here ++ [name])
    else match d.node (here ++ [name]) with
      | none => .error .notFound
      | some (.file _) => .error .notADirectory
      | some (.symlink l) => link (if l.absolute then [] else here) (l.hops ++ rest)
      | some .dir => advance d link (here ++ [name]) rest

/-- Where `hops` lead, through at most the given number of links; a link at the end is not
followed. -/
def resolve (d : Disk ν β) : Nat → Path ν → List (Hop ν) → Except Fault (Path ν)
  | 0 => advance d (fun _ _ => .error .tooManyLinks)
  | links + 1 => advance d (resolve d links)

/-- How many links a lookup follows. -/
def maxLinks : Nat := 40

/-- The location of `rel`, started at `root`; a link at the end is not followed. -/
def locate (d : Disk ν β) (root rel : Path ν) : Except Fault (Path ν) :=
  resolve d maxLinks root (rel.map .down)

/-- Follow the links that stand at `p` itself. -/
def target (d : Disk ν β) : Nat → Path ν → Except Fault (Path ν)
  | 0, p => match d.node p with
    | some (.symlink _) => .error .tooManyLinks
    | _ => .ok p
  | links + 1, p => match d.node p with
    | some (.symlink l) => do
      target d links (← resolve d links (if l.absolute then [] else p.dropLast) l.hops)
    | _ => .ok p

/-- No link lies on the way from `root` to `rel`. -/
def Plain (d : Disk ν β) (root rel : Path ν) : Prop :=
  ∀ r s, rel = r ++ s → s ≠ [] → ∀ l, d.node (root ++ r) ≠ some (.symlink l)

/-- `d.node` as seen by a call that does not follow a link at the end. -/
def lstat (d : Disk ν β) (root rel : Path ν) : Except Fault (Node ν β) := do
  let p ← locate d root rel
  match d.node p with
  | none => .error .notFound
  | some n => .ok n

/-- The same through a link at the end. -/
def stat (d : Disk ν β) (root rel : Path ν) : Except Fault (Node ν β) := do
  let p ← target d maxLinks (← locate d root rel)
  match d.node p with
  | none => .error .notFound
  | some n => .ok n

/-- Delete a file or a link. -/
def unlink (d : Disk ν β) (root rel : Path ν) : Except Fault (Disk ν β) := do
  let p ← locate d root rel
  match d.node p with
  | none => .error .notFound
  | some .dir => .error .isADirectory
  | some _ => .ok (d.cut p)

def mkdir (d : Disk ν β) (root rel : Path ν) : Except Fault (Disk ν β) := do
  let p ← locate d root rel
  match d.node p with
  | some _ => .error .alreadyExists
  | none =>
    if hdir : d.dirAt p.dropLast = true then
      .ok (d.put p .dir (dirAt_iff.mp hdir) (fun h => absurd rfl h))
    else .error .notFound

/-- Create or truncate the file at `rel`, through a link that stands there, and fill it. -/
def write (d : Disk ν β) (root rel : Path ν) (content : β) : Except Fault (Disk ν β) := do
  let p ← target d maxLinks (← locate d root rel)
  if hdir : d.dirAt p.dropLast = true then
    if hleaf : d.dirAt p = true then .error .isADirectory
    else .ok (d.put p (.file content) (dirAt_iff.mp hdir) (fun _ h => hleaf (dirAt_iff.mpr h)))
  else .error .notFound

/-- Delete the directory at `rel` bottom up; it must hold directories only. -/
def prune (d : Disk ν β) (root rel : Path ν) : Except Fault (Disk ν β) := do
  let p ← locate d root rel
  if p = [] then .error .notEmpty
  else if (d.below p).all (fun r => d.dirAt (p ++ r)) then .ok (d.cut p)
  else .error .notEmpty

/-- Whether `rel` leads to a directory, through links too. -/
def leadsToDir (d : Disk ν β) (root rel : Path ν) : Bool := (d.stat root rel).toOption.any Node.isDir

/-- `mkdir`, content with a directory that is there already. -/
def ensureDir (root rel : Path ν) : EStateM Fault (Disk ν β) Unit := fun d =>
  match d.mkdir root rel with
  | .ok d' => .ok () d'
  | .error e => if d.leadsToDir root rel then .ok () d else .error e d

/-- Make `rel` (given deepest component first) and the directories above it that are missing.
What was made before a failure stays. -/
def mkdirAll (root : Path ν) : List ν → EStateM Fault (Disk ν β) Unit
  | [] => pure ()
  | name :: above => fun d =>
    if d.mkdir root (name :: above).reverse matches .error .notFound then
      (do mkdirAll root above; ensureDir root (name :: above).reverse) d
    else ensureDir root (name :: above).reverse d

/-! ## Calls at plain locations -/

theorem Plain.above {d : Disk ν β} {root r s : Path ν} (h : Plain d root (r ++ s)) :
    Plain d root r := by
  intro a b hab hb l
  exact h a (b ++ s) (by rw [hab, List.append_assoc]) (by simp [hb]) l

theorem advance_plain {d : Disk ν β} {link : Path ν → List (Hop ν) → Except Fault (Path ν)}
    {rel root : Path ν} (hp : Plain d root rel) (hroot : d.node root = some .dir) :
    advance d link root (rel.map .down) = .ok (root ++ rel) ∨
      (d.node (root ++ rel) = none ∧ (advance d link root (rel.map .down) = .error .notFound ∨
        advance d link root (rel.map .down) = .error .notADirectory)) := by
  induction rel generalizing root with
  | nil => exact .inl (by simp [advance])
  | cons name rest ih =>
    by_cases hnil : rest = []
    · subst hnil
      exact .inl (by simp [advance])
    have hne : (rest.map Hop.down : List (Hop ν)) ≠ [] := by simpa using hnil
    have happ : root ++ name :: rest = (root ++ [name]) ++ rest := by simp
    simp only [List.map_cons, advance, if_neg hne]
    cases hn : d.node (root ++ [name]) with
    | none =>
      refine .inr ⟨?_, .inl rfl⟩
      rw [happ]
      exact none_below (by rw [hn]; simp) hnil
    | some n =>
      cases n with
      | file c =>
        refine .inr ⟨?_, .inr rfl⟩
        rw [happ]
        exact none_below (by rw [hn]; simp) hnil
      | symlink l => exact absurd hn (hp [name] rest rfl hnil l)
      | dir =>
        rw [happ]
        refine ih (fun r s hrs hs l => ?_) hn
        rw [List.append_assoc]
        exact hp (name :: r) s (by rw [hrs]; rfl) hs l

section Plain

variable {d d' : Disk ν β} {root rel : Path ν}

theorem locate_plain (hp : Plain d root rel) (hroot : d.node root = some .dir) :
    d.locate root rel = .ok (root ++ rel) ∨ (d.node (root ++ rel) = none ∧
      (d.locate root rel = .error .notFound ∨ d.locate root rel = .error .notADirectory)) :=
  advance_plain hp hroot

theorem lstat_plain (hp : Plain d root rel) (hroot : d.node root = some .dir) :
    (d.lstat root rel).toOption = d.node (root ++ rel) := by
  rcases locate_plain hp hroot with h | ⟨hnone, h | h⟩
  · simp only [lstat, h, bind, Except.bind]
    cases d.node (root ++ rel) <;> rfl
  · simp [lstat, h, hnone, bind, Except.bind, Except.toOption]
  · simp [lstat, h, hnone, bind, Except.bind, Except.toOption]

theorem lstat_eq_ok_iff (hp : Plain d root rel) (hroot : d.node root = some .dir) {n : Node ν β} :
    d.lstat root rel = .ok n ↔ d.node (root ++ rel) = some n := by
  rw [← lstat_plain hp hroot]
  cases d.lstat root rel <;> simp [Except.toOption]

theorem unlink_plain (hp : Plain d root rel) (hroot : d.node root = some .dir)
    (h : d.unlink root rel = .ok d') :
    (∃ n, d.node (root ++ rel) = some n ∧ n ≠ .dir) ∧
      ∀ q, d'.node q = if q = root ++ rel then none else d.node q := by
  have hloc : d.locate root rel = .ok (root ++ rel) := by
    rcases locate_plain hp hroot with hl | ⟨-, hl | hl⟩
    · exact hl
    · simp [unlink, hl, bind, Except.bind] at h
    · simp [unlink, hl, bind, Except.bind] at h
  simp only [unlink, hloc, bind, Except.bind] at h
  have hnode : ∃ n, d.node (root ++ rel) = some n ∧ n ≠ .dir ∧ d' = d.cut (root ++ rel) := by
    split at h
    · cases h
    · cases h
    · next n hdir hn =>
      exact ⟨n, hn, hdir, (Except.ok.inj h).symm⟩
  obtain ⟨n, hn, hdir, rfl⟩ := hnode
  have hne : root ++ rel ≠ [] := by
    intro hnil
    rw [hnil, node_nil] at hn
    exact hdir (Option.some.inj hn).symm
  refine ⟨⟨n, hn, hdir⟩, fun q => ?_⟩
  rw [node_cut hne]
  by_cases hq : q = root ++ rel
  · simp [hq]
  · rw [if_neg hq]
    split
    · next hpre =>
      obtain ⟨t, rfl⟩ := hpre
      have ht : t ≠ [] := fun ht => hq (by rw [ht, List.append_nil])
      exact (none_below (by rw [hn]; simpa using hdir) ht).symm
    · rfl

theorem unlink_notFound (hp : Plain d root rel) (hroot : d.node root = some .dir)
    (h : d.unlink root rel = .error .notFound) : d.node (root ++ rel) = none := by
  rcases locate_plain hp hroot with hl | ⟨hnone, -⟩
  · simp only [unlink, hl, bind, Except.bind] at h
    split at h
    · next hn => exact hn
    · cases h
    · cases h
  · exact hnone

theorem mkdir_plain (hp : Plain d root rel) (hroot : d.node root = some .dir)
    (h : d.mkdir root rel = .ok d') :
    d.node (root ++ rel) = none ∧ ∀ q, d'.node q = if q = root ++ rel then some .dir else d.node q := by
  have hloc : d.locate root rel = .ok (root ++ rel) := by
    rcases locate_plain hp hroot with hl | ⟨-, hl | hl⟩
    · exact hl
    · simp [mkdir, hl, bind, Except.bind] at h
    · simp [mkdir, hl, bind, Except.bind] at h
  simp only [mkdir, hloc, bind, Except.bind] at h
  split at h
  · cases h
  · next hn =>
    split at h
    · cases h
      have hne : root ++ rel ≠ [] := by
        intro hnil
        rw [hnil, node_nil] at hn
        cases hn
      exact ⟨hn, fun q => node_put hne⟩
    · cases h

theorem target_plain {p : Path ν} (h : ∀ l, d.node p ≠ some (.symlink l)) (links : Nat) :
    d.target links p = .ok p := by
  cases links <;>
  · unfold target
    split
    · next hl => exact absurd hl (h _)
    · rfl

theorem write_plain {content : β} (hp : Plain d root rel) (hroot : d.node root = some .dir)
    (hlink : ∀ l, d.node (root ++ rel) ≠ some (.symlink l)) (h : d.write root rel content = .ok d') :
    d.node (root ++ rel) ≠ some .dir ∧
      ∀ q, d'.node q = if q = root ++ rel then some (.file content) else d.node q := by
  have htarget := target_plain hlink maxLinks
  have hloc : d.locate root rel = .ok (root ++ rel) := by
    rcases locate_plain hp hroot with hl | ⟨-, hl | hl⟩
    · exact hl
    · simp [write, hl, bind, Except.bind] at h
    · simp [write, hl, bind, Except.bind] at h
  simp only [write, hloc, htarget, bind, Except.bind] at h
  split at h
  · split at h
    · cases h
    · next hdir hleaf =>
      cases h
      have hne : root ++ rel ≠ [] := by
        intro hnil
        exact hleaf (dirAt_iff.mpr (by rw [hnil, node_nil]))
      exact ⟨fun hd => hleaf (dirAt_iff.mpr hd), fun q => node_put hne⟩
  · cases h

theorem prune_plain (hp : Plain d root rel) (hroot : d.node root = some .dir)
    (h : d.prune root rel = .ok d') :
    (∀ r, r ≠ [] → d.node (root ++ rel ++ r) ≠ none → d.node (root ++ rel ++ r) = some .dir) ∧
      ∀ q, d'.node q = if root ++ rel <+: q then none else d.node q := by
  have hloc : d.locate root rel = .ok (root ++ rel) := by
    rcases locate_plain hp hroot with hl | ⟨-, hl | hl⟩
    · exact hl
    · simp [prune, hl, bind, Except.bind] at h
    · simp [prune, hl, bind, Except.bind] at h
  simp only [prune, hloc, bind, Except.bind] at h
  split at h
  · cases h
  · next hne =>
    split at h
    · next hall =>
      cases h
      refine ⟨fun r hr hn => ?_, fun q => node_cut hne⟩
      exact dirAt_iff.mp (List.all_eq_true.mp hall r (mem_below.mpr ⟨hr, hn⟩))
    · cases h

/-- A directory of directories can be pruned. -/
theorem prune_ok (hp : Plain d root rel) (hroot : d.node root = some .dir) (hne : root ++ rel ≠ [])
    (hat : d.node (root ++ rel) ≠ none) (hdirs : ∀ r, r ≠ [] → d.node (root ++ rel ++ r) ≠ none →
      d.node (root ++ rel ++ r) = some .dir) : ∃ d', d.prune root rel = .ok d' := by
  have hloc : d.locate root rel = .ok (root ++ rel) := by
    rcases locate_plain hp hroot with hl | ⟨hnone, -⟩
    · exact hl
    · exact absurd hnone hat
  refine ⟨d.cut (root ++ rel), ?_⟩
  simp only [prune, hloc, bind, Except.bind]
  rw [if_neg hne, if_pos]
  refine List.all_eq_true.mpr (fun r hr => ?_)
  obtain ⟨hne, hn⟩ := mem_below.mp hr
  exact dirAt_iff.mpr (hdirs r hne hn)

theorem leadsToDir_plain (hp : Plain d root rel) (hroot : d.node root = some .dir)
    (hlink : ∀ l, d.node (root ++ rel) ≠ some (.symlink l)) :
    d.leadsToDir root rel = true ↔ d.node (root ++ rel) = some .dir := by
  rcases locate_plain hp hroot with hl | ⟨hnone, hl | hl⟩
  · simp only [leadsToDir, stat, hl, target_plain hlink maxLinks, bind, Except.bind]
    cases hn : d.node (root ++ rel) <;> simp [Except.toOption]
  · simp [leadsToDir, stat, hl, hnone, bind, Except.bind, Except.toOption]
  · simp [leadsToDir, stat, hl, hnone, bind, Except.bind, Except.toOption]

/-- `d'` is `d` with directories added on the way to `rel`. -/
def Grown (d d' : Disk ν β) (root rel : Path ν) : Prop :=
  ∀ q, d'.node q = d.node q ∨
    (d.node q = none ∧ d'.node q = some .dir ∧ ∃ r, r ≠ [] ∧ r <+: rel ∧ q = root ++ r)

theorem Grown.refl (d : Disk ν β) (root rel : Path ν) : Grown d d root rel := fun _ => .inl rfl

theorem Grown.trans {d₁ d₂ d₃ : Disk ν β} (h : Grown d₁ d₂ root rel) (h' : Grown d₂ d₃ root rel) :
    Grown d₁ d₃ root rel := by
  intro q
  rcases h' q with hq | ⟨hnone, hdir, hr⟩
  · rw [hq]
    exact h q
  · rcases h q with hq | ⟨-, hq, -⟩
    · exact .inr ⟨hq ▸ hnone, hdir, hr⟩
    · rw [hq] at hnone
      cases hnone

theorem Grown.mono {r : Path ν} (h : Grown d d' root r) (hr : r <+: rel) : Grown d d' root rel := by
  intro q
  exact (h q).imp_right (fun ⟨hn, hd, t, ht, htr, hq⟩ => ⟨hn, hd, t, ht, htr.trans hr, hq⟩)

theorem Grown.symlink_iff (h : Grown d d' root rel) {q : Path ν} {l : Link ν} :
    d'.node q = some (.symlink l) ↔ d.node q = some (.symlink l) := by
  rcases h q with hq | ⟨hn, hd, -⟩
  · rw [hq]
  · simp [hn, hd]

theorem Grown.plain {r : Path ν} (h : Grown d d' root rel) (hp : Plain d root r) :
    Plain d' root r := by
  intro a b hab hb l hl
  exact hp a b hab hb l (h.symlink_iff.mp hl)

theorem Grown.dir (h : Grown d d' root rel) {q : Path ν} (hq : d.node q = some .dir) :
    d'.node q = some .dir := by
  rcases h q with he | ⟨hn, -, -⟩
  · rwa [he]
  · rw [hq] at hn
    cases hn

/-- What a call that makes `rel` leaves: directories on the way, and at its success `rel` itself. -/
def Made (d : Disk ν β) (root rel : Path ν) : EStateM.Result Fault (Disk ν β) Unit → Prop
  | .ok _ d' => Grown d d' root rel ∧
      ((∀ l, d.node (root ++ rel) ≠ some (.symlink l)) → d'.node (root ++ rel) = some .dir)
  | .error _ d' => Grown d d' root rel

theorem ensureDir_made (hp : Plain d root rel) (hroot : d.node root = some .dir) :
    Made d root rel (ensureDir root rel d) := by
  unfold ensureDir
  cases hmk : d.mkdir root rel with
  | ok d' =>
    obtain ⟨hnone, hnode⟩ := mkdir_plain hp hroot hmk
    refine ⟨fun q => ?_, fun _ => by rw [hnode, if_pos rfl]⟩
    by_cases hq : q = root ++ rel
    · have hrel : rel ≠ [] := by
        rintro rfl
        rw [List.append_nil, hroot] at hnone
        cases hnone
      exact .inr ⟨hq ▸ hnone, by rw [hnode, if_pos hq], rel, hrel, List.prefix_rfl, hq⟩
    · exact .inl (by rw [hnode, if_neg hq])
  | error e =>
    by_cases hdir : d.leadsToDir root rel = true
    · simp only [if_pos hdir]
      exact ⟨.refl d root rel, fun hlink => (leadsToDir_plain hp hroot hlink).mp hdir⟩
    · simp only [if_neg hdir]
      exact .refl d root rel

theorem Made.after {d₁ : Disk ν β} (hg : Grown d d₁ root rel)
    {res : EStateM.Result Fault (Disk ν β) Unit} (h : Made d₁ root rel res) :
    Made d root rel res := by
  cases res with
  | ok u d' => exact ⟨hg.trans h.1, fun hlink => h.2 (fun l hl => hlink l (hg.symlink_iff.mp hl))⟩
  | error e d' => exact hg.trans h

/-- Whether it succeeds or not, `mkdirAll` only adds directories on the way. -/
theorem mkdirAll_made {rev : List ν} (hp : Plain d root rev.reverse)
    (hroot : d.node root = some .dir) : Made d root rev.reverse (mkdirAll root rev d) := by
  induction rev with
  | nil =>
    refine ⟨.refl d root _, fun _ => ?_⟩
    simpa using hroot
  | cons name above ih =>
    have hensure : ∀ d₁, Grown d d₁ root (name :: above).reverse →
        Made d root (name :: above).reverse (ensureDir root (name :: above).reverse d₁) :=
      fun d₁ hg => (ensureDir_made (hg.plain hp) (hg.dir hroot)).after hg
    have hpre : above.reverse <+: (name :: above).reverse := by
      rw [List.reverse_cons]
      exact List.prefix_append _ _
    have habove : Plain d root above.reverse := by
      rw [List.reverse_cons] at hp
      exact hp.above
    have hih := ih habove
    unfold mkdirAll
    split
    · change Made d root _ (EStateM.bind (mkdirAll root above) _ d)
      unfold EStateM.bind
      cases hrun : mkdirAll root above d with
      | ok u d₁ =>
        rw [hrun] at hih
        exact hensure d₁ (hih.1.mono hpre)
      | error e d₁ =>
        rw [hrun] at hih
        exact Grown.mono hih hpre
    · exact hensure d (.refl d root _)

end Plain

end Disk

end SrcControl.FileTree
