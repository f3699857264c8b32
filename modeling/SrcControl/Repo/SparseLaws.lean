import SrcControl.Lib.WholeLines
import SrcControl.Repo.Refs
import SrcControl.Repo.SparseView

/-!
# The algebra of sparse views

A view is the set of the paths it matches. Covering is inclusion, the union is the union, and a
walk descends exactly where a path of the view lies; the file that keeps a view holds one prefix a
line, and what it spells is the same view as long as no prefix falls apart into lines outside it.
-/

namespace SrcControl.Fallible

/-- Where every step of one fold is matched by a step of another, so is the fold. -/
theorem foldlM_simulates {ε α β γ : Type} {f : α → β → Except ε α} {g : γ → β → Except ε γ}
    {R : γ → α → Prop} {xs : List β}
    (step : ∀ c a x a', R c a → f a x = .ok a' → ∃ c', g c x = .ok c' ∧ R c' a') {a a' : α} {c : γ}
    (hr : R c a) (h : xs.foldlM f a = .ok a') : ∃ c', xs.foldlM g c = .ok c' ∧ R c' a' := by
  induction xs generalizing a c with
  | nil =>
    cases h
    exact ⟨c, rfl, hr⟩
  | cons x xs ih =>
    rw [List.foldlM_cons] at h ⊢
    obtain ⟨b, hb, h⟩ := bind_ok h
    obtain ⟨d, hd, hrd⟩ := step c a x b hr hb
    rw [hd]
    exact ih hrd h

end SrcControl.Fallible

namespace SrcControl.Sparse

open SlashPath TreeEntries MergeTree
open LineText (rawLines lineBody stripLast unlines lines Breaks)

/-! ## Predicates and the file -/

def covers (sparse other : Sparse) : Bool :=
  sparse.isFull || (!other.isFull && other.all (fun p => sparse.matchesPath (trimEndSlashes p)))

/-- `p.trim().is_empty()`. -/
def isBlank (p : List Char) : Bool := (LineText.trim Refs.isWhitespace p).isEmpty

/-- `validate_prefixes`; `debug` is how the message shows the prefix. -/
def validatePrefixes (debug : String → String) (prefixes : List String) : Except Error Unit :=
  match prefixes.find? (fun p => isBlank p.toList) with
  | some p => .error (.invalidArgument (s!"empty sparse prefix {debug p}; name a path, or use " ++
      "\x60sc sparse disable\x60 for a full checkout"))
  | none => .ok ()

/-- `store`: what the file holds afterwards, if there is one. -/
def store (debug : String → String) (sparse : Sparse) : Except Error (Option (List Char)) := do
  validatePrefixes debug sparse
  if sparse.isEmpty then .ok none else .ok (some (unlines (sparse.map String.toList)))

/-- The lines that name a prefix. -/
def readPrefixes (text : List Char) : List String :=
  ((lines text).filter (fun l => !isBlank l)).map String.ofList

def load : Option (List Char) → Sparse
  | none => []
  | some text => readPrefixes text

/-! ## Covering -/

/-- `path` is `dir` or lies below it. -/
def AtOrBelow (dir path : String) : Prop := path = dir ∨ ∃ rest, path = dir ++ "/" ++ rest

theorem AtOrBelow.trans {a b c : String} (hab : AtOrBelow a b) (hbc : AtOrBelow b c) :
    AtOrBelow a c := by
  rcases hab with rfl | ⟨x, rfl⟩
  · exact hbc
  · rcases hbc with rfl | ⟨y, rfl⟩
    · exact .inr ⟨x, rfl⟩
    · exact .inr ⟨x ++ "/" ++ y, by simp only [String.append_assoc]⟩

theorem matchesPath_iff_below {sparse : Sparse} {path : String} :
    sparse.matchesPath path = true ↔ sparse = [] ∨ ∃ p ∈ sparse, AtOrBelow (trimEndSlashes p) path :=
  matchesPath_iff

theorem matchesPath_below {sparse : Sparse} {dir path : String}
    (h : sparse.matchesPath dir = true) (hbelow : AtOrBelow dir path) :
    sparse.matchesPath path = true := by
  rw [matchesPath_iff_below] at h ⊢
  rcases h with hfull | ⟨p, hp, hdir⟩
  · exact .inl hfull
  · exact .inr ⟨p, hp, hdir.trans hbelow⟩

theorem matchesPath_own {sparse : Sparse} {p : String} (h : p ∈ sparse) :
    sparse.matchesPath (trimEndSlashes p) = true :=
  matchesPath_iff_below.mpr (.inr ⟨p, h, .inl rfl⟩)

/-- A name longer than every prefix of the view. -/
theorem exists_unmatched {sparse : Sparse} (h : sparse ≠ []) :
    ∃ path, sparse.matchesPath path = false := by
  let n := (sparse.map (fun p => (trimEndSlashes p).toList.length)).sum
  have hn : ∀ p ∈ sparse, (trimEndSlashes p).toList.length ≤ n :=
    fun p hp => List.single_le_sum (by simp) _ (List.mem_map_of_mem hp)
  refine ⟨String.ofList (List.replicate (n + 1) 'a'), ?_⟩
  rw [← Bool.not_eq_true, matchesPath_iff_below]
  rintro (hfull | ⟨p, hp, heq | ⟨rest, heq⟩⟩)
  · exact h hfull
  · have hlen := congrArg (fun s => s.toList.length) heq
    simp only [String.toList_ofList, List.length_replicate] at hlen
    have hle := hn p hp
    omega
  · have hslash : '/' ∈ (String.ofList (List.replicate (n + 1) 'a')).toList := by
      rw [heq]
      simp
    rw [String.toList_ofList] at hslash
    cases List.eq_of_mem_replicate hslash

/-- Covering is inclusion. -/
theorem covers_iff {a b : Sparse} :
    a.covers b = true ↔ ∀ path, b.matchesPath path = true → a.matchesPath path = true := by
  simp only [covers, isFull, Bool.or_eq_true, List.isEmpty_iff, Bool.and_eq_true,
    Bool.not_eq_true', List.isEmpty_eq_false_iff, List.all_eq_true]
  constructor
  · rintro (rfl | ⟨hb, hall⟩) path hpath
    · rfl
    · rcases matchesPath_iff_below.mp hpath with hfull | ⟨p, hp, hbelow⟩
      · exact absurd hfull hb
      · exact matchesPath_below (hall p hp) hbelow
  · intro h
    by_cases ha : a = []
    · exact .inl ha
    · refine .inr ⟨?_, fun p hp => h _ (matchesPath_own hp)⟩
      rintro rfl
      obtain ⟨path, hpath⟩ := exists_unmatched ha
      rw [h path rfl] at hpath
      cases hpath

theorem mem_union_fold {ps acc : List String} {p : String} :
    p ∈ ps.foldl (fun prefixes p => if p ∈ prefixes then prefixes else prefixes ++ [p]) acc ↔
      p ∈ acc ∨ p ∈ ps := by
  induction ps generalizing acc with
  | nil => simp
  | cons q ps ih =>
    rw [List.foldl_cons, ih]
    split_ifs with hq
    · constructor
      · rintro (h | h)
        · exact .inl h
        · exact .inr (List.mem_cons_of_mem q h)
      · rintro (h | h)
        · exact .inl h
        · rcases List.mem_cons.mp h with rfl | h
          · exact .inl hq
          · exact .inr h
    · rw [List.mem_append, List.mem_singleton, List.mem_cons, or_assoc]

theorem union_iff {a b : Sparse} {path : String} :
    (a.union b).matchesPath path = true ↔
      a.matchesPath path = true ∨ b.matchesPath path = true := by
  by_cases hfull : (a.isFull || b.isFull) = true
  · have hempty : a.union b = [] := if_pos hfull
    rw [hempty]
    refine iff_of_true rfl ?_
    rcases Bool.or_eq_true _ _ ▸ hfull with ha | hb
    · exact .inl (matchesPath_iff.mpr (.inl (List.isEmpty_iff.mp ha)))
    · exact .inr (matchesPath_iff.mpr (.inl (List.isEmpty_iff.mp hb)))
  · have hmem : ∀ p, p ∈ a.union b ↔ p ∈ a ∨ p ∈ b := by
      intro p
      rw [union, if_neg hfull]
      exact mem_union_fold
    rw [Bool.or_eq_true, not_or] at hfull
    have ha : a ≠ [] := fun h => hfull.1 (List.isEmpty_iff.mpr h)
    have hb : b ≠ [] := fun h => hfull.2 (List.isEmpty_iff.mpr h)
    have hne : a.union b ≠ [] := by
      obtain ⟨p, hp⟩ := List.exists_mem_of_ne_nil a ha
      exact List.ne_nil_of_mem ((hmem p).mpr (.inl hp))
    simp only [matchesPath_iff_below, ha, hb, hne, false_or, hmem]
    constructor
    · rintro ⟨p, hp | hp, hbelow⟩
      · exact .inl ⟨p, hp, hbelow⟩
      · exact .inr ⟨p, hp, hbelow⟩
    · rintro (⟨p, hp, hbelow⟩ | ⟨p, hp, hbelow⟩)
      · exact ⟨p, .inl hp, hbelow⟩
      · exact ⟨p, .inr hp, hbelow⟩

/-- The empty path is the root, which every path lies below. -/
def BelowDir (dir path : String) : Prop := dir = "" ∨ AtOrBelow dir path

/-- A walk descends exactly where it can meet a path of the view. -/
theorem shouldDescend_iff {sparse : Sparse} {dir : String} :
    sparse.shouldDescend dir = true ↔
      ∃ path, BelowDir dir path ∧ sparse.matchesPath path = true := by
  constructor
  · intro h
    simp only [shouldDescend, Bool.or_eq_true, decide_eq_true_eq, List.any_eq_true,
      startsWith_iff] at h
    rcases h with ((hfull | rfl) | hmatch) | ⟨p, hp, rest, hrest⟩
    · exact ⟨dir, .inr (.inl rfl), matchesPath_iff.mpr (.inl (List.isEmpty_iff.mp hfull))⟩
    · cases sparse with
      | nil => exact ⟨"", .inl rfl, rfl⟩
      | cons p ps => exact ⟨_, .inl rfl, matchesPath_own List.mem_cons_self⟩
    · exact ⟨dir, .inr (.inl rfl), hmatch⟩
    · exact ⟨trimEndSlashes p, .inr (.inr ⟨rest, hrest⟩), matchesPath_own hp⟩
  · rintro ⟨path, rfl | rfl | ⟨rest, rfl⟩, hmatch⟩
    · simp [shouldDescend]
    · simp [shouldDescend, hmatch]
    · exact shouldDescend_of_matches hmatch

/-! ## The pruned walk -/

/-- A part of a map: what of it the view matches. -/
def Restricts (sparse : Sparse) (part full : FileMap) : Prop :=
  ∀ path, part[path]? = if sparse.matchesPath path then full[path]? else none

theorem Restricts.insert {sparse : Sparse} {part full : FileMap} (h : Restricts sparse part full)
    (path : String) (e : FileEntry) :
    Restricts sparse (if sparse.matchesPath path then part.insert path e else part)
      (full.insert path e) := by
  intro q
  split_ifs with hpath hq hq
  · rw [BTreeMap.getElem?_insert, BTreeMap.getElem?_insert, h q, if_pos hq]
  · have hne : path ≠ q := by
      rintro rfl
      exact hq hpath
    rw [BTreeMap.getElem?_insert, if_neg hne, h q, if_neg hq]
  · have hne : path ≠ q := by
      rintro rfl
      exact hpath hq
    rw [BTreeMap.getElem?_insert, if_neg hne, h q, if_pos hq]
  · rw [h q, if_neg hq]

section Walk

variable {store : Store} {sparse : Sparse}

/-- A walk below a directory that is pruned adds no path of the view. -/
theorem walk_outside {fuel : Nat} {treeId : ObjectId} {pre : String} {out files : FileMap}
    (h : walkEntriesWithPermsSparse store [] false fuel treeId pre out = .ok files)
    (hdescend : sparse.shouldDescend pre = false) {path : String}
    (hpath : sparse.matchesPath path = true) : files[path]? = out[path]? := by
  have hold : ∀ e, files[path]? = some e → out[path]? = some e := by
    intro e he
    rcases walk_sound h he with hout | ⟨-, cs, hleaf, rfl⟩
    · exact hout
    · exfalso
      have hne : cs ≠ [] := by
        rintro rfl
        exact not_leaf_nil hleaf
      rw [shouldDescend_of_below hne hpath] at hdescend
      cases hdescend
  cases hout : out[path]? with
  | some e =>
    obtain ⟨e', he'⟩ := walk_mono h ⟨e, hout⟩
    rw [he', ← hout, hold e' he']
  | none =>
    cases hfiles : files[path]? with
    | none => rfl
    | some e =>
      rw [hold e hfiles] at hout
      cases hout

/-- Step by step the pruned walk keeps the part of the full walk. -/
theorem walk_restricts {fuel : Nat} {treeId : ObjectId} {pre : String} {out files part : FileMap}
    (h : walkEntriesWithPermsSparse store [] false fuel treeId pre out = .ok files)
    (hpart : Restricts sparse part out) :
    ∃ part', walkEntriesWithPermsSparse store sparse false fuel treeId pre part = .ok part' ∧
      Restricts sparse part' files := by
  induction fuel generalizing treeId pre out files part with
  | zero => cases h
  | succ fuel ih =>
    unfold walkEntriesWithPermsSparse at h ⊢
    obtain ⟨tree, htree, hfold⟩ := Fallible.bind_ok h
    rw [htree]
    refine Fallible.foldlM_simulates ?_ hpart hfold
    intro part out entry mid hpart hmid
    cases hk : entry.kind with
    | blob =>
      simp only [hk] at hmid
      cases hmid
      exact ⟨_, rfl, hpart.insert _ _⟩
    | tree =>
      have hfull : walkEntriesWithPermsSparse store [] false fuel entry.id
          (join pre entry.name) out = .ok mid := by
        simpa [hk, shouldDescend, isFull] using hmid
      by_cases hdescend : sparse.shouldDescend (join pre entry.name) = true
      · obtain ⟨part', hwalk, hrest⟩ := ih hfull hpart
        exact ⟨part', by simpa [hdescend] using hwalk, hrest⟩
      · rw [Bool.not_eq_true] at hdescend
        refine ⟨part, by simp [hdescend, pure, Except.pure], fun path => ?_⟩
        rw [hpart path]
        split_ifs with hpath
        · rw [walk_outside hfull hdescend hpath]
        · rfl

/-- Flattening in the view is the full flattening, filtered. -/
theorem treeFileEntriesWithPermsSparse_filter {fuel : Nat} {root : ObjectId} {files : FileMap}
    (h : treeFileEntriesWithPerms fuel store root = .ok files) :
    treeFileEntriesWithPermsSparse fuel store root sparse =
      .ok (files.filter (fun path _ => sparse.matchesPath path)) := by
  unfold treeFileEntriesWithPermsSparse
  split_ifs with hfull
  · have hnil : sparse = [] := List.isEmpty_iff.mp hfull
    subst hnil
    rw [h]
    congr 1
    refine Std.ExtTreeMap.ext_getElem? (fun path => ?_)
    rw [Std.ExtTreeMap.getElem?_filter']
    cases files[path]? with
    | none => rfl
    | some e => rfl
  · rw [treeFileEntriesWithPerms, walkEntriesWithPerms_eq] at h
    have hempty : Restricts sparse ∅ ∅ := fun path => by simp
    obtain ⟨part, hrun, hpart⟩ := walk_restricts h hempty
    rw [hrun]
    congr 1
    refine Std.ExtTreeMap.ext_getElem? (fun path => ?_)
    rw [hpart path, Std.ExtTreeMap.getElem?_filter']
    cases files[path]? with
    | none => exact ite_self none
    | some e =>
      rw [Option.filter_some]

end Walk

/-! ## The file keeps the view -/

/-- The prefixes that the lines of a prefix spell. -/
def pieces (p : String) : List String := readPrefixes (p.toList ++ ['\n'])

theorem readPrefixes_unlines (ps : List String) :
    readPrefixes (unlines (ps.map String.toList)) = ps.flatMap pieces := by
  induction ps with
  | nil => rfl
  | cons p ps ih =>
    have hsplit : readPrefixes (p.toList ++ '\n' :: unlines (ps.map String.toList)) =
        pieces p ++ readPrefixes (unlines (ps.map String.toList)) := by
      unfold pieces readPrefixes
      rw [LineText.lines_append, List.filter_append, List.map_append]
    rw [List.map_cons, LineText.unlines_cons, hsplit, ih, List.flatMap_cons]

theorem pieces_of_not_breaks {p : String} (h : ¬ Breaks p.toList)
    (hblank : isBlank p.toList = false) : pieces p = [p] := by
  rw [Breaks, not_or] at h
  unfold pieces readPrefixes
  rw [LineText.lines_line h.1, LineText.stripLast_eq_self_iff.mpr h.2]
  simp [hblank]

theorem trim_eq_nil_iff {ws : Char → Bool} {s : List Char} :
    LineText.trim ws s = [] ↔ ∀ c ∈ s, ws c = true := by
  unfold LineText.trim
  rw [List.rdropWhile_eq_nil_iff]
  constructor
  · intro h c hc
    by_contra hws
    have hkept : s.dropWhile ws ≠ [] := fun hnil => hws (List.dropWhile_eq_nil_iff.mp hnil c hc)
    obtain ⟨d, ds, hd⟩ := List.exists_cons_of_ne_nil hkept
    have hfirst := List.head_dropWhile_not ws hkept
    have hhead : (s.dropWhile ws).head hkept = d := by simp [hd]
    rw [hhead, h d (by rw [hd]; exact List.mem_cons_self)] at hfirst
    cases hfirst
  · intro h c hc
    exact h c ((List.dropWhile_sublist ws).mem hc)

theorem isBlank_iff {p : List Char} : isBlank p = true ↔ ∀ c ∈ p, Refs.isWhitespace c = true := by
  rw [isBlank, List.isEmpty_iff, trim_eq_nil_iff]

/-- A prefix that is not blank spells one. -/
theorem pieces_ne_nil {p : String} (h : isBlank p.toList = false) : pieces p ≠ [] := by
  intro hnil
  have hall : ∀ raw ∈ rawLines (p.toList ++ ['\n']), isBlank (lineBody raw) = true := by
    intro raw hraw
    by_contra hblank
    have hmem : String.ofList (lineBody raw) ∈ pieces p := by
      refine List.mem_map_of_mem (List.mem_filter.mpr ⟨List.mem_map_of_mem hraw, ?_⟩)
      rw [Bool.not_eq_true] at hblank
      rw [hblank]
      rfl
    rw [hnil] at hmem
    cases hmem
  have hws : ∀ c ∈ p.toList, Refs.isWhitespace c = true := by
    intro c hc
    have hflat := LineText.rawLines_flatten (p.toList ++ ['\n'])
    have hmem : c ∈ (rawLines (p.toList ++ ['\n'])).flatten := by
      rw [hflat]
      exact List.mem_append_left _ hc
    obtain ⟨raw, hraw, hcraw⟩ := List.mem_flatten.mp hmem
    have hbody := isBlank_iff.mp (hall raw hraw)
    unfold lineBody stripLast at hbody
    split_ifs at hbody with hn hr
    · obtain ⟨l, rfl⟩ := List.getLast?_eq_some_iff.mp hn
      rw [List.dropLast_concat] at hbody hr
      obtain ⟨l', rfl⟩ := List.getLast?_eq_some_iff.mp hr
      rw [List.dropLast_concat] at hbody
      rcases List.mem_append.mp hcraw with hcl | hnl
      · rcases List.mem_append.mp hcl with hcl | hcr
        · exact hbody c hcl
        · rw [List.mem_singleton.mp hcr]
          rfl
      · rw [List.mem_singleton.mp hnl]
        rfl
    · obtain ⟨l, rfl⟩ := List.getLast?_eq_some_iff.mp hn
      rw [List.dropLast_concat] at hbody
      rcases List.mem_append.mp hcraw with hcl | hnl
      · exact hbody c hcl
      · rw [List.mem_singleton.mp hnl]
        rfl
    · exact hbody c hcraw
  rw [isBlank_iff.mpr hws] at h
  cases h

theorem not_blank_of_valid {debug : String → String} {prefixes : List String}
    (h : validatePrefixes debug prefixes = .ok ()) : ∀ p ∈ prefixes, isBlank p.toList = false := by
  intro p hp
  unfold validatePrefixes at h
  cases hfind : prefixes.find? (fun p => isBlank p.toList) with
  | some q =>
    rw [hfind] at h
    cases h
  | none =>
    rw [List.find?_eq_none] at hfind
    simpa using hfind p hp

/-- The two views match the same paths. -/
def SamePaths (a b : Sparse) : Prop := ∀ path, a.matchesPath path = b.matchesPath path

/-- What is stored is read back as the view exactly when each prefix with a line break falls apart
into prefixes inside the view, and lies itself inside the view of all these pieces. -/
theorem store_load_iff {debug : String → String} {sparse : Sparse}
    (h : validatePrefixes debug sparse = .ok ()) :
    ∃ file, sparse.store debug = .ok file ∧
      (SamePaths (load file) sparse ↔ ∀ p ∈ sparse, Breaks p.toList →
        (∀ q ∈ pieces p, sparse.matchesPath (trimEndSlashes q) = true) ∧
          Sparse.matchesPath (sparse.flatMap pieces) (trimEndSlashes p) = true) := by
  have hblank := not_blank_of_valid h
  by_cases hempty : sparse = []
  · subst hempty
    exact ⟨none, rfl, iff_of_true (fun _ => rfl) (by simp)⟩
  refine ⟨some (unlines (sparse.map String.toList)), ?_, ?_⟩
  · rw [store, h]
    exact if_neg (by simpa using hempty)
  rw [load, readPrefixes_unlines]
  have hpieces : sparse.flatMap pieces ≠ [] := by
    obtain ⟨p, hp⟩ := List.exists_mem_of_ne_nil sparse hempty
    obtain ⟨q, hq⟩ := List.exists_mem_of_ne_nil _ (pieces_ne_nil (hblank p hp))
    exact List.ne_nil_of_mem (List.mem_flatMap.mpr ⟨p, hp, hq⟩)
  have hsame : SamePaths (sparse.flatMap pieces) sparse ↔
      sparse.covers (sparse.flatMap pieces) = true ∧
        Sparse.covers (sparse.flatMap pieces) sparse = true := by
    rw [covers_iff, covers_iff]
    constructor
    · intro hs
      exact ⟨fun path hp => by rw [← hs path]; exact hp, fun path hp => by rw [hs path]; exact hp⟩
    · rintro ⟨h₁, h₂⟩ path
      rw [Bool.eq_iff_iff]
      exact ⟨h₁ path, h₂ path⟩
  have hfull : sparse.isFull = false := by simpa [isFull] using hempty
  have hfull' : Sparse.isFull (sparse.flatMap pieces) = false := by
    rw [isFull, List.isEmpty_eq_false_iff]
    exact hpieces
  rw [hsame]
  simp only [covers, hfull, hfull', Bool.not_false, Bool.true_and, Bool.false_or,
    List.all_eq_true, List.mem_flatMap]
  constructor
  · rintro ⟨hinto, hback⟩ p hp -
    exact ⟨fun q hq => hinto q ⟨p, hp, hq⟩, hback p hp⟩
  · intro hcond
    refine ⟨?_, fun p hp => ?_⟩
    · rintro q ⟨p, hp, hq⟩
      by_cases hbreaks : Breaks p.toList
      · exact (hcond p hp hbreaks).1 q hq
      · rw [pieces_of_not_breaks hbreaks (hblank p hp), List.mem_singleton] at hq
        rw [hq]
        exact matchesPath_own hp
    · by_cases hbreaks : Breaks p.toList
      · exact (hcond p hp hbreaks).2
      · refine matchesPath_own (List.mem_flatMap.mpr ⟨p, hp, ?_⟩)
        rw [pieces_of_not_breaks hbreaks (hblank p hp)]
        exact List.mem_singleton.mpr rfl

/-! ## The whole algebra -/

/-- The laws of the predicates, and of a walk pruned by them. -/
structure Laws (a b : Sparse) : Prop where
  covers : a.covers b = true ↔ ∀ path, b.matchesPath path = true → a.matchesPath path = true
  union : ∀ path, (a.union b).matchesPath path = true ↔
    a.matchesPath path = true ∨ b.matchesPath path = true
  descend : ∀ dir, a.shouldDescend dir = true ↔
    ∃ path, BelowDir dir path ∧ a.matchesPath path = true
  flatten : ∀ (fuel : Nat) (held : SrcControl.Store) (root : ObjectId) (files : FileMap),
    treeFileEntriesWithPerms fuel held root = .ok files →
      treeFileEntriesWithPermsSparse fuel held root a =
        .ok (files.filter (fun path _ => a.matchesPath path))

/-- The laws hold of all views, and a view that may be stored is read back as the same set of
paths exactly when its prefixes with line breaks keep to it. -/
theorem sparse_algebra (debug : String → String) (a b : Sparse) :
    Laws a b ∧ (validatePrefixes debug a = .ok () →
      ∃ file, a.store debug = .ok file ∧
        (SamePaths (load file) a ↔ ∀ p ∈ a, Breaks p.toList →
          (∀ q ∈ pieces p, a.matchesPath (trimEndSlashes q) = true) ∧
            Sparse.matchesPath (a.flatMap pieces) (trimEndSlashes p) = true)) :=
  ⟨⟨covers_iff, fun _ => union_iff, fun _ => shouldDescend_iff,
    fun _ _ _ _ => treeFileEntriesWithPermsSparse_filter⟩, store_load_iff⟩

/-- A directory whose name holds a newline. -/
def brokenView : Sparse := ["a\nb"]

theorem sparse_algebra_broken :
    ∃ file, brokenView.store (fun p => p) = .ok file ∧
      (SamePaths (load file) brokenView ↔ ∀ p ∈ brokenView, Breaks p.toList →
        (∀ q ∈ pieces p, brokenView.matchesPath (trimEndSlashes q) = true) ∧
          Sparse.matchesPath (brokenView.flatMap pieces) (trimEndSlashes p) = true) :=
  (sparse_algebra (fun p => p) brokenView []).2 (by decide)

/-- The view of the one directory is read back as the view of two others. -/
theorem newline_prefix_reloads :
    validatePrefixes (fun p => p) brokenView = .ok () ∧
      ∃ file, brokenView.store (fun p => p) = .ok file ∧ load file = ["a", "b"] ∧
        ¬ SamePaths (load file) brokenView := by
  refine ⟨by decide, some "a\nb\n".toList, by decide, by decide, fun h => ?_⟩
  have hpath := h "a"
  revert hpath
  decide

end SrcControl.Sparse
