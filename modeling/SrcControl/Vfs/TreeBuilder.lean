import SrcControl.Repo.TreeEntries
import SrcControl.Vfs.Emit

/-!
# Building trees from paths

The tree builder scans the flat maps of files and carried entries once for every
directory, by string prefix. Over components a path is placed in the directory that the
rest of its components names, and the built trees hold exactly the placed entries.
-/

namespace SrcControl.TreeBuilder

open SlashPath Puts

/-- `strip_prefix_dir`. -/
def stripPrefixDir (path pre : String) : Option String :=
  if pre = "" then some path else stripPrefix path pre

/-- The name of a path that lies directly under `pre`. -/
def direct (pre path : String) : Option String :=
  (stripPrefixDir path pre).bind
    (fun rest => match splitOnce rest with | none => some rest | some _ => none)

/-- The subdirectory of `pre` a path lies in. -/
def subdir (pre path : String) : Option String :=
  (stripPrefixDir path pre).bind (fun rest => (splitOnce rest).map (·.1))

/-- The blob entry of a file. -/
def blobEntry (name : String) (fe : FileEntry) : TreeEntry := ⟨name, .blob, fe.id, fe.mode, fe.perms⟩

def dirEntry (name : String) (id : ObjectId) : TreeEntry := ⟨name, .tree, id, ⟨0o755⟩, 0⟩

def insertDistinct (set : BTreeSet String) (p : String) : Except Error (BTreeSet String) :=
  if set.contains p then .error (.fileDirCollision p p) else .ok (set.insert p)

def checkFileDirCollisions (paths : List String) : Except Error Unit := do
  let set ← paths.foldlM insertDistinct ∅
  set.toList.forM (fun p => (ancestors p).forM (fun ancestor =>
    if set.contains ancestor then .error (.fileDirCollision ancestor p) else .ok ()))

/-- The entries made from what lies directly under `pre`. -/
def directEntries {V : Type} (entry : String → V → TreeEntry) (m : BTreeMap String V)
    (pre : String) : List TreeEntry :=
  m.toList.filterMap (fun kv => (direct pre kv.1).map (fun name => entry name kv.2))

section Build

variable (idOf : Object → ObjectId) (files : FileMap) (carried : BTreeMap String TreeEntry)

def builtEntries (pre : String) : List TreeEntry := directEntries blobEntry files pre

/-- A carried entry keeps everything but its name. -/
def carriedEntries (pre : String) : List TreeEntry :=
  directEntries (fun name entry => { entry with name := name }) carried pre

def subdirs (pre : String) : BTreeSet String :=
  BTreeSet.ofList ((files.keys ++ carried.keys).filterMap (subdir pre))

def buildSubtreeInner : Nat → String → Puts ObjectId
  | 0, _ => throw .fuel
  | fuel + 1, pre => do
    let dirs ← (subdirs files carried pre).toList.mapM (fun dir => do
      let childPrefix := if pre = "" then dir ++ "/" else pre ++ dir ++ "/"
      pure (dirEntry dir (← buildSubtreeInner fuel childPrefix)))
    put idOf (.tree (Tree.new
      (builtEntries files pre ++ carriedEntries carried pre ++ dirs)))

/-- More directory levels than any path has. -/
def levels : Nat := ((files.keys ++ carried.keys).map String.length).foldr max 0 + 1

def buildRoot : Puts ObjectId := do
  checkFileDirCollisions (files.keys ++ carried.keys)
  buildSubtreeInner idOf files carried (levels files carried) ""

end Build

/-! ## The check -/

/-- Distinct paths can all be inserted. -/
theorem insertDistinct_foldlM {paths : List String} {set : BTreeSet String}
    (hn : paths.Nodup) (hd : ∀ p ∈ paths, p ∉ set) :
    ∃ out, paths.foldlM insertDistinct set = .ok out ∧ ∀ x, x ∈ out ↔ x ∈ paths ∨ x ∈ set := by
  induction paths generalizing set with
  | nil => exact ⟨set, rfl, by simp⟩
  | cons p paths ih =>
    rw [List.nodup_cons] at hn
    have hp : insertDistinct set p = .ok (set.insert p) :=
      if_neg (by simpa using hd p List.mem_cons_self)
    obtain ⟨out, hout, hmem⟩ := @ih (set.insert p) hn.2 (by
      intro q hq hin
      rcases (BTreeSet.mem_insert set p q).mp hin with rfl | hin
      · exact hn.1 hq
      · exact hd q (List.mem_cons_of_mem p hq) hin)
    refine ⟨out, ?_, fun x => ?_⟩
    · rw [List.foldlM_cons, hp]
      exact hout
    · rw [hmem, BTreeSet.mem_insert, List.mem_cons]
      tauto

/-- Inserting them all shows that they are distinct. -/
theorem nodup_of_insertDistinct {paths : List String} {set out : BTreeSet String}
    (h : paths.foldlM insertDistinct set = .ok out) :
    paths.Nodup ∧ ∀ p ∈ paths, p ∉ set := by
  induction paths generalizing set with
  | nil => simp
  | cons p paths ih =>
    rw [List.foldlM_cons] at h
    obtain ⟨mid, hmid, h⟩ := Fallible.bind_ok h
    unfold insertDistinct at hmid
    split_ifs at hmid with hp
    cases hmid
    obtain ⟨hn, hd⟩ := ih h
    refine ⟨List.nodup_cons.mpr ⟨fun hin => ?_, hn⟩, fun q hq => ?_⟩
    · exact hd p hin ((BTreeSet.mem_insert set p p).mpr (.inl rfl))
    · rcases List.mem_cons.mp hq with rfl | hq
      · simpa using hp
      · exact fun hin => hd q hq ((BTreeSet.mem_insert set p q).mpr (.inr hin))

/-- The check passes exactly on distinct paths of which none is above another. -/
theorem checkFileDirCollisions_ok_iff {paths : List String} :
    checkFileDirCollisions paths = .ok () ↔
      paths.Nodup ∧ ∀ p ∈ paths, ∀ a ∈ ancestors p, a ∉ paths := by
  have hforM : ∀ set : BTreeSet String, (∀ x, x ∈ set ↔ x ∈ paths) →
      (set.toList.forM (fun p => (ancestors p).forM (fun ancestor =>
        if set.contains ancestor then Except.error (Error.fileDirCollision ancestor p)
        else .ok ())) = .ok () ↔ ∀ p ∈ paths, ∀ a ∈ ancestors p, a ∉ paths) := by
    intro set hset
    simp only [Fallible.forM_ok_iff, Std.ExtTreeSet.mem_toList, hset]
    refine forall₂_congr (fun p _ => forall₂_congr (fun a _ => ?_))
    rw [← hset, ← Std.ExtTreeSet.contains_iff_mem]
    cases set.contains a <;> simp
  constructor
  · intro h
    obtain ⟨set, hset, h⟩ := Fallible.bind_ok h
    have hn := (nodup_of_insertDistinct hset).1
    obtain ⟨out, hout, hmem⟩ := @insertDistinct_foldlM paths ∅ hn (by simp)
    rw [hset] at hout
    cases hout
    exact ⟨hn, (hforM set (by simpa using hmem)).mp h⟩
  · rintro ⟨hn, ha⟩
    obtain ⟨out, hout, hmem⟩ := @insertDistinct_foldlM paths ∅ hn (by simp)
    unfold checkFileDirCollisions
    rw [hout]
    exact (hforM out (by simpa using hmem)).mpr ha

/-! ## One directory level -/

variable {ds cs : List String}

theorem stripPrefixDir_iff (hc : ∀ c ∈ cs, IsName c) (hcs : cs ≠ []) (hd : ∀ d ∈ ds, IsName d)
    {rest : String} : stripPrefixDir (ofNames cs) (dirPrefix ds) = some rest ↔
      ∃ es, es ≠ [] ∧ cs = ds ++ es ∧ rest = ofNames es := by
  rw [← dirPrefix_append_iff hc hcs hd]
  unfold stripPrefixDir
  split_ifs with h
  · rw [h, String.empty_append]
    exact Option.some_inj
  · exact stripPrefix_eq_some_iff

theorem splitOnce_ofNames {n : String} {es : List String} (h : ∀ e ∈ n :: es, IsName e) :
    splitOnce (ofNames (n :: es)) = if es = [] then none else some (n, ofNames es) := by
  have hn : IsName n := h n List.mem_cons_self
  by_cases hes : es = []
  · subst hes
    rw [if_pos rfl, ofNames_singleton, splitOnce_name hn.2]
  · have hone : ∀ e ∈ [n], IsName e := fun e he => List.mem_singleton.mp he ▸ hn
    have happ := ofNames_append hone (by simp) (fun e he => h e (List.mem_cons_of_mem n he)) hes
    rw [ofNames_singleton, List.singleton_append] at happ
    rw [if_neg hes, happ, splitOnce_slash hn.2]

theorem direct_iff (hc : ∀ c ∈ cs, IsName c) (hcs : cs ≠ []) (hd : ∀ d ∈ ds, IsName d)
    {name : String} : direct (dirPrefix ds) (ofNames cs) = some name ↔ cs = ds ++ [name] := by
  unfold direct
  constructor
  · intro h
    obtain ⟨rest, hrest, h⟩ := Option.bind_eq_some_iff.mp h
    obtain ⟨es, hes, rfl, rfl⟩ := (stripPrefixDir_iff hc hcs hd).mp hrest
    obtain ⟨n, es, rfl⟩ := List.exists_cons_of_ne_nil hes
    rw [splitOnce_ofNames (fun e he => hc e (List.mem_append_right ds he))] at h
    by_cases hnil : es = []
    · subst hnil
      rw [if_pos rfl, ofNames_singleton] at h
      cases h
      rfl
    · rw [if_neg hnil] at h
      cases h
  · rintro rfl
    have hrest := (stripPrefixDir_iff hc hcs hd).mpr ⟨[name], by simp, rfl, rfl⟩
    rw [hrest, Option.bind_some,
      splitOnce_ofNames (fun e he => hc e (List.mem_append_right ds he)), if_pos rfl]
    rfl

theorem subdir_iff (hc : ∀ c ∈ cs, IsName c) (hcs : cs ≠ []) (hd : ∀ d ∈ ds, IsName d)
    {name : String} : subdir (dirPrefix ds) (ofNames cs) = some name ↔
      ∃ es, es ≠ [] ∧ cs = ds ++ name :: es := by
  unfold subdir
  constructor
  · intro h
    obtain ⟨rest, hrest, h⟩ := Option.bind_eq_some_iff.mp h
    obtain ⟨es, hes, rfl, rfl⟩ := (stripPrefixDir_iff hc hcs hd).mp hrest
    obtain ⟨n, es, rfl⟩ := List.exists_cons_of_ne_nil hes
    rw [splitOnce_ofNames (fun e he => hc e (List.mem_append_right ds he))] at h
    split_ifs at h with hnil
    · cases h
    · cases h
      exact ⟨es, hnil, rfl⟩
  · rintro ⟨es, hes, rfl⟩
    have hrest := (stripPrefixDir_iff hc hcs hd).mpr ⟨name :: es, by simp, rfl, rfl⟩
    rw [hrest, Option.bind_some,
      splitOnce_ofNames (fun e he => hc e (List.mem_append_right ds he)), if_neg hes]
    rfl

/-! ## What is placed where -/

section Placed

variable (files : FileMap) (carried : BTreeMap String TreeEntry)

/-- The entries that stand directly in the directory `ds`. -/
inductive Placed (ds : List String) : TreeEntry → Prop
  | file {name : String} {fe : FileEntry} (hn : IsName name)
      (h : files[ofNames (ds ++ [name])]? = some fe) : Placed ds (blobEntry name fe)
  | carried {name : String} {entry : TreeEntry} (hn : IsName name)
      (h : carried[ofNames (ds ++ [name])]? = some entry) :
      Placed ds { entry with name := name }

/-- Some path lies below the directory `ds`. -/
def Holds (ds : List String) : Prop :=
  ∃ es, es ≠ [] ∧ (∀ e ∈ es, IsName e) ∧ ofNames (ds ++ es) ∈ files.keys ++ carried.keys

end Placed

variable {idOf : Object → ObjectId} {files : FileMap} {carried : BTreeMap String TreeEntry}

theorem mem_paths_iff {p : String} : p ∈ files.keys ++ carried.keys ↔
    (∃ fe, files[p]? = some fe) ∨ ∃ e, carried[p]? = some e := by
  rw [List.mem_append, BTreeMap.mem_keys_iff, BTreeMap.mem_keys_iff]

section Direct

variable {V : Type} {entry : String → V → TreeEntry} {m : BTreeMap String V}

/-- Every key is spelled by names. -/
def Spelled (m : BTreeMap String V) : Prop :=
  ∀ p v, m[p]? = some v → ∃ cs, cs ≠ [] ∧ (∀ c ∈ cs, IsName c) ∧ p = ofNames cs

theorem mem_directEntries (hs : Spelled m) (hd : ∀ d ∈ ds, IsName d) {e : TreeEntry} :
    e ∈ directEntries entry m (dirPrefix ds) ↔
      ∃ name v, IsName name ∧ m[ofNames (ds ++ [name])]? = some v ∧ e = entry name v := by
  constructor
  · intro h
    obtain ⟨⟨p, v⟩, hmem, h⟩ := List.mem_filterMap.mp h
    obtain ⟨name, hname, rfl⟩ := Option.map_eq_some_iff.mp h
    have hv := (BTreeMap.mem_toList_iff m p v).mp hmem
    obtain ⟨cs, hcs, hc, rfl⟩ := hs p v hv
    obtain rfl := (direct_iff hc hcs hd).mp hname
    exact ⟨name, v, hc name (by simp), hv, rfl⟩
  · rintro ⟨name, v, hn, hv, rfl⟩
    have hc : ∀ c ∈ ds ++ [name], IsName c := by
      intro c hc
      rcases List.mem_append.mp hc with hc | hc
      · exact hd c hc
      · exact List.mem_singleton.mp hc ▸ hn
    refine List.mem_filterMap.mpr ⟨_, (BTreeMap.mem_toList_iff m _ v).mpr hv, ?_⟩
    exact Option.map_eq_some_iff.mpr ⟨name, (direct_iff hc (by simp) hd).mpr rfl, rfl⟩

theorem eq_of_direct {pre path name : String} (h : direct pre path = some name) :
    path = pre ++ name := by
  obtain ⟨rest, hrest, h⟩ := Option.bind_eq_some_iff.mp h
  have hname : rest = name := by
    cases hs : splitOnce rest with
    | none =>
      rw [hs] at h
      exact Option.some_inj.mp h
    | some x =>
      rw [hs] at h
      cases h
  subst hname
  unfold stripPrefixDir at hrest
  split_ifs at hrest with hp
  · cases hrest
    rw [hp, String.empty_append]
  · exact stripPrefix_eq_some_iff.mp hrest

theorem nodup_directEntries (hentry : ∀ name v, (entry name v).name = name) (pre : String) :
    ((directEntries entry m pre).map (·.name)).Nodup := by
  have hmap : (directEntries entry m pre).map (·.name) = m.keys.filterMap (direct pre) := by
    unfold directEntries
    rw [List.map_filterMap, ← Std.ExtTreeMap.map_fst_toList_eq_keys, List.filterMap_map]
    refine List.filterMap_congr (fun kv _ => ?_)
    cases hdir : direct pre kv.1 <;> simp [hentry, hdir]
  have hnodup : m.keys.Nodup := by
    refine (Std.ExtTreeMap.distinct_keys (t := m)).imp ?_
    intro a b h he
    exact h (by rw [he]; exact Std.ReflOrd.compare_self)
  rw [hmap]
  refine List.Nodup.filterMap (fun a b name ha hb => ?_) hnodup
  rw [eq_of_direct ha, eq_of_direct hb]

end Direct

theorem mem_subdirs (hf : Spelled files) (hc : Spelled carried) (hd : ∀ d ∈ ds, IsName d)
    {name : String} : name ∈ (subdirs files carried (dirPrefix ds)).toList ↔
      IsName name ∧ Holds files carried (ds ++ [name]) := by
  unfold subdirs
  rw [BTreeSet.mem_toList_ofList, List.mem_filterMap]
  constructor
  · rintro ⟨p, hp, hsub⟩
    obtain ⟨cs, hcs, hcn, rfl⟩ : ∃ cs, cs ≠ [] ∧ (∀ c ∈ cs, IsName c) ∧ p = ofNames cs := by
      rcases mem_paths_iff.mp hp with ⟨fe, h⟩ | ⟨e, h⟩
      · exact hf p fe h
      · exact hc p e h
    obtain ⟨es, hes, rfl⟩ := (subdir_iff hcn hcs hd).mp hsub
    have hnames := fun e he => hcn e (List.mem_append_right ds he)
    refine ⟨hnames name List.mem_cons_self, es, hes,
      fun e he => hnames e (List.mem_cons_of_mem name he), ?_⟩
    rwa [List.append_assoc]
  · rintro ⟨hn, es, hes, hnames, hp⟩
    rw [List.append_assoc] at hp
    refine ⟨_, hp, (subdir_iff ?_ (by simp) hd).mpr ⟨es, hes, rfl⟩⟩
    intro c hc
    rcases List.mem_append.mp hc with hc | hc
    · exact hd c hc
    · rcases List.mem_cons.mp hc with rfl | hc
      · exact hn
      · exact hnames c hc

/-- No path is repeated and none is above another. -/
structure Clear (files : FileMap) (carried : BTreeMap String TreeEntry) : Prop where
  nodup : (files.keys ++ carried.keys).Nodup
  apart : ∀ p ∈ files.keys ++ carried.keys, ∀ a ∈ ancestors p, a ∉ files.keys ++ carried.keys

theorem Clear.not_both (h : Clear files carried) {p : String} {fe : FileEntry} {e : TreeEntry}
    (hf : files[p]? = some fe) (hc : carried[p]? = some e) : False :=
  List.disjoint_of_nodup_append h.nodup ((BTreeMap.mem_keys_iff files p).mpr ⟨fe, hf⟩)
    ((BTreeMap.mem_keys_iff carried p).mpr ⟨e, hc⟩)

theorem Placed.name {e : TreeEntry} (h : Placed files carried ds e) :
    IsName e.name ∧ ofNames (ds ++ [e.name]) ∈ files.keys ++ carried.keys := by
  cases h with
  | file hn h => exact ⟨hn, mem_paths_iff.mpr (.inl ⟨_, h⟩)⟩
  | carried hn h => exact ⟨hn, mem_paths_iff.mpr (.inr ⟨_, h⟩)⟩

/-- Nothing lies below a placed entry. -/
theorem Clear.not_holds (h : Clear files carried) (hd : ∀ d ∈ ds, IsName d) {e : TreeEntry}
    (he : Placed files carried ds e) : ¬ Holds files carried (ds ++ [e.name]) := by
  rintro ⟨es, hes, hnames, hp⟩
  have hds : ∀ c ∈ ds ++ [e.name], IsName c := by
    intro c hc
    rcases List.mem_append.mp hc with hc | hc
    · exact hd c hc
    · exact List.mem_singleton.mp hc ▸ he.name.1
  have hall : ∀ c ∈ (ds ++ [e.name]) ++ es, IsName c := by
    intro c hc
    rcases List.mem_append.mp hc with hc | hc
    · exact hds c hc
    · exact hnames c hc
  have ha := (ofNames_mem_ancestors hall hds (by simp)).mpr ⟨es, hes, rfl⟩
  exact h.apart _ hp _ ha he.name.2

/-- The entries placed directly in a directory have names of their own. -/
theorem Clear.nodup_placed (h : Clear files carried) (hf : Spelled files) (hc : Spelled carried)
    (hd : ∀ d ∈ ds, IsName d) :
    ((builtEntries files (dirPrefix ds) ++ carriedEntries carried (dirPrefix ds)).map
      (·.name)).Nodup := by
  rw [List.map_append]
  refine (nodup_directEntries (fun _ _ => rfl) _).append (nodup_directEntries (fun _ _ => rfl) _) ?_
  intro name hn hn'
  obtain ⟨e, he, rfl⟩ := List.mem_map.mp hn
  obtain ⟨e', he', hname⟩ := List.mem_map.mp hn'
  obtain ⟨n, fe, -, hfe, rfl⟩ := (mem_directEntries hf hd).mp he
  obtain ⟨n', ce, -, hce, rfl⟩ := (mem_directEntries hc hd).mp he'
  obtain rfl : n' = n := hname
  exact h.not_both hfe hce

theorem mem_placed (hf : Spelled files) (hc : Spelled carried) (hd : ∀ d ∈ ds, IsName d)
    {e : TreeEntry} :
    e ∈ builtEntries files (dirPrefix ds) ++ carriedEntries carried (dirPrefix ds) ↔
      Placed files carried ds e := by
  unfold builtEntries carriedEntries
  rw [List.mem_append, mem_directEntries hf hd, mem_directEntries hc hd]
  constructor
  · rintro (⟨name, fe, hn, h, rfl⟩ | ⟨name, entry, hn, h, rfl⟩)
    · exact .file hn h
    · exact .carried hn h
  · rintro (⟨hn, h⟩ | ⟨hn, h⟩)
    · exact .inl ⟨_, _, hn, h, rfl⟩
    · exact .inr ⟨_, _, hn, h, rfl⟩

/-! ## The built trees -/

/-- Among `os` stands a tree, at address `id`, whose entries are exactly what is placed in `ds`
and the subdirectories of `ds`, each built in turn. -/
def Built (idOf : Object → ObjectId) (files : FileMap) (carried : BTreeMap String TreeEntry)
    (os : List Object) : Nat → List String → ObjectId → Prop
  | 0, _, _ => False
  | n + 1, ds, id => ∃ t : Tree, .tree t ∈ os ∧ id = idOf (.tree t) ∧ t.Sorted ∧
      (∀ e ∈ t.entries, Placed files carried ds e ∨
        (IsName e.name ∧ Holds files carried (ds ++ [e.name]) ∧ e.kind = .tree ∧
          Built idOf files carried os n (ds ++ [e.name]) e.id)) ∧
      (∀ e, Placed files carried ds e → e ∈ t.entries) ∧
      ∀ name, IsName name → Holds files carried (ds ++ [name]) →
        ∃ e ∈ t.entries, e.name = name ∧ e.kind = .tree ∧
          Built idOf files carried os n (ds ++ [name]) e.id

theorem Built.mono {os os' : List Object} (hsub : os ⊆ os') {n : Nat} {id : ObjectId}
    (h : Built idOf files carried os n ds id) : Built idOf files carried os' n ds id := by
  induction n generalizing ds id with
  | zero => exact h
  | succ n ih =>
    obtain ⟨t, ht, hid, hs, hall, hplaced, hholds⟩ := h
    refine ⟨t, hsub ht, hid, hs, fun e he => ?_, hplaced, fun name hn hh => ?_⟩
    · exact (hall e he).imp_right (fun ⟨hn, hh, hk, hb⟩ => ⟨hn, hh, hk, ih hb⟩)
    · obtain ⟨e, he, hname, hk, hb⟩ := hholds name hn hh
      exact ⟨e, he, hname, hk, ih hb⟩

theorem childPrefix_eq (hd : ∀ d ∈ ds, IsName d) {name : String} (hn : IsName name) :
    (if dirPrefix ds = "" then name ++ "/" else dirPrefix ds ++ name ++ "/") =
      dirPrefix (ds ++ [name]) := by
  rw [dirPrefix_append_singleton hd hn]
  split_ifs with h
  · rw [h, String.empty_append]
  · rfl

theorem isName_append_singleton (hd : ∀ d ∈ ds, IsName d) {name : String} (hn : IsName name) :
    ∀ d ∈ ds ++ [name], IsName d := by
  intro d h
  rcases List.mem_append.mp h with h | h
  · exact hd d h
  · exact List.mem_singleton.mp h ▸ hn

/-- The tree put for a directory, given the entries of its subdirectories. -/
theorem sorted_entries (h : Clear files carried) (hf : Spelled files) (hc : Spelled carried)
    (hd : ∀ d ∈ ds, IsName d) {dirs : List TreeEntry}
    (hdirs : dirs.map (·.name) = (subdirs files carried (dirPrefix ds)).toList) :
    (Tree.new (builtEntries files (dirPrefix ds) ++ carriedEntries carried (dirPrefix ds) ++
      dirs)).Sorted := by
  refine Tree.new_sorted ?_
  rw [List.map_append]
  refine (h.nodup_placed hf hc hd).append (hdirs ▸ BTreeSet.nodup_toList _) ?_
  intro name hn hn'
  obtain ⟨e, he, rfl⟩ := List.mem_map.mp hn
  rw [hdirs] at hn'
  exact h.not_holds hd ((mem_placed hf hc hd).mp he) ((mem_subdirs hf hc hd).mp hn').2

/-- With levels left for every path below `ds`, the builder builds `ds`. -/
theorem buildSubtreeInner_built (h : Clear files carried) (hf : Spelled files)
    (hc : Spelled carried) {n : Nat} (hpos : 0 < n) (hd : ∀ d ∈ ds, IsName d)
    (hdeep : ∀ es, (∀ e ∈ es, IsName e) → ofNames (ds ++ es) ∈ files.keys ++ carried.keys →
      es.length < n) :
    ∃ id os, Emits (buildSubtreeInner idOf files carried n (dirPrefix ds)) id os ∧
      Built idOf files carried os n ds id := by
  induction n generalizing ds with
  | zero => omega
  | succ n ih =>
    let buildDir : String → Puts TreeEntry := fun dir => do
      let childPrefix := if dirPrefix ds = "" then dir ++ "/" else dirPrefix ds ++ dir ++ "/"
      pure (dirEntry dir (← buildSubtreeInner idOf files carried n childPrefix))
    have hdir : ∀ dir ∈ (subdirs files carried (dirPrefix ds)).toList,
        ∃ e os, Emits (buildDir dir) e os ∧ e.name = dir ∧
          (e.kind = .tree ∧ Built idOf files carried os n (ds ++ [e.name]) e.id) := by
      intro dir hdir
      obtain ⟨hn, hh⟩ := (mem_subdirs hf hc hd).mp hdir
      have hdeep' : ∀ es, (∀ e ∈ es, IsName e) →
          ofNames (ds ++ [dir] ++ es) ∈ files.keys ++ carried.keys → es.length + 1 < n + 1 := by
        intro es hnames hp
        rw [List.append_assoc] at hp
        refine hdeep (dir :: es) (fun e he => ?_) hp
        rcases List.mem_cons.mp he with rfl | he
        · exact hn
        · exact hnames e he
      obtain ⟨es, hes, hnames, hp⟩ := hh
      have hlen := hdeep' es hnames hp
      obtain ⟨id, os, hid, hb⟩ := @ih (ds ++ [dir]) (by omega)
        (isName_append_singleton hd hn) (fun es hnames hp => by have := hdeep' es hnames hp; omega)
      refine ⟨dirEntry dir id, os, ?_, rfl, rfl, hb⟩
      rw [← childPrefix_eq hd hn] at hid
      exact hid.map (dirEntry dir)
    obtain ⟨dirs, os, hemits, hnames, hdirs⟩ := emits_mapM hdir
    let t := Tree.new (builtEntries files (dirPrefix ds) ++ carriedEntries carried (dirPrefix ds) ++
      dirs)
    have hmem : ∀ e, e ∈ t.entries ↔ Placed files carried ds e ∨ e ∈ dirs := by
      intro e
      rw [Tree.mem_new, List.mem_append, mem_placed hf hc hd]
    have hbuilt : ∀ e ∈ dirs, e.kind = .tree ∧
        Built idOf files carried (os ++ [.tree t]) n (ds ++ [e.name]) e.id := by
      intro e he
      obtain ⟨os', hsub, hk, hb⟩ := hdirs e he
      exact ⟨hk, hb.mono (fun o ho => List.mem_append_left _ (hsub ho))⟩
    refine ⟨idOf (.tree t), os ++ [.tree t], hemits.bind (emits_put idOf (.tree t)), t,
      List.mem_append_right os (List.mem_singleton_self _), rfl,
      sorted_entries h hf hc hd hnames, fun e he => ?_, fun e he => (hmem e).mpr (.inl he),
      fun name hn hh => ?_⟩
    · refine ((hmem e).mp he).imp_right (fun he => ?_)
      have hsub : e.name ∈ (subdirs files carried (dirPrefix ds)).toList :=
        hnames ▸ List.mem_map_of_mem he
      obtain ⟨hn, hh⟩ := (mem_subdirs hf hc hd).mp hsub
      exact ⟨hn, hh, hbuilt e he⟩
    · have hsub := (mem_subdirs hf hc hd).mpr ⟨hn, hh⟩
      rw [← hnames] at hsub
      obtain ⟨e, he, rfl⟩ := List.mem_map.mp hsub
      exact ⟨e, (hmem e).mpr (.inr he), rfl, hbuilt e he⟩

end SrcControl.TreeBuilder
