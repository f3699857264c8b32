import SrcControl.Lib.Outcome
import SrcControl.Repo.Materialize

/-!
# Edits of the working tree

What one path's calls do to the disk: an edit at a tracked path changes the file that
stands there, adds directories above it and removes empty ones below it, and touches no
other file and no link.
-/

namespace SrcControl

open SlashPath FileTree

namespace Worktree

/-- Every component can be joined onto the root. -/
def Safe (rel : String) : Prop := (split rel).any unsafePart = false

instance (rel : String) : Decidable (Safe rel) :=
  inferInstanceAs (Decidable ((split rel).any unsafePart = false))

theorem safeJoin_eq_ok_iff {rel : String} {full : Path OsName} :
    safeJoin rel = .ok full ↔ Safe rel ∧ full = names rel := by
  unfold safeJoin Safe
  split
  · next h => simp [h]
  · next h => simp [h, eq_comm]

/-! ## Components of a path -/

theorem split_inj {p q : String} (h : split p = split q) : p = q := by
  have hchars : ∀ s : String, (split s).map String.toList = s.toList.splitOn '/' := by
    intro s
    rw [split, List.map_map]
    exact List.map_id'' (fun _ => String.toList_ofList) _
  have hs : p.toList.splitOn '/' = q.toList.splitOn '/' := by rw [← hchars, ← hchars, h]
  have := congrArg (List.intercalate ['/']) hs
  rw [List.intercalate_splitOn, List.intercalate_splitOn] at this
  exact String.ext this

theorem Safe.isName {rel c : String} (h : Safe rel) (hc : c ∈ split rel) : IsName c := by
  refine isName_of_mem_split hc ?_
  rintro rfl
  have := List.any_eq_false.mp h "" hc
  simp [unsafePart] at this

theorem Safe.toStr_names {rel : String} (h : Safe rel) :
    (names rel).map OsName.toStr = (split rel).map some := by
  have hall : ∀ cs : List String, (∀ c ∈ cs, IsName c) →
      (cs.filterMap OsName.ofString).map OsName.toStr = cs.map some := by
    intro cs
    induction cs with
    | nil => exact fun _ => rfl
    | cons c cs ih =>
      intro hcs
      have hc : OsName.ofString c = some (.text c (hcs c (by simp))) := dif_pos _
      rw [List.filterMap_cons, hc, List.map_cons, List.map_cons,
        ih (fun d hd => hcs d (by simp [hd]))]
      rfl
  exact hall _ (fun c hc => h.isName hc)

theorem names_inj {p q : String} (hp : Safe p) (hq : Safe q) (h : names p = names q) : p = q := by
  have hs := congrArg (List.map OsName.toStr) h
  rw [hp.toStr_names, hq.toStr_names] at hs
  exact split_inj (List.map_injective_iff.mpr (Option.some_injective String) hs)

theorem Safe.names_ne_nil {rel : String} (h : Safe rel) : names rel ≠ [] := by
  intro hnil
  have hs := h.toStr_names
  rw [hnil] at hs
  exact split_ne_nil rel (by simpa using hs.symm)

theorem names_slash (p q : String) : names (p ++ "/" ++ q) = names p ++ names q := by
  rw [names, split_slash, List.filterMap_append]
  rfl

theorem Safe.of_slash {p q : String} (h : Safe (p ++ "/" ++ q)) : Safe p ∧ Safe q := by
  unfold Safe at h ⊢
  rw [split_slash, List.any_append, Bool.or_eq_false_iff] at h
  exact h

/-- A directory above a safe path is spelled by one of its ancestors. -/
theorem Safe.ancestor {rel : String} (h : Safe rel) {r s : Path OsName} (hrs : names rel = r ++ s)
    (hr : r ≠ []) (hs : s ≠ []) :
    ∃ parent rest, rel = parent ++ "/" ++ rest ∧ names parent = r ∧ names rest = s := by
  have hmap := h.toStr_names
  rw [hrs, List.map_append] at hmap
  obtain ⟨cs, ds, hsplit, hcs, hds⟩ := List.append_eq_map_iff.mp hmap
  have hname : ∀ c ∈ split rel, IsName c := fun c hc => h.isName hc
  rw [hsplit] at hname
  have hcn : ∀ c ∈ cs, IsName c := fun c hc => hname c (by simp [hc])
  have hdn : ∀ d ∈ ds, IsName d := fun d hd => hname d (by simp [hd])
  have hcne : cs ≠ [] := by
    rintro rfl
    exact hr (by simpa using hcs)
  have hdne : ds ≠ [] := by
    rintro rfl
    exact hs (by simpa using hds)
  have hnames : ∀ {es : List String} {t : Path OsName}, (∀ e ∈ es, IsName e) → es ≠ [] →
      es.map some = t.map OsName.toStr → names (ofNames es) = t := by
    intro es t he hne hmap
    have hspell : ∀ (es : List String) (t : Path OsName), es.map some = t.map OsName.toStr →
        es.filterMap OsName.ofString = t := by
      intro es
      induction es with
      | nil =>
        intro t ht
        simpa using ht.symm
      | cons e es ih =>
        intro t ht
        cases t with
        | nil => cases ht
        | cons n t =>
          obtain ⟨hn, htail⟩ := List.cons_eq_cons.mp ht
          cases n with
          | raw b => cases hn
          | text name hname =>
            cases hn
            rw [List.filterMap_cons, show OsName.ofString e = some (.text e hname) from
              dif_pos hname, ih t htail]
    rw [names, split_ofNames he hne]
    exact hspell es t hmap
  refine ⟨ofNames cs, ofNames ds, ?_, hnames hcn hcne hcs, hnames hdn hdne hds⟩
  refine split_inj ?_
  rw [← ofNames_append hcn hcne hdn hdne, split_ofNames hname (by simp [hcne]), hsplit]

theorem names_childPath {rel : String} {children : List String} {r : Path OsName}
    (h : r.mapM OsName.toStr = some children) :
    names (childPath rel children) = names rel ++ r := by
  induction r generalizing rel children with
  | nil =>
    cases h
    simp [childPath]
  | cons n r ih =>
    rw [List.mapM_cons] at h
    cases n with
    | raw b => cases h
    | text name hname =>
      obtain ⟨c, hc, h⟩ := Option.bind_eq_some_iff.mp h
      obtain ⟨rest, hrest, hcons⟩ := Option.bind_eq_some_iff.mp h
      cases hc
      cases hcons
      have hone : names name = [.text name hname] := by
        rw [names, split_name hname.2, List.filterMap_cons,
          show OsName.ofString name = some (.text name hname) from dif_pos hname]
        rfl
      rw [childPath, List.foldl_cons, ← childPath, ih hrest, names_slash, hone,
        List.append_assoc]
      rfl

/-! ## What stands at a plain path -/

section Plain

variable {layout : Layout} {disk : WorkDisk}

theorem standsAs_iff {full : Path OsName} (hp : disk.Plain layout.root full)
    (hroot : disk.node layout.root = some .dir) {test : Node OsName FileData → Bool} :
    standsAs layout disk full test = true ↔
      ∃ n, disk.node (layout.root ++ full) = some n ∧ test n = true := by
  rw [standsAs, Disk.lstat_plain hp hroot]
  cases disk.node (layout.root ++ full) <;> simp

theorem plain_of_ancestors {rel : String} (hroot : disk.node layout.root = some .dir)
    (hsafe : Safe rel)
    (h : ∀ parent ∈ ancestors rel, standsAs layout disk (names parent) Node.isSymlink = false) :
    disk.Plain layout.root (names rel) := by
  have hrun : ∀ n (r s : Path OsName), r.length = n → names rel = r ++ s → s ≠ [] →
      ∀ l, disk.node (layout.root ++ r) ≠ some (.symlink l) := by
    intro n
    induction n using Nat.strong_induction_on with
    | h n ih =>
      intro r s hlen hrs hs l hl
      by_cases hr : r = []
      · rw [hr, List.append_nil, hroot] at hl
        cases hl
      obtain ⟨parent, rest, hrel, hparent, -⟩ := hsafe.ancestor hrs hr hs
      have hplain : disk.Plain layout.root r := by
        intro a b hab hb
        refine ih a.length ?_ a (b ++ s) rfl (by rw [hrs, hab, List.append_assoc]) (by simp [hb])
        rw [← hlen, hab, List.length_append]
        have := List.length_pos_iff.mpr hb
        omega
      have hfalse := h parent (mem_ancestors.mpr ⟨rest, hrel⟩)
      rw [hparent] at hfalse
      exact Bool.eq_false_iff.mp hfalse ((standsAs_iff hplain hroot).mpr ⟨_, hl, rfl⟩)
  exact fun r s hrs hs => hrun r.length r s rfl hrs hs

theorem plain_of_underSymlink {rel : String} (hroot : disk.node layout.root = some .dir)
    (hsafe : Safe rel) (h : underSymlink layout disk rel = false) :
    disk.Plain layout.root (names rel) :=
  plain_of_ancestors hroot hsafe (fun parent hparent =>
    Bool.eq_false_iff.mpr (List.any_eq_false.mp h parent hparent))

theorem diskBlobId_eq_some_iff {full : Path OsName} (hp : disk.Plain layout.root full)
    (hroot : disk.node layout.root = some .dir) {idOf : Object → ObjectId} {id : ObjectId} :
    diskBlobId layout disk idOf full = some id ↔
      ∃ c, disk.node (layout.root ++ full) = some (.file c) ∧ idOf (.blob c.bytes) = id := by
  simp only [← Disk.lstat_eq_ok_iff hp hroot, diskBlobId]
  cases disk.lstat layout.root full with
  | error e => simp
  | ok n => cases n <;> simp

end Plain

/-! ## Edits -/

/-- From `d` to `d'` only the file at the tracked path `p` changed, directories came up on the
way to it, and directories below it went. -/
structure Edit (root : Path OsName) (p : String) (d d' : WorkDisk) : Prop where
  links : ∀ q l, d'.node q = some (.symlink l) ↔ d.node q = some (.symlink l)
  files : ∀ q c, q ≠ root ++ names p → (d'.node q = some (.file c) ↔ d.node q = some (.file c))
  made : ∀ q, d.node q = none → d'.node q ≠ none → ∃ r, q = root ++ r ∧ r <+: names p
  gone : ∀ q, d.node q = some .dir → d'.node q ≠ some .dir → root ++ names p <+: q

namespace Edit

variable {root : Path OsName} {p : String} {d d' d'' : WorkDisk}

theorem refl (root : Path OsName) (p : String) (d : WorkDisk) : Edit root p d d :=
  ⟨fun _ _ => .rfl, fun _ _ _ => .rfl, fun _ h h' => absurd h h', fun _ h h' => absurd h h'⟩

theorem trans (h : Edit root p d d') (h' : Edit root p d' d'') : Edit root p d d'' where
  links q l := (h'.links q l).trans (h.links q l)
  files q c hq := (h'.files q c hq).trans (h.files q c hq)
  made q hn hm := by
    by_cases hq : d'.node q = none
    · exact h'.made q hq hm
    · exact h.made q hn hq
  gone q hd hg := by
    by_cases hq : d'.node q = some .dir
    · exact h'.gone q hq hg
    · exact h.gone q hd hq

theorem plain (h : Edit root p d d') {r : Path OsName} (hp : d.Plain root r) : d'.Plain root r :=
  fun a b hab hb l hl => hp a b hab hb l ((h.links _ l).mp hl)

theorem root_dir (h : Edit root p d d') (hsafe : Safe p) (hroot : d.node root = some .dir) :
    d'.node root = some .dir := by
  by_contra hne
  have := (h.gone root hroot hne).length_le
  rw [List.length_append] at this
  exact hsafe.names_ne_nil (List.eq_nil_of_length_eq_zero (by omega))

/-- What an edit changes lies along its path. -/
theorem along (h : Edit root p d d') {q : Path OsName} (hq : d'.node q ≠ d.node q) :
    ∃ r, q = root ++ r ∧ (r <+: names p ∨ (names p <+: r ∧ d.node q = some .dir)) := by
  cases hd : d.node q with
  | none =>
    obtain ⟨r, rfl, hr⟩ := h.made q hd (by rw [← hd]; exact hq)
    exact ⟨r, rfl, .inl hr⟩
  | some n =>
    cases n with
    | dir =>
      obtain ⟨t, rfl⟩ := h.gone q hd (by rw [← hd]; exact hq)
      exact ⟨names p ++ t, by rw [List.append_assoc], .inr ⟨List.prefix_append _ _, rfl⟩⟩
    | symlink l => exact absurd (by rw [hd]; exact (h.links q l).mpr hd) hq
    | file c =>
      by_cases hat : q = root ++ names p
      · exact ⟨names p, hat, .inl List.prefix_rfl⟩
      · exact absurd (by rw [hd]; exact (h.files q c hat).mpr hd) hq

end Edit

section Calls

variable {root : Path OsName} {p : String} {d d' : WorkDisk}

theorem removed_edit (hlink : ∀ l, d.node (root ++ names p) ≠ some (.symlink l))
    (hnode : ∀ q, d'.node q = if q = root ++ names p then none else d.node q) :
    Edit root p d d' := by
  refine ⟨fun q l => ?_, fun q c hq => ?_, fun q hq hq' => ?_, fun q hq hq' => ?_⟩
  · rw [hnode]
    split
    · next he => simp [he, hlink]
    · rfl
  · rw [hnode, if_neg hq]
  · rw [hnode, hq, ite_self] at hq'
    exact absurd rfl hq'
  · rw [hnode] at hq'
    split at hq'
    · next he => exact he ▸ List.prefix_rfl
    · exact absurd hq hq'

theorem write_edit {c : FileData} (hp : d.Plain root (names p)) (hroot : d.node root = some .dir)
    (hlink : ∀ l, d.node (root ++ names p) ≠ some (.symlink l))
    (h : d.write root (names p) c = .ok d') :
    Edit root p d d' ∧ d'.node (root ++ names p) = some (.file c) := by
  obtain ⟨hdir, hnode⟩ := Disk.write_plain hp hroot hlink h
  refine ⟨⟨fun q l => ?_, fun q c hq => ?_, fun q hq hq' => ?_, fun q hq hq' => ?_⟩, ?_⟩
  · rw [hnode]
    split
    · next he => simp [he, hlink]
    · rfl
  · rw [hnode, if_neg hq]
  · rw [hnode] at hq'
    split at hq'
    · next he => exact ⟨names p, he, List.prefix_rfl⟩
    · exact absurd hq hq'
  · rw [hnode] at hq'
    split at hq'
    · next he => exact he ▸ List.prefix_rfl
    · exact absurd hq hq'
  · rw [hnode, if_pos rfl]

theorem prune_edit (hp : d.Plain root (names p)) (hroot : d.node root = some .dir)
    (hat : d.node (root ++ names p) = some .dir) (h : d.prune root (names p) = .ok d') :
    Edit root p d d' ∧ d'.node (root ++ names p) = none := by
  obtain ⟨hbelow, hnode⟩ := Disk.prune_plain hp hroot h
  have hdirs : ∀ q, root ++ names p <+: q → d.node q ≠ none → d.node q = some .dir := by
    rintro q ⟨t, rfl⟩ hq
    by_cases ht : t = []
    · rwa [ht, List.append_nil]
    · exact hbelow t ht hq
  refine ⟨⟨fun q l => ?_, fun q c _ => ?_, fun q hq hq' => ?_, fun q hq hq' => ?_⟩, ?_⟩
  · rw [hnode]
    split
    · next he =>
      refine ⟨nofun, fun h => ?_⟩
      rw [hdirs q he (by rw [h]; simp)] at h
      cases h
    · rfl
  · rw [hnode]
    split
    · next he =>
      refine ⟨nofun, fun h => ?_⟩
      rw [hdirs q he (by rw [h]; simp)] at h
      cases h
    · rfl
  · rw [hnode, hq, ite_self] at hq'
    exact absurd rfl hq'
  · rw [hnode] at hq'
    split at hq'
    · next he => exact he
    · exact absurd hq hq'
  · rw [hnode, if_pos List.prefix_rfl]

theorem grown_edit {r : Path OsName} (hr : r <+: names p) (h : Disk.Grown d d' root r) :
    Edit root p d d' := by
  refine ⟨fun q l => h.symlink_iff, fun q c _ => ?_, fun q hq hq' => ?_, fun q hq hq' => ?_⟩
  · rcases h q with he | ⟨hn, hd, -⟩
    · rw [he]
    · simp [hn, hd]
  · rcases h q with he | ⟨-, -, t, -, ht, rfl⟩
    · rw [he] at hq'
      exact absurd hq hq'
    · exact ⟨t, rfl, ht.trans hr⟩
  · exact absurd (h.dir hq) hq'

end Calls

/-! ## What a run may have changed -/

/-- From `d₀` to `d` no link changed, only the files `may` names did, and every change lies
along one of `paths`, with no link on the way. -/
structure Frame (root : Path OsName) (paths : String → Prop) (may : String → FileData → Prop)
    (d₀ d : WorkDisk) : Prop where
  root_dir : d.node root = some .dir
  links : ∀ q l, d.node q = some (.symlink l) ↔ d₀.node q = some (.symlink l)
  files : ∀ q c, d₀.node q = some (.file c) →
    d.node q = some (.file c) ∨ ∃ p, Safe p ∧ q = root ++ names p ∧ may p c
  along : ∀ q, d.node q ≠ d₀.node q → ∃ p r, paths p ∧ q = root ++ r ∧
    (r <+: names p ∨ names p <+: r) ∧ d₀.Plain root r

namespace Frame

variable {root : Path OsName} {paths : String → Prop} {may : String → FileData → Prop}
  {d₀ d d' : WorkDisk}

theorem refl (hroot : d₀.node root = some .dir) : Frame root paths may d₀ d₀ :=
  ⟨hroot, fun _ _ => .rfl, fun _ _ h => .inl h, fun _ h => absurd rfl h⟩

theorem plain_iff (h : Frame root paths may d₀ d) {r : Path OsName} :
    d.Plain root r ↔ d₀.Plain root r :=
  ⟨fun hp a b hab hb l hl => hp a b hab hb l ((h.links _ l).mpr hl),
    fun hp a b hab hb l hl => hp a b hab hb l ((h.links _ l).mp hl)⟩

theorem edit (h : Frame root paths may d₀ d) {p : String} (he : Edit root p d d') (hsafe : Safe p)
    (hpath : paths p) (hp : d₀.Plain root (names p))
    (hmay : ∀ c, d.node (root ++ names p) = some (.file c) → may p c) :
    Frame root paths may d₀ d' where
  root_dir := he.root_dir hsafe h.root_dir
  links q l := (he.links q l).trans (h.links q l)
  files q c hq := by
    rcases h.files q c hq with hd | hours
    · by_cases hat : q = root ++ names p
      · exact .inr ⟨p, hsafe, hat, hmay c (hat ▸ hd)⟩
      · exact .inl ((he.files q c hat).mpr hd)
    · exact .inr hours
  along q hq := by
    by_cases hd : d.node q = d₀.node q
    · rw [← hd] at hq
      obtain ⟨r, rfl, hr | ⟨⟨t, rfl⟩, hdir⟩⟩ := he.along hq
      · obtain ⟨s, hs⟩ := hr
        exact ⟨p, r, hpath, rfl, .inl ⟨s, hs⟩, Disk.Plain.above (s := s) (hs.symm ▸ hp)⟩
      · refine ⟨p, names p ++ t, hpath, rfl, .inr (List.prefix_append _ _), ?_⟩
        -- everything above the directory that went was a directory when it went
        intro a b hab hb l hl
        have habove : d.node (root ++ a) = some .dir := by
          refine Disk.dir_above (r := b) ?_ hb
          rw [List.append_assoc, ← hab, hdir]
          simp
        rw [← h.links, habove] at hl
        cases hl
    · exact h.along q hd

end Frame

/-! ## The outcome of each call -/

open Fallible (Outcome)

/-- Everything below the tracked path `p` is a directory with a textual name. -/
def Husk (root : Path OsName) (p : String) (d : WorkDisk) : Prop :=
  ∀ t, t ≠ [] → d.node (root ++ names p ++ t) ≠ none →
    d.node (root ++ names p ++ t) = some .dir ∧ ∀ n ∈ t, n.toStr ≠ none

theorem mapM_toStr_iff {t : Path OsName} :
    (∃ children, t.mapM OsName.toStr = some children) ↔ ∀ n ∈ t, n.toStr ≠ none := by
  induction t with
  | nil => simp
  | cons n t ih =>
    rw [List.forall_mem_cons, ← ih, List.mapM_cons]
    cases n.toStr with
    | none => simp
    | some c => cases t.mapM OsName.toStr <;> simp

section Outcomes

variable {layout : Layout} {p : String} {s : Checkout}

theorem dirClearable_iff {disk : WorkDisk} {removable : String → Bool}
    (hp : disk.Plain layout.root (names p)) (hroot : disk.node layout.root = some .dir)
    (hat : disk.node (layout.root ++ names p) = some .dir) :
    dirClearable layout disk (names p) p removable = true ↔
      ∀ t, t ≠ [] → disk.node (layout.root ++ names p ++ t) ≠ none →
        ∃ children, t.mapM OsName.toStr = some children ∧
          (disk.node (layout.root ++ names p ++ t) = some .dir ∨
            ((∃ c, disk.node (layout.root ++ names p ++ t) = some (.file c)) ∧
              removable (childPath p children) = true)) := by
  have hloc : disk.locate layout.root (names p) = .ok (layout.root ++ names p) := by
    rcases Disk.locate_plain hp hroot with hl | ⟨hnone, -⟩
    · exact hl
    · rw [hat] at hnone
      cases hnone
  simp only [dirClearable, hloc, Disk.dirAt_iff.mpr hat, Bool.true_and, List.all_eq_true,
    Disk.mem_below, and_imp]
  refine forall_congr' (fun t => forall_congr' (fun _ => forall_congr' (fun _ => ?_)))
  cases t.mapM OsName.toStr with
  | none => simp
  | some children =>
    cases hn : disk.node (layout.root ++ names p ++ t) with
    | none => simp
    | some n => cases n <;> simp

theorem removeFile_exact {full : Path OsName} (hp : s.disk.Plain layout.root full)
    (hroot : s.disk.node layout.root = some .dir) :
    Outcome (removeFile layout full) s
      (fun _ s' => s'.sparsePrev = s.sparsePrev ∧
        ∀ q, s'.disk.node q = if q = layout.root ++ full then none else s.disk.node q)
      (fun e s' => s' = s ∧ e = .core .io) := by
  unfold Outcome removeFile
  cases hun : s.disk.unlink layout.root full with
  | ok d => exact ⟨rfl, (Disk.unlink_plain hp hroot hun).2⟩
  | error e =>
    cases e with
    | notFound =>
      refine ⟨rfl, fun q => ?_⟩
      split
      · next hq => rw [hq, Disk.unlink_notFound hp hroot hun]
      · rfl
    | _ => exact ⟨rfl, rfl⟩

theorem removeFile_outcome (hp : s.disk.Plain layout.root (names p))
    (hroot : s.disk.node layout.root = some .dir)
    (hlink : ∀ l, s.disk.node (layout.root ++ names p) ≠ some (.symlink l)) :
    Outcome (removeFile layout (names p)) s
      (fun _ s' => Edit layout.root p s.disk s'.disk ∧ s'.sparsePrev = s.sparsePrev ∧
        s'.disk.node (layout.root ++ names p) = none)
      (fun e s' => s' = s ∧ e = .core .io) := by
  refine (removeFile_exact hp hroot).mono ?_ (fun _ _ h => h)
  rintro - s' ⟨hprev, hnode⟩
  exact ⟨removed_edit hlink hnode, hprev, by rw [hnode, if_pos rfl]⟩

theorem createDirAll_outcome (hp : s.disk.Plain layout.root (names p)) (hsafe : Safe p)
    (hroot : s.disk.node layout.root = some .dir) :
    Outcome (createDirAll layout (names p).dropLast) s
      (fun _ s' => Edit layout.root p s.disk s'.disk ∧ s'.sparsePrev = s.sparsePrev ∧
        (∀ q, s.disk.node q ≠ none → s'.disk.node q = s.disk.node q) ∧
        s'.disk.node (layout.root ++ (names p).dropLast) = some .dir)
      (fun e s' => Edit layout.root p s.disk s'.disk ∧ e = .core .io) := by
  obtain ⟨dir, name, hdir⟩ := List.eq_nil_or_concat (names p) |>.resolve_left hsafe.names_ne_nil
  rw [List.concat_eq_append] at hdir
  have hlast : (names p).dropLast = dir := by rw [hdir, List.dropLast_concat]
  have hpre : dir <+: names p := hdir ▸ List.prefix_append _ _
  have hplain : s.disk.Plain layout.root dir.reverse.reverse := by
    rw [List.reverse_reverse]
    rw [hdir] at hp
    exact hp.above
  have hmade := Disk.mkdirAll_made hplain hroot
  rw [List.reverse_reverse] at hmade
  rw [hlast]
  unfold Outcome createDirAll
  cases hrun : Disk.mkdirAll layout.root dir.reverse s.disk with
  | ok u d =>
    rw [hrun] at hmade
    refine ⟨grown_edit hpre hmade.1, rfl, fun q hq => ?_, hmade.2 (hp dir [name] hdir (by simp))⟩
    rcases hmade.1 q with he | ⟨hn, -⟩
    · exact he
    · exact absurd hn hq
  | error e d =>
    rw [hrun] at hmade
    exact ⟨grown_edit hpre hmade, rfl⟩

theorem writeFile_outcome {bytes : Bytes} {mode : FileMode}
    (hp : s.disk.Plain layout.root (names p)) (hroot : s.disk.node layout.root = some .dir)
    (hlink : ∀ l, s.disk.node (layout.root ++ names p) ≠ some (.symlink l)) :
    Outcome (writeFile layout (names p) bytes mode) s
      (fun _ s' => Edit layout.root p s.disk s'.disk ∧ s'.sparsePrev = s.sparsePrev ∧
        s'.disk.node (layout.root ++ names p) = some (.file ⟨bytes, mode⟩))
      (fun e s' => s' = s ∧ e = .core .io) := by
  unfold Outcome writeFile call
  dsimp only
  cases hw : s.disk.write layout.root (names p) ⟨bytes, mode⟩ with
  | ok d =>
    obtain ⟨hedit, hfile⟩ := write_edit hp hroot hlink hw
    exact ⟨hedit, rfl, hfile⟩
  | error e => exact ⟨rfl, rfl⟩

/-- Clearing fails only where more than a husk stands, and then changes nothing. -/
theorem clearDirObstruction_outcome (hp : s.disk.Plain layout.root (names p)) (hsafe : Safe p)
    (hroot : s.disk.node layout.root = some .dir) :
    Outcome (clearDirObstruction layout (names p) p) s
      (fun _ s' => Edit layout.root p s.disk s'.disk ∧ s'.sparsePrev = s.sparsePrev ∧
        s'.disk.node (layout.root ++ names p) ≠ some .dir)
      (fun e s' => s' = s ∧ e = dirInTheWay p ∧ ¬ Husk layout.root p s.disk) := by
  unfold Outcome clearDirObstruction
  by_cases hdir : s.disk.node (layout.root ++ names p) = some .dir
  · rw [if_pos ((standsAs_iff hp hroot).mpr ⟨_, hdir, rfl⟩)]
    have hiff : dirClearable layout s.disk (names p) p (fun _ => false) = true ↔ _ :=
      dirClearable_iff hp hroot hdir
    by_cases hclear : dirClearable layout s.disk (names p) p (fun _ => false) = true
    · rw [if_pos hclear]
      have hdirs := hiff.mp hclear
      obtain ⟨d, hd⟩ := Disk.prune_ok hp hroot (by simp [hsafe.names_ne_nil]) (by rw [hdir]; simp)
        (fun t ht hn => by
          obtain ⟨-, -, h | ⟨-, h⟩⟩ := hdirs t ht hn
          · exact h
          · cases h)
      rw [hd]
      obtain ⟨hedit, hnone⟩ := prune_edit hp hroot hdir hd
      exact ⟨hedit, rfl, by rw [hnone]; simp⟩
    · rw [if_neg hclear]
      refine ⟨rfl, rfl, fun hhusk => hclear (hiff.mpr (fun t ht hn => ?_))⟩
      obtain ⟨hd, htext⟩ := hhusk t ht hn
      obtain ⟨children, hc⟩ := mapM_toStr_iff.mpr htext
      exact ⟨children, hc, .inl hd⟩
  · have hno : ¬ standsAs layout s.disk (names p) Node.isDir = true := by
      rw [standsAs_iff hp hroot]
      rintro ⟨n, hn, hd⟩
      exact hdir (by rw [hn, Node.isDir_iff.mp hd])
    rw [if_neg hno]
    exact ⟨.refl _ _ _, rfl, hdir⟩

end Outcomes

end Worktree

end SrcControl
