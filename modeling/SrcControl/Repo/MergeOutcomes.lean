import SrcControl.Repo.MergeAgreement
import SrcControl.Repo.MergeLabels

/-!
# Outcomes of a tree merge

Merging with a side that did nothing gives back the other side, and no merge hands out
decrypted content of a protected side as plain.
-/

namespace SrcControl.MergeOutcomes

open Merge MergeTree TreeEntries SlashPath Fallible

variable {crypto : PathCrypto} {store : Store} {base : Option Side} {ours theirs r : Side}
  {identity : Option crypto.SecretKey}

/-! ## One side did nothing -/

/-- Two of the three trees are the same, and `r` is the side that is left. -/
def OneSided (base : Option Side) (ours theirs r : Side) : Prop :=
  (base.map (·.1) = some theirs.1 ∧ r = ours) ∨ (base.map (·.1) = some ours.1 ∧ r = theirs) ∨
    (ours.1 = theirs.1 ∧ r = ours)

/-- The file of a flattened entry, as it is stored. -/
def Copies (store : Store) (e : String × FileEntry) (f : MergedFile) : Prop :=
  ∃ bytes, store.blobBytes e.2.id = .ok bytes ∧ f = ⟨e.1, e.2.mode, bytes, e.2.perms, false⟩

theorem OneSided.mem_roots (h : OneSided base ours theirs r) : r.1 ∈ roots base ours theirs := by
  rcases h with ⟨-, rfl⟩ | ⟨-, rfl⟩ | ⟨-, rfl⟩ <;> simp [roots]

theorem OneSided.agrees (h : OneSided base ours theirs r) {fuel : Nat} {bF oF tF rF : FileMap}
    (hflat : Flattened fuel store base ours theirs bF oF tF)
    (hr : treeFileEntriesWithPerms fuel store r.1 = .ok rF) (p : String) :
    Agrees bF[p]? oF[p]? tF[p]? rF[p]? := by
  obtain ⟨hb, ho, ht⟩ := hflat
  have hbase : ∀ {root : ObjectId} {m : FileMap}, base.map (·.1) = some root →
      treeFileEntriesWithPerms fuel store root = .ok m → bF = m := by
    intro root m hroot hm
    obtain ⟨s, rfl, rfl⟩ := Option.map_eq_some_iff.mp hroot
    exact Except.ok.inj (hb.symm.trans hm)
  rcases h with ⟨hroot, rfl⟩ | ⟨hroot, rfl⟩ | ⟨hroot, rfl⟩
  · obtain rfl := hbase hroot ht
    obtain rfl := Except.ok.inj (ho.symm.trans hr)
    exact .inr (.inl ⟨rfl, rfl⟩)
  · obtain rfl := hbase hroot ho
    obtain rfl := Except.ok.inj (ht.symm.trans hr)
    exact .inr (.inr ⟨rfl, rfl⟩)
  · rw [hroot] at ho
    obtain rfl := Except.ok.inj (ho.symm.trans ht)
    rw [hroot] at hr
    obtain rfl := Except.ok.inj (ht.symm.trans hr)
    exact .inl ⟨rfl, rfl⟩

/-- Ascending lists of the same strings are the same list. -/
theorem eq_of_ascending {xs ys : List String} (hx : xs.Pairwise (fun a b => compare a b = .lt))
    (hy : ys.Pairwise (fun a b => compare a b = .lt)) (h : ∀ a, a ∈ xs ↔ a ∈ ys) : xs = ys := by
  have hnodup : ∀ {zs : List String}, zs.Pairwise (fun a b => compare a b = .lt) → zs.Nodup := by
    intro zs hz
    refine hz.imp (fun {a b} hab heq => ?_)
    subst heq
    simp at hab
  exact ((List.perm_ext_iff_of_nodup (hnodup hx) (hnodup hy)).mpr h).eq_of_pairwise
    (fun a b _ _ (hab : compare a b = .lt) (hba : compare b a = .lt) =>
      absurd hba (Std.OrientedCmp.not_lt_of_lt hab)) hx hy

/-- Distinct leaves of a full tree are never one below the other. -/
theorem leaves_apart {n : Nat} {root : ObjectId} (h : FullAt store n root)
    (hn : Named store root) {cs ds : List String} {fe fe' : FileEntry}
    (hl : Leaf store root cs fe) (hl' : Leaf store root ds fe') :
    ofNames ds ∉ ancestors (ofNames cs) := by
  intro hanc
  have hds : ds ≠ [] := by
    rintro rfl
    exact not_leaf_nil hl'
  obtain ⟨es, hes, rfl⟩ := (ofNames_mem_ancestors (hl.names hn) (hl'.names hn) hds).mp hanc
  exact hes (h.leaf_apart hl' hl)

/-- Where every path is settled, a run collects exactly the settled entries and reports nothing. -/
theorem forM_settled {f : String → MergeM PUnit} {rF : FileMap} (hf : ∀ p, AppendOnly (f p))
    (hs : ∀ p, Settled store p rF[p]? (f p)) (paths : List String) :
    ∃ acc, paths.forM f {} = .ok () acc ∧
      (∀ g, g ∈ acc.files ↔ g.path ∈ paths ∧ ∃ x, rF[g.path]? = some x ∧
        Copies store (g.path, x) g) ∧ acc.conflicts = [] ∧ acc.sidecars = [] := by
  obtain ⟨acc, hrun, hcol⟩ : ∃ acc, paths.forM f {} = .ok () acc ∧
      Collected (fun p => delta (f p)) (fun p => p ∈ paths) acc := by
    rcases Collected.forM hf (fun p => rfl) paths Collected.empty with
      ⟨acc, hrun, hcol⟩ | ⟨e, acc, -, p, -, hp⟩
    · exact ⟨acc, hrun, hcol.congr (fun p => by simp)⟩
    · obtain ⟨d, hd, -⟩ := hs p
      rw [hp] at hd
      cases hd
  refine ⟨acc, hrun, fun g => ?_, List.eq_nil_iff_forall_not_mem.mpr (fun c hc => ?_),
    List.eq_nil_iff_forall_not_mem.mpr (fun c hc => ?_)⟩
  · rw [hcol.files]
    constructor
    · rintro ⟨p, d, hp, hd, hg⟩
      obtain ⟨d', hd', -, -, hiff⟩ := hs p
      obtain rfl := Except.ok.inj (hd.symm.trans hd')
      obtain ⟨x, bytes, hx, hbytes, rfl⟩ := (hiff g).mp hg
      exact ⟨hp, x, hx, bytes, hbytes, rfl⟩
    · rintro ⟨hp, x, hx, bytes, hbytes, hg⟩
      obtain ⟨d, hd, -, -, hiff⟩ := hs g.path
      exact ⟨g.path, d, hp, hd, (hiff g).mpr ⟨x, bytes, hx, hbytes, hg⟩⟩
  · obtain ⟨p, d, -, hd, hmem⟩ := (hcol.conflicts c).mp hc
    obtain ⟨d', hd', -, hnone, -⟩ := hs p
    obtain rfl := Except.ok.inj (hd.symm.trans hd')
    simp [hnone] at hmem
  · obtain ⟨p, d, -, hd, hmem⟩ := (hcol.sidecars c).mp hc
    obtain ⟨d', hd', hnone, -, -⟩ := hs p
    obtain rfl := Except.ok.inj (hd.symm.trans hd')
    simp [hnone] at hmem

/-- Files in the order of their paths that copy the entries of a map copy them in its order. -/
theorem forall₂_copies {rF : FileMap} {files : List MergedFile}
    (hasc : (files.map (·.path)).Pairwise (fun a b => compare a b = .lt))
    (hiff : ∀ g, g ∈ files ↔ ∃ x, rF[g.path]? = some x ∧ Copies store (g.path, x) g)
    (hblob : ∀ (p : String) x, rF[p]? = some x → ∃ bytes, store.blobBytes x.id = .ok bytes) :
    List.Forall₂ (Copies store) rF.toList files := by
  have hsame : files.map (·.path) = rF.keys := by
    refine eq_of_ascending hasc Std.ExtTreeMap.ordered_keys (fun p => ?_)
    rw [BTreeMap.mem_keys_iff, List.mem_map]
    constructor
    · rintro ⟨g, hg, rfl⟩
      obtain ⟨x, hx, -⟩ := (hiff g).mp hg
      exact ⟨x, hx⟩
    · rintro ⟨x, hx⟩
      obtain ⟨bytes, hbytes⟩ := hblob p x hx
      exact ⟨⟨p, x.mode, bytes, x.perms, false⟩, (hiff _).mpr ⟨x, hx, bytes, hbytes, rfl⟩, rfl⟩
  rw [← Std.ExtTreeMap.map_fst_toList_eq_keys] at hsame
  have hlen : rF.toList.length = files.length := by
    have hl := congrArg List.length hsame
    simpa using hl.symm
  refine List.forall₂_iff_get.mpr ⟨hlen, fun i hi hj => ?_⟩
  obtain ⟨x, hx, hcopy⟩ := (hiff _).mp (List.get_mem files ⟨i, hj⟩)
  have hkey : (rF.toList.get ⟨i, hi⟩).1 = (files.get ⟨i, hj⟩).path := by
    have hi' := congrArg (fun l => l[i]?) hsame
    simp only [List.getElem?_map, List.getElem?_eq_getElem hj, List.getElem?_eq_getElem hi,
      Option.map_some, Option.some.injEq] at hi'
    exact hi'.symm
  have hval := (BTreeMap.mem_toList_iff rF _ _).mp (List.get_mem rF.toList ⟨i, hi⟩)
  rw [hkey, hx] at hval
  have hentry : rF.toList.get ⟨i, hi⟩ = ((files.get ⟨i, hj⟩).path, x) :=
    Prod.ext hkey (Option.some_inj.mp hval).symm
  exact hentry ▸ hcopy

/-- A run over the paths without a collision is the merge. -/
theorem threeWayFiles_of_run {fuel : Nat} {bF oF tF : FileMap} {acc : MergeAcc}
    (hflat : Flattened fuel store base ours theirs bF oF tF)
    (hrun : (BTreeSet.ofList (bF.keys ++ oF.keys ++ tF.keys)).toList.forM (fun p =>
      mergePath crypto store p bF[p]? oF[p]? tF[p]?
        [ours.2, theirs.2, (base.map (·.2)).getD default] identity) {} = .ok () acc)
    (hcheck : checkPathCollisions (acc.files.map (·.path)) = .ok ()) :
    threeWayFiles crypto fuel store base ours theirs identity = .ok acc := by
  unfold threeWayFiles
  rw [hflat.base, hflat.ours, hflat.theirs]
  simp only [bind, Except.bind]
  rw [hrun]
  simp only [hcheck]
  rfl

/-- Where every path is settled as the entry of a map whose paths lie apart, the merge gives the
files of the map. -/
theorem threeWayFiles_settled {fuel : Nat} {bF oF tF rF : FileMap}
    (hflat : Flattened fuel store base ours theirs bF oF tF)
    (hsettled : ∀ p, Settled store p rF[p]? (mergePath crypto store p bF[p]? oF[p]? tF[p]?
      [ours.2, theirs.2, (base.map (·.2)).getD default] identity))
    (hkeys : ∀ (p : String) x, rF[p]? = some x →
      p ∈ (BTreeSet.ofList (bF.keys ++ oF.keys ++ tF.keys)).toList)
    (hapart : ∀ (p a : String) x y, rF[p]? = some x → rF[a]? = some y → a ∉ ancestors p)
    (hblob : ∀ (p : String) x, rF[p]? = some x → ∃ bytes, store.blobBytes x.id = .ok bytes) :
    ∃ acc, threeWayFiles crypto fuel store base ours theirs identity = .ok acc ∧
      List.Forall₂ (Copies store) rF.toList acc.files ∧ acc.conflicts = [] ∧ acc.sidecars = [] := by
  obtain ⟨acc, hrun, hmem, hconf, hside⟩ := forM_settled (fun p => mergePath_appendOnly) hsettled
    (BTreeSet.ofList (bF.keys ++ oF.keys ++ tF.keys)).toList
  have hfiles : ∀ f, f ∈ acc.files ↔ ∃ x, rF[f.path]? = some x ∧ Copies store (f.path, x) f :=
    fun f => (hmem f).trans (and_iff_right_of_imp (fun ⟨x, hx, _⟩ => hkeys _ x hx))
  have hcheck : checkPathCollisions (acc.files.map (·.path)) = .ok () := by
    refine checkPathCollisions_ok_iff.mpr (fun p hp a ha hin => ?_)
    obtain ⟨f, hf, rfl⟩ := List.mem_map.mp hp
    obtain ⟨g, hg, rfl⟩ := List.mem_map.mp hin
    obtain ⟨x, hx, -⟩ := (hfiles f).mp hf
    obtain ⟨y, hy, -⟩ := (hfiles g).mp hg
    exact hapart _ _ x y hx hy ha
  have hok := threeWayFiles_of_run hflat hrun hcheck
  obtain ⟨_, _, _, -, hsub, -, -⟩ := threeWayFiles_labelled hok
  exact ⟨acc, hok, forall₂_copies (Std.ExtTreeSet.ordered_toList.sublist hsub) hfiles hblob, hconf,
    hside⟩

/-- Merging with a side that did nothing gives exactly the files of the side that is left, with
nothing to report and no identity asked for. -/
theorem threeWayFiles_oneSided (hin : MergeInputs store (roots base ours theirs))
    (hnames : ∀ root ∈ roots base ours theirs, Named store root)
    (h : OneSided base ours theirs r) :
    ∃ N, ∀ fuel ≥ N, ∃ acc files,
      threeWayFiles crypto fuel store base ours theirs identity = .ok acc ∧
        treeFileEntriesWithPerms fuel store r.1 = .ok files ∧
        List.Forall₂ (Copies store) files.toList acc.files ∧ acc.conflicts = [] ∧
        acc.sidecars = [] := by
  obtain ⟨n, hn⟩ := @exists_common_bound _ (fun root fuel => FullAt store fuel root)
    (roots base ours theirs) (fun root hroot => by
      obtain ⟨n, hn⟩ := hin.full root hroot
      exact ⟨n, fun fuel => hn.mono (by omega)⟩)
  have hfull : ∀ root ∈ roots base ours theirs, FullAt store (n + 1) root := fun root hroot =>
    Nat.add_comm 1 n ▸ hn root hroot 1
  have ho : ours.1 ∈ roots base ours theirs := by simp [roots]
  have ht : theirs.1 ∈ roots base ours theirs := by simp [roots]
  have hb : ∀ b ∈ base, b.1 ∈ roots base ours theirs := by
    rintro b hb
    simp [roots, Option.mem_def.mp hb]
  have hr := h.mem_roots
  obtain ⟨bF, hbok, hbspec, -⟩ := @base_files store base (n + 1)
    (fun b hmem => ⟨hfull _ (hb b hmem), hnames _ (hb b hmem)⟩)
  obtain ⟨oF, hook, hospec⟩ := treeFileEntriesWithPerms_spec (hfull _ ho) (hnames _ ho)
  obtain ⟨tF, htok, htspec⟩ := treeFileEntriesWithPerms_spec (hfull _ ht) (hnames _ ht)
  obtain ⟨rF, hrok, hrspec⟩ := treeFileEntriesWithPerms_spec (hfull _ hr) (hnames _ hr)
  -- an entry of one of the three maps is a leaf of one of the three trees
  have hleaf : ∀ (p : String) (x : FileEntry), (x ∈ bF[p]? ∨ x ∈ oF[p]? ∨ x ∈ tF[p]?) →
      ∃ root ∈ roots base ours theirs, ∃ ds, Leaf store root ds x := by
    rintro p x (hx | hx | hx)
    · obtain ⟨b, hmem, ds, hl, -⟩ := (hbspec p x).mp hx
      exact ⟨b.1, hb b hmem, ds, hl⟩
    · obtain ⟨ds, hl, -⟩ := (hospec p x).mp hx
      exact ⟨_, ho, ds, hl⟩
    · obtain ⟨ds, hl, -⟩ := (htspec p x).mp hx
      exact ⟨_, ht, ds, hl⟩
  refine ⟨n + 1, fun fuel hfuel => ?_⟩
  have hflat : Flattened fuel store base ours theirs bF oF tF :=
    ⟨hbok fuel hfuel, hook fuel hfuel, htok fuel hfuel⟩
  have hrfuel := hrok fuel hfuel
  have hleafR : ∀ (p : String) x, rF[p]? = some x → ∃ ds, Leaf store r.1 ds x ∧ p = ofNames ds :=
    fun p x hx => (hrspec p x).mp hx
  have hsettled : ∀ p, Settled store p rF[p]? (mergePath crypto store p bF[p]? oF[p]? tF[p]?
      [ours.2, theirs.2, (base.map (·.2)).getD default] identity) := by
    intro p
    refine mergePath_settled (h.agrees hflat hrfuel p) (fun x hx => ?_) (fun x hx => ?_)
      (fun x y hx hy hid => ?_)
    · obtain ⟨ds, hl, -⟩ := hleafR p x hx
      exact (hfull _ hr).leaf_blob hl
    · obtain ⟨ds, hl, -⟩ := hleafR p x hx
      exact hin.perms _ hr ds x hl
    · obtain ⟨root, hroot, ds, hl⟩ := hleaf p x hx
      obtain ⟨root', hroot', ds', hl'⟩ := hleaf p y hy
      exact hin.same root hroot root' hroot' ds ds' x y hl hl' hid
  have hkeys : ∀ (p : String) x, rF[p]? = some x →
      p ∈ (BTreeSet.ofList (bF.keys ++ oF.keys ++ tF.keys)).toList := by
    intro p x hx
    rw [BTreeSet.mem_toList_ofList]
    simp only [List.mem_append, BTreeMap.mem_keys_iff]
    rcases h.agrees hflat hrfuel p with ⟨-, heq⟩ | ⟨-, heq⟩ | ⟨-, heq⟩
    · exact .inl (.inr ⟨x, heq ▸ hx⟩)
    · exact .inl (.inr ⟨x, heq ▸ hx⟩)
    · exact .inr ⟨x, heq ▸ hx⟩
  have hapart : ∀ (p a : String) x y, rF[p]? = some x → rF[a]? = some y → a ∉ ancestors p := by
    intro p a x y hx hy ha
    obtain ⟨ds, hl, hp⟩ := hleafR p x hx
    obtain ⟨ds', hl', hp'⟩ := hleafR a y hy
    rw [hp, hp'] at ha
    exact leaves_apart (hfull _ hr) (hnames _ hr) hl hl' ha
  have hblob : ∀ (p : String) x, rF[p]? = some x → ∃ bytes, store.blobBytes x.id = .ok bytes := by
    intro p x hx
    obtain ⟨ds, hl, -⟩ := hleafR p x hx
    exact (hfull _ hr).leaf_blob hl
  obtain ⟨acc, hok, hcopies, hconf, hside⟩ := threeWayFiles_settled hflat hsettled hkeys hapart hblob
  exact ⟨acc, rF, hok, hrfuel, hcopies, hconf, hside⟩

/-- Ours edits `a` of the store with a subtree; theirs is the base. -/
theorem threeWayFiles_oneSided_edit : ∃ N, ∀ fuel ≥ N, ∃ acc files,
    threeWayFiles noCrypto fuel editStore (some (testId 3, default)) (testId 4, default)
      (testId 3, default) none = .ok acc ∧
    treeFileEntriesWithPerms fuel editStore (testId 4) = .ok files ∧
    List.Forall₂ (Copies editStore) files.toList acc.files ∧ acc.conflicts = [] ∧
    acc.sidecars = [] := by
  refine threeWayFiles_oneSided (r := (testId 4, default))
    (mergeInputs_of_plain (by decide) (fun root hroot => ⟨2, ?_⟩))
    (fun root _ id t _ ht => entries_forall (P := fun e => IsName e.name) (by decide) id t ht)
    (.inl ⟨rfl, rfl⟩)
  have hroot' : root = testId 3 ∨ root = testId 4 := by
    simpa [roots, or_comm, or_left_comm] using hroot
  rcases hroot' with rfl | rfl
  · exact editStore_full 3 (.inl rfl)
  · exact editStore_full 4 (.inr rfl)

/-! ## Decrypted content -/

/-- Every merged file is what its flags say, plaintext only where it must be sealed; where both
sides changed a path differently and one is protected, or a protected side outlives a deletion,
the file is there to be sealed; and what will be stored plain beside a protected side is a
stored blob with its own protection. -/
theorem threeWayFiles_labels {fuel : Nat} {acc : MergeAcc}
    (h : threeWayFiles crypto fuel store base ours theirs identity = .ok acc) :
    ∃ bF oF tF, Flattened fuel store base ours theirs bF oF tF ∧
      (acc.files.map (·.path)).Nodup ∧
      (∀ f ∈ acc.files, Labelled crypto store f.path
        [ours.2, theirs.2, (base.map (·.2)).getD default] identity bF[f.path]? oF[f.path]?
        tF[f.path]? f) ∧
      (∀ p, MustSeal bF[p]? oF[p]? tF[p]? →
        ∃ f ∈ acc.files, f.path = p ∧ f.needsEncrypt = true ∧ f.perms = PROTECTED) ∧
      ∀ f ∈ acc.files, f.needsEncrypt = false →
        (∃ e, (e ∈ oF[f.path]? ∨ e ∈ tF[f.path]?) ∧ e.perms &&& PROTECTED ≠ 0) →
        ∃ e, (e ∈ oF[f.path]? ∨ e ∈ tF[f.path]?) ∧ store.blobBytes e.id = .ok f.bytes ∧
          e.perms &&& PROTECTED = f.perms &&& PROTECTED := by
  obtain ⟨bF, oF, tF, hflat, hsub, hlab, hmust⟩ := threeWayFiles_labelled h
  refine ⟨bF, oF, tF, hflat, (BTreeSet.nodup_toList _).sublist hsub, fun f hf => (hlab f hf).label,
    fun p hp => ?_, fun f hf hne hprot => ?_⟩
  · obtain ⟨f, hf, rfl⟩ := hmust p hp
    exact ⟨f, hf, rfl, (hlab f hf).sealed hp⟩
  · cases (hlab f hf).label with
    | stored e he _ hbytes hbit => exact ⟨e, he, hbytes, hbit⟩
    | lines oe te ho ht hop htp =>
      obtain ⟨e, he, hp⟩ := hprot
      rw [ho, ht] at he
      rcases he with he | he
      · exact absurd (Option.some_inj.mp he ▸ hop) hp
      · exact absurd (Option.some_inj.mp he ▸ htp) hp
    | plaintext hne' _ =>
      rw [hne] at hne'
      cases hne'

/-- Theirs seals `a` anew; base and ours hold its old ciphertext. -/
def resealStore : Store :=
  testStore [(0, .blob [1]), (1, .blob [2]), (2, .tree ⟨[⟨"a", .blob, testId 0, .FILE, PROTECTED⟩]⟩),
    (3, .tree ⟨[⟨"a", .blob, testId 1, .FILE, PROTECTED⟩]⟩)]

def resealed : Except Error MergeAcc :=
  threeWayFiles noCrypto 1 resealStore (some (testId 2, default)) (testId 2, default)
    (testId 3, default) none

theorem threeWayFiles_labels_reseal : ∃ acc, resealed = .ok acc ∧
    (acc.files.map (·.path)).Nodup := by
  have hrun : ∃ acc, resealed = .ok acc := ⟨_, rfl⟩
  obtain ⟨acc, hacc⟩ := hrun
  obtain ⟨_, _, _, -, hnodup, -⟩ := threeWayFiles_labels hacc
  exact ⟨acc, hacc, hnodup⟩

/-- The sides keep the path with different keys, both protected, and the file is not to be
sealed: it is theirs' ciphertext. -/
theorem changed_ciphertext_carried : ∃ acc f oe te bF oF tF,
    resealed = .ok acc ∧ f ∈ acc.files ∧
      Flattened 1 resealStore (some (testId 2, default)) (testId 2, default) (testId 3, default)
        bF oF tF ∧
      oF[f.path]? = some oe ∧ tF[f.path]? = some te ∧ protKey oe ≠ protKey te ∧
      oe.perms &&& PROTECTED ≠ 0 ∧ te.perms &&& PROTECTED ≠ 0 ∧ f.needsEncrypt = false :=
  ⟨_, ⟨"a", .FILE, [2], PROTECTED, false⟩, ⟨testId 0, .FILE, PROTECTED⟩,
    ⟨testId 1, .FILE, PROTECTED⟩, _, _, _, rfl, List.mem_singleton_self _, ⟨rfl, rfl, rfl⟩, rfl, rfl,
    by decide, by decide, by decide, rfl⟩

end SrcControl.MergeOutcomes
