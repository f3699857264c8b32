import SrcControl.Repo.MergeTreeAgrees

/-!
# One merge, two engines

On a full store `merge_trees` finishes exactly when `three_way_files` does, and
what it enumerates together with the files of what it carries is the flatten
merge's result. The names of the trees must be single path components.
-/

namespace SrcControl.MergeTree

open Merge SlashPath TreeEntries Fallible

/-! ## What a carried subtree stands for -/

/-- The files of the tree `id`, laid out at the path `p`. -/
def flattenAt (fuel : Nat) (store : Store) (p : String) (id : ObjectId) :
    Except Error (List MergedFile) := do
  let files ← walkEntriesWithPerms store fuel id p ∅
  files.toList.mapM (fun f => do
    let bytes ← store.blobBytes f.2.id
    pure ⟨f.1, f.2.mode, bytes, f.2.perms, false⟩)

def flattenCarried (fuel : Nat) (store : Store) : Carried → Except Error (List MergedFile)
  | .root id => flattenAt fuel store "" id
  | .entries es => do
    let parts ← es.mapM (fun e => flattenAt fuel store e.1 e.2.id)
    pure parts.flatten

/-- No enumerated file lies at or below a carried path. -/
def CarriedApart (files : List MergedFile) : Carried → Prop
  | .root _ => files = []
  | .entries es => ∀ e ∈ es, ∀ f ∈ files, f.path ≠ e.1 ∧ e.1 ∉ ancestors f.path

/-- The tree merge's result reads as the flatten merge's. -/
structure SameMerge (fuel : Nat) (store : Store) (done : TreeMergeDone) (flat : MergeAcc) :
    Prop where
  files : ∃ carried, flattenCarried fuel store done.carried = .ok carried ∧
    ∀ f, f ∈ flat.files ↔ f ∈ done.merge.files ∨ f ∈ carried
  apart : CarriedApart done.merge.files done.carried
  conflicts : ∀ c, c ∈ done.merge.conflicts ↔ c ∈ flat.conflicts
  sidecars : ∀ s, s ∈ done.merge.sidecars ↔ s ∈ flat.sidecars

/-- The deliberate refusals of a merge. -/
def Refused (e : Error) : Prop := Refusal e ∨ ∃ p, e = .pathCollision p

/-- Both engines finish with the same merge, or both refuse; neither asks for objects. -/
def Agreement (fuel : Nat) (store : Store) :
    Except Error TreeMerge → Except Error MergeAcc → Prop
  | .ok (.done done), .ok flat => SameMerge fuel store done flat
  | .error e, .error e' => Refused e ∧ Refused e'
  | _, _ => False

/-- The merge's root trees, the base's first when there is one. -/
def roots (base : Option Side) (ours theirs : Side) : List ObjectId :=
  (base.map (·.1)).toList ++ [ours.1, theirs.1]

/-- Full trees of sorted nodes, with the perms a writer produces, equal blobs alike. -/
structure MergeInputs (store : Store) (rs : List ObjectId) : Prop where
  full : ∀ r ∈ rs, ∃ n, FullAt store n r
  perms : ∀ r ∈ rs, ∀ cs fe, Leaf store r cs fe → ValidPerms fe.perms
  same : ∀ r ∈ rs, ∀ r' ∈ rs, ∀ cs cs' x y, Leaf store r cs x → Leaf store r' cs' y →
    x.id = y.id → x.perms = y.perms

variable {crypto : PathCrypto} {store : Store}

/-- A file of a carried subtree `id` laid out at `cs`. -/
def CarriedFile (store : Store) (cs : List String) (id : ObjectId) (f : MergedFile) : Prop :=
  ∃ ds fe bytes, Leaf store id ds fe ∧ store.blobBytes fe.id = .ok bytes ∧
    f = ⟨ofNames (cs ++ ds), fe.mode, bytes, fe.perms, false⟩

theorem flattenAt_spec {n : Nat} {id : ObjectId} (h : FullAt store n id) (hn : Named store id)
    {cs : List String} (hcs : ∀ c ∈ cs, IsName c) {fuel : Nat} (hf : n ≤ fuel) :
    ∃ fs, flattenAt fuel store (ofNames cs) id = .ok fs ∧
      ∀ f, f ∈ fs ↔ CarriedFile store cs id f := by
  obtain ⟨files, hw, hov⟩ := walk_overlay (h.mono hf) hn hcs ∅
  have hmem : ∀ f : String × FileEntry, f ∈ files.toList ↔ TreePaths store cs id f.1 f.2 := by
    intro f
    rw [← hov.getElem?_eq_some_iff, ← BTreeMap.mem_toList_iff]
  obtain ⟨fs, hfs, hin⟩ := @mapM_ok Error _ _ (fun f : String × FileEntry => do
    let bytes ← store.blobBytes f.2.id
    pure (⟨f.1, f.2.mode, bytes, f.2.perms, false⟩ : MergedFile)) files.toList (by
      intro f hfm
      obtain ⟨ds, hl, _⟩ := (hmem f).mp hfm
      obtain ⟨bytes, hb⟩ := h.leaf_blob hl
      exact ⟨_, by rw [hb]; rfl⟩)
  refine ⟨fs, ?_, fun f => ?_⟩
  · unfold flattenAt
    rw [hw]
    exact hfs
  · rw [hin]
    constructor
    · rintro ⟨⟨key, fe⟩, hfm, hrun⟩
      obtain ⟨ds, hl, rfl⟩ := (hmem _).mp hfm
      obtain ⟨bytes, hb⟩ := h.leaf_blob hl
      refine ⟨ds, fe, bytes, hl, hb, ?_⟩
      simp only [hb] at hrun
      cases hrun
      rfl
    · rintro ⟨ds, fe, bytes, hl, hb, rfl⟩
      exact ⟨(_, fe), (hmem _).mpr ⟨ds, hl, rfl⟩, by simp only [hb]; rfl⟩

section Result

variable {sc : Scene crypto} {E : List String → Prop} {C : List (List String × TreeEntry)}
  {acc flat : MergeAcc}

/-- The carried part of a finished walk. -/
inductive CarriedAs (E : List String → Prop) :
    List (List String × TreeEntry) → Carried → Prop
  | entries (C : List (List String × TreeEntry)) : (∀ c ∈ C, c.1 ≠ []) →
      CarriedAs E C (.entries (C.map (fun c => (ofNames c.1, c.2))))
  | root (c : TreeEntry) : (∀ l, ¬ E l) → CarriedAs E [([], c)] (.root c.id)

theorem Region.carriedFiles (h : Region sc (Below []) E C) {carried : Carried}
    (hc : CarriedAs E C carried) :
    ∀ fuel ≥ sc.depth, ∃ fs, flattenCarried fuel sc.store carried = .ok fs ∧
      ∀ f, f ∈ fs ↔ ∃ c ∈ C, CarriedFile sc.store c.1 c.2.id f := by
  intro fuel hfuel
  have hspec : ∀ c ∈ C, ∃ fs, flattenAt fuel sc.store (ofNames c.1) c.2.id = .ok fs ∧
      ∀ f, f ∈ fs ↔ CarriedFile sc.store c.1 c.2.id f := fun c hc =>
    flattenAt_spec (h.carriedFull c hc).2 (h.carriedFull c hc).1 (h.carriedNames c hc) hfuel
  cases hc with
  | root c hE =>
    obtain ⟨fs, hfs, hmem⟩ := hspec ([], c) (by simp)
    exact ⟨fs, hfs, fun f => by rw [hmem f]; simp⟩
  | entries C hne =>
    obtain ⟨parts, hparts, hin⟩ := @mapM_ok Error _ _
      (fun e : String × TreeEntry => flattenAt fuel sc.store e.1 e.2.id)
      (C.map (fun c => (ofNames c.1, c.2))) (by
        intro e he
        obtain ⟨c, hc, rfl⟩ := List.mem_map.mp he
        obtain ⟨fs, hfs, _⟩ := hspec c hc
        exact ⟨fs, hfs⟩)
    refine ⟨parts.flatten, ?_, fun f => ?_⟩
    · simp only [flattenCarried, hparts]
      rfl
    · rw [List.mem_flatten]
      constructor
      · rintro ⟨part, hp, hf⟩
        obtain ⟨e, he, hrun⟩ := (hin part).mp hp
        obtain ⟨c, hc, rfl⟩ := List.mem_map.mp he
        obtain ⟨fs, hfs, hmem⟩ := hspec c hc
        rw [hfs] at hrun
        cases hrun
        exact ⟨c, hc, (hmem f).mp hf⟩
      · rintro ⟨c, hc, hf⟩
        obtain ⟨fs, hfs, hmem⟩ := hspec c hc
        exact ⟨fs, (hin fs).mpr ⟨_, List.mem_map.mpr ⟨c, hc, rfl⟩, hfs⟩, (hmem f).mpr hf⟩

/-- Every occupied path resolves once the enumerated ones do. -/
theorem Region.res_ok (h : Region sc (Below []) E C) (hE : ∀ l, E l → ∃ d, sc.res (ofNames l) = .ok d)
    {l : List String} (ho : sc.Occupied l) : ∃ d, sc.res (ofNames l) = .ok d := by
  rcases h.cover l (List.nil_prefix) ho with hl | ⟨c, hc, ds, rfl⟩ | hd
  · exact hE l hl
  · have hds : ∀ d ∈ ds, IsName d := fun d hd => ho.1 d (List.mem_append_right _ hd)
    obtain ⟨r, hag, _⟩ := h.taken c hc ds hds
    obtain ⟨d, hd, _⟩ := sc.settled hag
    exact ⟨d, hd⟩
  · obtain ⟨d, hd, _⟩ := sc.settled hd
    exact ⟨d, hd⟩

/-- What an occupied path that is not enumerated resolves to. -/
theorem Region.res_carried (h : Region sc (Below []) E C) {l : List String} (ho : sc.Occupied l)
    (hE : ¬ E l) {d : MergeAcc} (hd : sc.res (ofNames l) = .ok d) :
    d.sidecars = [] ∧ d.conflicts = [] ∧ ∀ f ∈ d.files, ∃ c ∈ C, CarriedFile sc.store c.1 c.2.id f := by
  rcases h.cover l (List.nil_prefix) ho with hl | ⟨c, hc, ds, rfl⟩ | hdel
  · exact absurd hl hE
  · have hds : ∀ d ∈ ds, IsName d := fun d hd => ho.1 d (List.mem_append_right _ hd)
    obtain ⟨r, hag, hr⟩ := h.taken c hc ds hds
    obtain ⟨d', hd', hs, hcf, hf⟩ := sc.settled hag
    have : d = d' := Except.ok.inj (hd.symm.trans hd')
    subst this
    refine ⟨hs, hcf, fun f hfm => ⟨c, hc, ?_⟩⟩
    obtain ⟨x, bytes, hx, hb, rfl⟩ := (hf f).mp hfm
    exact ⟨ds, x, bytes, (hr x).mp hx, hb, rfl⟩
  · obtain ⟨d', hd', hs, hcf, hf⟩ := sc.settled hdel
    have : d = d' := Except.ok.inj (hd.symm.trans hd')
    subst this
    refine ⟨hs, hcf, fun f hfm => ?_⟩
    obtain ⟨x, _, hx, _⟩ := (hf f).mp hfm
    cases hx

/-- A carried leaf is what its path resolves to. -/
theorem Region.carried_res (h : Region sc (Below []) E C) {c : List String × TreeEntry} (hc : c ∈ C)
    {f : MergedFile} (hf : CarriedFile sc.store c.1 c.2.id f) :
    ∃ l d, sc.Occupied l ∧ c.1 <+: l ∧ f.path = ofNames l ∧ sc.res (ofNames l) = .ok d ∧
      f ∈ d.files := by
  obtain ⟨ds, fe, bytes, hl, hb, rfl⟩ := hf
  have hds := hl.names (h.carriedFull c hc).1
  obtain ⟨r, hag, hr⟩ := h.taken c hc ds hds
  have hrf : r = some fe := (hr fe).mpr hl
  obtain ⟨d, hd, _, _, hfiles⟩ := sc.settled hag
  refine ⟨c.1 ++ ds, d, ⟨names_append (h.carriedNames c hc) hds, fe, ?_⟩, ⟨ds, rfl⟩, rfl, hd,
    (hfiles _).mpr ⟨fe, bytes, hrf, hb, rfl⟩⟩
  rcases hag with ⟨_, rfl⟩ | ⟨_, rfl⟩ | ⟨_, rfl⟩
  · exact .inr (.inl hrf)
  · exact .inr (.inl hrf)
  · exact .inr (.inr hrf)

/-- The two collections of one merge: what was enumerated, and every occupied path. -/
structure Results (sc : Scene crypto) (E : List String → Prop)
    (C : List (List String × TreeEntry)) (acc flat : MergeAcc) : Prop where
  region : Region sc (Below []) E C
  acc : Collected sc.res (fun p => ∃ l, E l ∧ p = ofNames l) acc
  flat : Collected sc.res (fun p => ∃ l, sc.Occupied l ∧ p = ofNames l) flat
  root : ¬ sc.Occupied []

theorem Results.files (h : Results sc E C acc flat) (f : MergedFile) :
    f ∈ flat.files ↔ f ∈ acc.files ∨ ∃ c ∈ C, CarriedFile sc.store c.1 c.2.id f := by
  rw [h.flat.files, h.acc.files]
  constructor
  · rintro ⟨p, d, ⟨l, ho, rfl⟩, hd, hf⟩
    by_cases hE : E l
    · exact .inl ⟨_, d, ⟨l, hE, rfl⟩, hd, hf⟩
    · exact .inr ((h.region.res_carried ho hE hd).2.2 f hf)
  · rintro (⟨p, d, ⟨l, hE, rfl⟩, hd, hf⟩ | ⟨c, hc, hf⟩)
    · exact ⟨_, d, ⟨l, (h.region.enumerated l hE).2, rfl⟩, hd, hf⟩
    · obtain ⟨l, d, ho, _, _, hd, hfd⟩ := h.region.carried_res hc hf
      exact ⟨_, d, ⟨l, ho, rfl⟩, hd, hfd⟩

theorem Results.reports {β : Type} {get : MergeAcc → List β} (h : Results sc E C acc flat)
    (hnil : ∀ {l d}, sc.Occupied l → ¬ E l → sc.res (ofNames l) = .ok d → get d = [])
    (hacc : ∀ x, x ∈ get acc ↔ ∃ p d, (∃ l, E l ∧ p = ofNames l) ∧ sc.res p = .ok d ∧ x ∈ get d)
    (hflat : ∀ x, x ∈ get flat ↔
      ∃ p d, (∃ l, sc.Occupied l ∧ p = ofNames l) ∧ sc.res p = .ok d ∧ x ∈ get d) (x : β) :
    x ∈ get acc ↔ x ∈ get flat := by
  rw [hacc, hflat]
  constructor
  · rintro ⟨p, d, ⟨l, hE, rfl⟩, hd, hx⟩
    exact ⟨_, d, ⟨l, (h.region.enumerated l hE).2, rfl⟩, hd, hx⟩
  · rintro ⟨p, d, ⟨l, ho, rfl⟩, hd, hx⟩
    by_cases hE : E l
    · exact ⟨_, d, ⟨l, hE, rfl⟩, hd, hx⟩
    · rw [hnil ho hE hd] at hx
      cases hx

theorem Results.acc_path (h : Results sc E C acc flat) {f : MergedFile} (hf : f ∈ acc.files) :
    ∃ l, E l ∧ sc.Occupied l ∧ f.path = ofNames l := by
  obtain ⟨p, d, ⟨l, hE, rfl⟩, hd, hfd⟩ := (h.acc.files f).mp hf
  exact ⟨l, hE, (h.region.enumerated l hE).2, sc.res_files hd hfd⟩

theorem prefix_comparable {l m n : List String} (hl : l <+: n) (hm : m <+: n) :
    l <+: m ∨ m <+: l := by
  rcases Nat.le_total l.length m.length with h | h
  · exact .inl (List.prefix_of_prefix_length_le hl hm h)
  · exact .inr (List.prefix_of_prefix_length_le hm hl h)

theorem Region.carried_unique (h : Region sc (Below []) E C) {c d : List String × TreeEntry}
    (hc : c ∈ C) (hd : d ∈ C) (hp : c.1 <+: d.1) : c = d := by
  by_contra hne
  have hg := List.pairwise_iff_getElem.mp h.pairwise
  obtain ⟨i, hi, rfl⟩ := List.mem_iff_getElem.mp hc
  obtain ⟨j, hj, rfl⟩ := List.mem_iff_getElem.mp hd
  rcases Nat.lt_trichotomy i j with hij | hij | hij
  · exact (hg i j hi hj hij).1 hp
  · subst hij
    exact hne rfl
  · exact (hg j i hj hi hij).2 hp

theorem Region.not_below (h : Region sc (Below []) E C) {l : List String} (hl : E l)
    {c : List String × TreeEntry} (hc : c ∈ C) {m : List String} (hm : c.1 <+: m) :
    ¬ l <+: m ∧ ¬ m <+: l := by
  obtain ⟨h₁, h₂⟩ := h.apart l hl c hc
  refine ⟨fun hlm => ?_, fun hml => h₁ (hm.trans hml)⟩
  rcases prefix_comparable hm hlm with h' | h'
  · exact h₁ h'
  · exact h₂ h'

/-- Where a file of the flatten merge comes from. -/
theorem Results.flat_path (h : Results sc E C acc flat) {f : MergedFile} (hf : f ∈ flat.files) :
    ∃ l, sc.Occupied l ∧ f.path = ofNames l ∧ ((E l ∧ f ∈ acc.files) ∨
      ∃ c ∈ C, ∃ ds fe, l = c.1 ++ ds ∧ Leaf sc.store c.2.id ds fe) := by
  rcases (h.files f).mp hf with hf | ⟨c, hc, ds, fe, bytes, hl, hb, rfl⟩
  · obtain ⟨l, hE, ho, hp⟩ := h.acc_path hf
    exact ⟨l, ho, hp, .inl ⟨hE, hf⟩⟩
  · obtain ⟨l, d, ho, _, hp, _⟩ := h.region.carried_res hc ⟨ds, fe, bytes, hl, hb, rfl⟩
    have hn := names_append (h.region.carriedNames c hc) (hl.names (h.region.carriedFull c hc).1)
    rw [ofNames_inj hn ho.1] at hp
    subst hp
    exact ⟨_, ho, rfl, .inr ⟨c, hc, ds, fe, rfl, hl⟩⟩

theorem Results.ne_nil (h : Results sc E C acc flat) {l : List String} (ho : sc.Occupied l) :
    l ≠ [] := by
  rintro rfl
  exact h.root ho

/-- Colliding paths of the flatten merge were both enumerated. -/
theorem Results.flat_collision (h : Results sc E C acc flat) {f g : MergedFile}
    (hf : f ∈ flat.files) (hg : g ∈ flat.files) (ha : g.path ∈ ancestors f.path) :
    f ∈ acc.files ∧ g ∈ acc.files := by
  obtain ⟨l, hol, hpl, hl⟩ := h.flat_path hf
  obtain ⟨m, hom, hpm, hm⟩ := h.flat_path hg
  rw [hpl, hpm, ofNames_mem_ancestors hol.1 hom.1 (h.ne_nil hom)] at ha
  obtain ⟨es, hes, rfl⟩ := ha
  have hpre : m <+: m ++ es := ⟨es, rfl⟩
  rcases hl with ⟨hEl, hfl⟩ | ⟨c, hc, ds, fe, hlc, hleaf⟩
  · rcases hm with ⟨_, hgm⟩ | ⟨d, hd, ds', fe', rfl, _⟩
    · exact ⟨hfl, hgm⟩
    · exact absurd hpre (h.region.not_below hEl hd ⟨ds', rfl⟩).2
  · have hcl : c.1 <+: m ++ es := ⟨ds, hlc.symm⟩
    rcases hm with ⟨hEm, _⟩ | ⟨d, hd, ds', fe', rfl, hleaf'⟩
    · exact absurd hpre (h.region.not_below hEm hc hcl).1
    · have hdl : d.1 <+: d.1 ++ ds' ++ es := (List.prefix_append _ _).trans hpre
      obtain rfl : c = d := by
        rcases prefix_comparable hcl hdl with h' | h'
        · exact h.region.carried_unique hc hd h'
        · exact (h.region.carried_unique hd hc h').symm
      rw [List.append_assoc] at hlc
      rw [← List.append_cancel_left hlc] at hleaf
      exact absurd ((h.region.carriedFull c hc).2.leaf_apart hleaf' hleaf) hes

theorem CarriedAs.mem_paths {carried : Carried} (hc : CarriedAs E C carried) {p : String}
    (hp : p ∈ carriedPaths carried) : ∃ c ∈ C, c.1 ≠ [] ∧ p = ofNames c.1 := by
  cases hc with
  | root c _ => cases hp
  | entries C hne =>
    simp only [carriedPaths, List.map_map, List.mem_map, Function.comp] at hp
    obtain ⟨c, hc, rfl⟩ := hp
    exact ⟨c, hc, hne c hc, rfl⟩

/-- Both engines see the same collisions. -/
theorem Results.collisions (h : Results sc E C acc flat) {carried : Carried}
    (hc : CarriedAs E C carried) :
    checkPathCollisions (acc.files.map (·.path) ++ carriedPaths carried) = .ok () ↔
      checkPathCollisions (flat.files.map (·.path)) = .ok () := by
  rw [checkPathCollisions_ok_iff, checkPathCollisions_ok_iff]
  constructor
  · intro hok p hp a ha hin
    obtain ⟨f, hf, rfl⟩ := List.mem_map.mp hp
    obtain ⟨g, hg, rfl⟩ := List.mem_map.mp hin
    obtain ⟨hf', hg'⟩ := h.flat_collision hf hg ha
    exact hok _ (List.mem_append_left _ (List.mem_map_of_mem hf')) _ ha
      (List.mem_append_left _ (List.mem_map_of_mem hg'))
  · intro hok p hp a ha hin
    -- a path of the check spelled by components, enumerated or carried
    have hspell : ∀ q ∈ acc.files.map (·.path) ++ carriedPaths carried, ∃ l,
        (∀ x ∈ l, IsName x) ∧ l ≠ [] ∧ q = ofNames l ∧
          ((E l ∧ q ∈ flat.files.map (·.path)) ∨ ∃ c ∈ C, c.1 = l) := by
      intro q hq
      rcases List.mem_append.mp hq with hq | hq
      · obtain ⟨f, hf, rfl⟩ := List.mem_map.mp hq
        obtain ⟨l, hE, ho, hpl⟩ := h.acc_path hf
        exact ⟨l, ho.1, h.ne_nil ho, hpl,
          .inl ⟨hE, List.mem_map_of_mem ((h.files f).mpr (.inl hf))⟩⟩
      · obtain ⟨c, hcm, hne, rfl⟩ := hc.mem_paths hq
        exact ⟨c.1, h.region.carriedNames c hcm, hne, rfl, .inr ⟨c, hcm, rfl⟩⟩
    obtain ⟨l, hnl, hl0, rfl, hl⟩ := hspell p hp
    obtain ⟨m, hnm, hm0, rfl, hm⟩ := hspell a hin
    obtain ⟨es, hes, hlm⟩ := (ofNames_mem_ancestors hnl hnm hm0).mp ha
    have hpre : m <+: l := ⟨es, hlm.symm⟩
    rcases hl with ⟨hEl, hfl⟩ | ⟨c, hcm, rfl⟩
    · rcases hm with ⟨_, hgm⟩ | ⟨d, hdm, rfl⟩
      · exact hok _ hfl _ ha hgm
      · exact (h.region.apart l hEl d hdm).1 hpre
    · rcases hm with ⟨hEm, _⟩ | ⟨d, hdm, rfl⟩
      · exact (h.region.apart m hEm c hcm).2 hpre
      · obtain rfl := h.region.carried_unique hdm hcm hpre
        exact hes (by simpa using hlm)

theorem Results.apart (h : Results sc E C acc flat) {carried : Carried}
    (hc : CarriedAs E C carried) : CarriedApart acc.files carried := by
  cases hc with
  | root c hE =>
    refine List.eq_nil_iff_forall_not_mem.mpr (fun f hf => ?_)
    obtain ⟨l, hl, _⟩ := h.acc_path hf
    exact hE l hl
  | entries C hne =>
    intro e he f hf
    obtain ⟨c, hcm, rfl⟩ := List.mem_map.mp he
    obtain ⟨l, hE, ho, hp⟩ := h.acc_path hf
    have hna := h.region.apart l hE c hcm
    constructor
    · intro heq
      rw [hp, ofNames_inj ho.1 (h.region.carriedNames c hcm)] at heq
      exact hna.1 (heq ▸ List.prefix_refl _)
    · intro ha
      rw [hp, ofNames_mem_ancestors ho.1 (h.region.carriedNames c hcm) (hne c hcm)] at ha
      obtain ⟨es, _, hl⟩ := ha
      exact hna.1 ⟨es, hl.symm⟩

/-- Finished runs of the two engines hold the same merge. -/
theorem Results.same (h : Results sc E C acc flat) {carried : Carried}
    (hc : CarriedAs E C carried) :
    ∀ fuel ≥ sc.depth, SameMerge fuel sc.store ⟨acc, carried⟩ flat := by
  intro fuel hfuel
  obtain ⟨fs, hfs, hmem⟩ := h.region.carriedFiles hc fuel hfuel
  refine ⟨⟨fs, hfs, fun f => ?_⟩, h.apart hc, ?_, ?_⟩
  · rw [h.files f, hmem f]
  · exact h.reports (fun ho hE hd => (h.region.res_carried ho hE hd).2.1) h.acc.conflicts
      h.flat.conflicts
  · exact h.reports (fun ho hE hd => (h.region.res_carried ho hE hd).1) h.acc.sidecars
      h.flat.sidecars

end Result

/-! ## The root -/

/-- What the walk has carried when it ends. -/
def Walk.finish (w : Walk) : Carried :=
  match w.carriedRoot with
  | some id => .root id
  | none => .entries w.carried

theorem root_outcome {sc : Scene crypto} {ctx : Context crypto} (hp : ctx.prots = sc.prots)
    (hi : ctx.identity = sc.identity) {n : Nat} {ents : Three TreeEntry}
    (h : Located sc (n + 1) [] ents) (hk : ∀ e ∈ ents.present, e.kind = .tree)
    (hsrc : carryFrom ents ≠ some none) :
    ∃ k, ∀ fuel,
      (∃ w E C, treeNode ctx sc.store (fuel + k) "" ents {} = .ok w ∧ Region sc (Below []) E C ∧
        Collected sc.res (fun p => ∃ l, E l ∧ p = ofNames l) w.acc ∧ w.needs = [] ∧
        CarriedAs E C w.finish) ∨
      ∃ e l, treeNode ctx sc.store (fuel + k) "" ents {} = .error e ∧ sc.Occupied l ∧
        sc.res (ofNames l) = .error e := by
  obtain ⟨k, hread⟩ := @descend_outcome _ sc ctx n [] ents h hk (fun name kids _ hl hne =>
    visit_outcome hp hi hl hne (fun hk' => treeNode_outcome hp hi hl hne (by simp) hk'))
  refine ⟨k + 1, fun fuel => ?_⟩
  have hdescend : (∃ w E C, descend sc.store (visit ctx sc.store (fuel + k)
        (treeNode ctx sc.store (fuel + k))) "" ents {} = .ok w ∧ Region sc (Below []) E C ∧
        Collected sc.res (fun p => ∃ l, E l ∧ p = ofNames l) w.acc ∧ w.needs = [] ∧
        CarriedAs E C w.finish) ∨
      ∃ e l, descend sc.store (visit ctx sc.store (fuel + k)
        (treeNode ctx sc.store (fuel + k))) "" ents {} = .error e ∧ sc.Occupied l ∧
        sc.res (ofNames l) = .error e := by
    rcases hread fuel {} _ Collected.empty with ⟨w, E, C, hok, hw⟩ | herr
    · have hbelow : Region sc (Below []) E C := hw.region.widen
        (fun l _ => List.nil_prefix) (fun l hl ho => h.strictlyBelow hk hl ho)
      have hne : ∀ c ∈ C, c.1 ≠ [] := by
        intro c hc he
        obtain ⟨name, hname⟩ := hw.region.carried_mem hc
        rw [he] at hname
        simp [Below] at hname
      refine .inl ⟨w, E, C, hok, hbelow, hw.collected.congr (by simp), hw.needs, ?_⟩
      rw [Walk.finish, hw.carriedRoot, hw.carried]
      exact CarriedAs.entries C hne
    · exact .inr herr
  rw [← Nat.add_assoc, treeNode]
  split
  · next hc => exact absurd hc hsrc
  · next entry hc =>
    split_ifs
    · refine .inl ⟨_, fun _ => False, [([], entry)], rfl, carry_region h hk hc rfl, ?_, rfl, ?_⟩
      · exact Collected.empty.congr (by simp)
      · exact CarriedAs.root entry (by simp)
    · exact hdescend
  · exact hdescend

theorem rootEntry_at {id : ObjectId} (hn : Named store id)
    {files : FileMap}
    (hf : ∀ key fe, files[key]? = some fe ↔ ∃ ds, Leaf store id ds fe ∧ key = ofNames ds) :
    At store files [] (some (rootEntry id)) := by
  intro ds hds fe
  rw [hf]
  simp only [List.nil_append, Option.some.injEq, exists_eq_left']
  rw [entryLeaf_tree rfl]
  constructor
  · rintro ⟨ds', hl, he⟩
    rw [ofNames_inj hds (hl.names hn)] at he
    rwa [he]
  · exact fun hl => ⟨ds, hl, rfl⟩

/-- The flattened map of a base, empty when there is none. -/
theorem base_files {base : Option Side} {n : Nat}
    (h : ∀ r ∈ base, FullAt store n r.1 ∧ Named store r.1) :
    ∃ files : FileMap, (∀ fuel ≥ n, baseEntries fuel store base = .ok files) ∧
      (∀ key fe, files[key]? = some fe ↔
        ∃ r ∈ base, ∃ ds, Leaf store r.1 ds fe ∧ key = ofNames ds) ∧
      At store files [] (base.map (fun b => rootEntry b.1)) := by
  cases base with
  | none => exact ⟨∅, fun _ _ => rfl, by simp, by intro ds _ fe; simp⟩
  | some r =>
    obtain ⟨hf, hn⟩ := h r rfl
    obtain ⟨files, hok, hspec⟩ := treeFileEntriesWithPerms_spec hf hn
    exact ⟨files, hok, by simpa using hspec, rootEntry_at hn hspec⟩

/-- The flatten merge over a scene's maps. -/
def Scene.flatten (sc : Scene crypto) : Except Error MergeAcc :=
  let paths := (BTreeSet.ofList (sc.bF.keys ++ sc.oF.keys ++ sc.tF.keys)).toList
  let run := paths.forM (fun path =>
    mergePath crypto sc.store path sc.bF[path]? sc.oF[path]? sc.tF[path]? sc.prots sc.identity)
  match run {} with
  | .ok _ acc => do
    checkPathCollisions (acc.files.map (·.path))
    pure acc
  | .error e _ => .error e

/-- The flatten merge collects every occupied path, or fails at one of them. -/
theorem Scene.flatten_spec (sc : Scene crypto)
    (hspell : ∀ p, (∃ fe, sc.bF[p]? = some fe ∨ sc.oF[p]? = some fe ∨ sc.tF[p]? = some fe) →
      ∃ l, (∀ c ∈ l, IsName c) ∧ p = ofNames l) :
    (∃ flat, Collected sc.res (fun p => ∃ l, sc.Occupied l ∧ p = ofNames l) flat ∧
      sc.flatten = do
        checkPathCollisions (flat.files.map (·.path))
        pure flat) ∨
      ∃ e l, sc.flatten = .error e ∧ sc.Occupied l ∧ sc.res (ofNames l) = .error e := by
  have hkeys : ∀ p, p ∈ (BTreeSet.ofList (sc.bF.keys ++ sc.oF.keys ++ sc.tF.keys)).toList ↔
      ∃ l, sc.Occupied l ∧ p = ofNames l := by
    intro p
    rw [BTreeSet.mem_toList_ofList]
    simp only [List.mem_append, BTreeMap.mem_keys_iff, or_assoc, ← exists_or]
    constructor
    · intro hp
      obtain ⟨l, hl, rfl⟩ := hspell p hp
      exact ⟨l, ⟨hl, hp⟩, rfl⟩
    · rintro ⟨l, ho, rfl⟩
      exact ho.2
  rcases @Collected.forM sc.res (fun _ => False) {} (fun path => mergePath crypto sc.store path
      sc.bF[path]? sc.oF[path]? sc.tF[path]? sc.prots sc.identity) (fun _ => mergePath_appendOnly)
      (fun _ => rfl) (BTreeSet.ofList (sc.bF.keys ++ sc.oF.keys ++ sc.tF.keys)).toList
      Collected.empty with ⟨flat, hrun, hc⟩ | ⟨e, acc, hrun, p, hp, hres⟩
  · refine .inl ⟨flat, hc.congr (fun p => by simp only [hkeys, false_or]), ?_⟩
    simp only [Scene.flatten, hrun]
  · obtain ⟨l, ho, rfl⟩ := (hkeys p).mp hp
    refine .inr ⟨e, l, ?_, ho, hres⟩
    simp only [Scene.flatten, hrun]

/-- A finished walk and the flatten merge of one scene agree. -/
theorem Scene.agreement (sc : Scene crypto) {E : List String → Prop}
    {C : List (List String × TreeEntry)} {w : Walk} (hreg : Region sc (Below []) E C)
    (hacc : Collected sc.res (fun p => ∃ l, E l ∧ p = ofNames l) w.acc)
    (hc : CarriedAs E C w.finish) (hroot : ¬ sc.Occupied [])
    (hspell : ∀ p, (∃ fe, sc.bF[p]? = some fe ∨ sc.oF[p]? = some fe ∨ sc.tF[p]? = some fe) →
      ∃ l, (∀ c ∈ l, IsName c) ∧ p = ofNames l) :
    ∀ fuel ≥ sc.depth, Agreement fuel sc.store (do
      checkPathCollisions (w.acc.files.map (·.path) ++ carriedPaths w.finish)
      pure (.done ⟨w.acc, w.finish⟩)) sc.flatten := by
  rcases sc.flatten_spec hspell with ⟨flat, hflat, hrun⟩ | ⟨e, l, _, ho, hres⟩
  · have hr : Results sc E C w.acc flat := ⟨hreg, hacc, hflat, hroot⟩
    intro fuel hfuel
    rw [hrun]
    have hiff := hr.collisions hc
    cases hce : checkPathCollisions (w.acc.files.map (·.path) ++ carriedPaths w.finish) with
    | ok u =>
      rw [hiff.mp hce]
      exact hr.same hc fuel hfuel
    | error e =>
      cases hcf : checkPathCollisions (flat.files.map (·.path)) with
      | ok u =>
        rw [hiff.mpr hcf] at hce
        cases hce
      | error e' =>
        exact ⟨.inr (checkPathCollisions_error hce), .inr (checkPathCollisions_error hcf)⟩
  · obtain ⟨d, hd⟩ := hreg.res_ok (fun l hl => hacc.ok _ ⟨l, hl, rfl⟩) ho
    rw [hres] at hd
    cases hd

/-- On full trees with single-component names the tree merge never asks for an object, it
finishes exactly when the flatten merge does, and both give the same merge. -/
theorem mergeTrees_agrees (crypto : PathCrypto) (store : Store) (base : Option Side)
    (ours theirs : Side) (identity : Option crypto.SecretKey)
    (hin : MergeInputs store (roots base ours theirs))
    (hnames : ∀ r ∈ roots base ours theirs, Named store r) :
    ∃ N, ∀ fuel ≥ N, Agreement fuel store
      (mergeTrees crypto fuel store base ours theirs identity)
      (threeWayFiles crypto fuel store base ours theirs identity) := by
  obtain ⟨n, hn⟩ := @exists_common_bound _ (fun r fuel => FullAt store fuel r)
    (roots base ours theirs) (fun r hr => by
      obtain ⟨n, hn⟩ := hin.full r hr
      exact ⟨n, fun fuel => hn.mono (by omega)⟩)
  have hfull : ∀ r ∈ roots base ours theirs, FullAt store (n + 1) r := fun r hr =>
    Nat.add_comm 1 n ▸ hn r hr 1
  have ho : ours.1 ∈ roots base ours theirs := by simp [roots]
  have ht : theirs.1 ∈ roots base ours theirs := by simp [roots]
  have hb : ∀ r ∈ base, r.1 ∈ roots base ours theirs := by
    rintro r hr
    simp [roots, Option.mem_def.mp hr]
  obtain ⟨bF, hbok, hbspec, hbat⟩ := @base_files store base (n + 1)
    (fun r hr => ⟨hfull _ (hb r hr), hnames _ (hb r hr)⟩)
  obtain ⟨oF, hook, hospec⟩ := treeFileEntriesWithPerms_spec (hfull _ ho) (hnames _ ho)
  obtain ⟨tF, htok, htspec⟩ := treeFileEntriesWithPerms_spec (hfull _ ht) (hnames _ ht)
  have hleaf : ∀ files, (files = bF ∨ files = oF ∨ files = tF) → ∀ (p : String) fe,
      files[p]? = some fe → ∃ r ∈ roots base ours theirs, ∃ ds, Leaf store r ds fe := by
    rintro files (rfl | rfl | rfl) p fe hp
    · obtain ⟨r, hr, ds, hl, _⟩ := (hbspec p fe).mp hp
      exact ⟨r.1, hb r hr, ds, hl⟩
    · obtain ⟨ds, hl, _⟩ := (hospec p fe).mp hp
      exact ⟨_, ho, ds, hl⟩
    · obtain ⟨ds, hl, _⟩ := (htspec p fe).mp hp
      exact ⟨_, ht, ds, hl⟩
  let sc : Scene crypto :=
    { store := store
      depth := n + 1
      prots := [ours.2, theirs.2, (base.map (·.2)).getD default]
      identity := identity
      bF := bF
      oF := oF
      tF := tF
      full := by
        intro files hf p fe hp
        obtain ⟨r, hr, ds, hl⟩ := hleaf files hf p fe hp
        exact ⟨(hfull r hr).leaf_blob hl, hin.perms r hr ds fe hl⟩
      same := by
        intro files files' hf hf' p q x y hp hq hid
        obtain ⟨r, hr, ds, hl⟩ := hleaf files hf p x hp
        obtain ⟨r', hr', ds', hl'⟩ := hleaf files' hf' q y hq
        exact hin.same r hr r' hr' ds ds' x y hl hl' hid }
  have hspell : ∀ p, (∃ fe, sc.bF[p]? = some fe ∨ sc.oF[p]? = some fe ∨ sc.tF[p]? = some fe) →
      ∃ l, (∀ c ∈ l, IsName c) ∧ p = ofNames l := by
    rintro p ⟨fe, hp | hp | hp⟩
    · obtain ⟨r, hr, ds, hl, rfl⟩ := (hbspec p fe).mp hp
      exact ⟨ds, hl.names (hnames _ (hb r hr)), rfl⟩
    · obtain ⟨ds, hl, rfl⟩ := (hospec p fe).mp hp
      exact ⟨ds, hl.names (hnames _ ho), rfl⟩
    · obtain ⟨ds, hl, rfl⟩ := (htspec p fe).mp hp
      exact ⟨ds, hl.names (hnames _ ht), rfl⟩
  let ents : Three TreeEntry :=
    ⟨base.map (fun b => rootEntry b.1), some (rootEntry ours.1), some (rootEntry theirs.1)⟩
  have hgood : ∀ r ∈ roots base ours theirs, Good sc.store (n + 1) (rootEntry r) :=
    fun r hr => ⟨hfull r hr, hnames r hr⟩
  have hloc : Located sc (n + 1) [] ents := by
    refine ⟨le_rfl, by simp, hbat, rootEntry_at (hnames _ ho) hospec, rootEntry_at (hnames _ ht) htspec,
      ?_, ?_, ?_⟩
    · intro e he
      obtain ⟨r, hr, rfl⟩ := Option.map_eq_some_iff.mp he
      exact hgood _ (hb r hr)
    · rintro e ⟨⟩
      exact hgood _ ho
    · rintro e ⟨⟩
      exact hgood _ ht
  have hkind : ∀ e ∈ ents.present, e.kind = .tree := by
    intro e he
    rcases mem_present.mp he with he | he | he
    · obtain ⟨r, _, rfl⟩ := Option.map_eq_some_iff.mp he
      rfl
    · cases he
      rfl
    · cases he
      rfl
  have hroot : ¬ sc.Occupied [] := by
    intro hocc
    obtain ⟨name, hname⟩ := hloc.strictlyBelow hkind (List.prefix_refl []) hocc
    simp [Below] at hname
  have hsrc : carryFrom ents ≠ some none := by
    unfold carryFrom
    simp only
    split_ifs <;> simp [ents]
  have hflat : ∀ fuel ≥ n + 1, threeWayFiles crypto fuel store base ours theirs identity =
      sc.flatten := by
    intro fuel hfuel
    unfold threeWayFiles
    rw [hbok fuel hfuel, hook fuel hfuel, htok fuel hfuel]
    rfl
  let ctx : Context crypto := ⟨sc.prots, (BTreeSet.ofList (sc.prots.flatMap
    (fun p => p.prefixes.map (fun r => trimEndSlashes r.pathPrefix)))).toList, identity⟩
  obtain ⟨k, hk⟩ := @root_outcome _ sc ctx rfl rfl n ents hloc hkind hsrc
  have htree : ∀ fuel, mergeTrees crypto fuel store base ours theirs identity =
      (treeNode ctx sc.store fuel "" ents {}).bind (fun w =>
        if w.needs ≠ [] then pure (.needs w.needs)
        else do
          checkPathCollisions (w.acc.files.map (·.path) ++ carriedPaths w.finish)
          pure (.done ⟨w.acc, w.finish⟩)) := fun _ => rfl
  refine ⟨n + 1 + k, fun fuel hfuel => ?_⟩
  rw [htree, hflat fuel (by omega)]
  obtain ⟨m, rfl⟩ : ∃ m, fuel = m + k := ⟨fuel - k, by omega⟩
  rcases hk m with ⟨w, E, C, hok, hreg, hacc, hneeds, hc⟩ | ⟨e, l, herr, hocc, hres⟩
  · rw [hok, Except.bind, if_neg (by simp [hneeds])]
    exact sc.agreement hreg hacc hc hroot hspell (m + k) (by simp only [sc]; omega)
  · rw [herr]
    rcases sc.flatten_spec hspell with ⟨flat, hcol, _⟩ | ⟨e', l', hrun, hocc', hres'⟩
    · obtain ⟨d, hd⟩ := hcol.ok _ ⟨l, hocc, rfl⟩
      rw [hres] at hd
      cases hd
    · rw [hrun]
      exact ⟨.inl (sc.res_refusal hres), .inl (sc.res_refusal hres')⟩

/-! ## Inputs -/

def noCrypto : PathCrypto := ⟨Unit, Unit, fun _ _ => none, fun _ _ => none⟩

def testBlob (name : String) (n : UInt8) : TreeEntry := ⟨name, .blob, testId n, .FILE, 0⟩

def testTree (name : String) (n : UInt8) : TreeEntry := ⟨name, .tree, testId n, .FILE, 0⟩

/-- The entries of a tree object. -/
def treeEntries : Object → List TreeEntry
  | .tree t => t.entries
  | _ => []

theorem entries_forall {P : TreeEntry → Prop} {store : Store}
    (h : ∀ o ∈ store.objects.toList, ∀ e ∈ treeEntries o.2, P e) (id : ObjectId) (t : Tree)
    (ht : store.getTree id = .ok t) : ∀ e ∈ t.entries, P e := by
  rw [Store.getTree_eq_ok_iff, Store.get_eq_ok_iff] at ht
  exact h (id, .tree t) ((BTreeMap.mem_toList_iff _ _ _).mpr ht)

theorem leaf_perms_zero {store : Store}
    (h : ∀ id t, store.getTree id = .ok t → ∀ e ∈ t.entries, e.perms = 0) {id : ObjectId}
    {cs : List String} {fe : FileEntry} (hl : Leaf store id cs fe) : fe.perms = 0 := by
  induction hl with
  | blob ht he _ => exact h _ _ ht _ he
  | tree _ _ _ _ ih => exact ih

theorem mergeInputs_of_plain {store : Store} {rs : List ObjectId}
    (h : ∀ o ∈ store.objects.toList, ∀ e ∈ treeEntries o.2, e.perms = 0)
    (hfull : ∀ r ∈ rs, ∃ n, FullAt store n r) : MergeInputs store rs where
  full := hfull
  perms _ _ _ _ hl := .inl (leaf_perms_zero (entries_forall h) hl)
  same _ _ _ _ _ _ _ _ hl hl' _ := by
    rw [leaf_perms_zero (entries_forall h) hl, leaf_perms_zero (entries_forall h) hl']

/-- Ours and theirs hold one root with the files `x` and `x/y`: a name with a separator. -/
def slashStore : Store :=
  testStore [(0, .blob []), (1, .tree ⟨[testBlob "x" 0, testBlob "x/y" 0]⟩)]

def slashSide : Side := (testId 1, default)

theorem slash_name_disagrees :
    MergeInputs slashStore (roots none slashSide slashSide) ∧ ∀ fuel ≥ 1,
      ¬ Agreement fuel slashStore
        (mergeTrees noCrypto fuel slashStore none slashSide slashSide none)
        (threeWayFiles noCrypto fuel slashStore none slashSide slashSide none) := by
  constructor
  · refine mergeInputs_of_plain (by decide) (fun r hr => ?_)
    have hr' : r = testId 1 := by simpa [roots, slashSide] using hr
    subst hr'
    refine ⟨1, ⟨[testBlob "x" 0, testBlob "x/y" 0]⟩, rfl, by decide, ?_⟩
    intro e he
    have hid : e.kind = .blob ∧ e.id = testId 0 := by
      rcases List.mem_pair.mp he with rfl | rfl <;> exact ⟨rfl, rfl⟩
    rw [hid.1]
    exact ⟨[], by rw [hid.2]; rfl⟩
  · intro fuel hfuel
    obtain ⟨k, rfl⟩ : ∃ k, fuel = k + 1 := ⟨fuel - 1, by omega⟩
    have ht : mergeTrees noCrypto (k + 1) slashStore none slashSide slashSide none =
        .ok (.done ⟨{}, .root (testId 1)⟩) := rfl
    have hf : threeWayFiles noCrypto (k + 1) slashStore none slashSide slashSide none =
        .error (.pathCollision "x") := rfl
    rw [ht, hf]
    exact id

/-- Ours edits `a`; the subtree `d` is the same everywhere. -/
def editStore : Store :=
  testStore [(0, .blob [1]), (1, .blob [2]), (2, .tree ⟨[testBlob "x" 0]⟩),
    (3, .tree ⟨[testBlob "a" 0, testTree "d" 2]⟩), (4, .tree ⟨[testBlob "a" 1, testTree "d" 2]⟩)]

theorem editStore_full (n : UInt8) (hn : n = 3 ∨ n = 4) : FullAt editStore 2 (testId n) := by
  have hsub : FullAt editStore 1 (testId 2) := by
    refine ⟨⟨[testBlob "x" 0]⟩, rfl, by decide, ?_⟩
    intro e he
    obtain rfl := List.mem_singleton.mp he
    exact ⟨[1], rfl⟩
  rcases hn with rfl | rfl
  · refine ⟨⟨[testBlob "a" 0, testTree "d" 2]⟩, rfl, by decide, ?_⟩
    intro e he
    rcases List.mem_pair.mp he with rfl | rfl
    · exact ⟨[1], rfl⟩
    · exact hsub
  · refine ⟨⟨[testBlob "a" 1, testTree "d" 2]⟩, rfl, by decide, ?_⟩
    intro e he
    rcases List.mem_pair.mp he with rfl | rfl
    · exact ⟨[2], rfl⟩
    · exact hsub

theorem mergeTrees_agrees_edit : ∃ N, ∀ fuel ≥ N, Agreement fuel editStore
    (mergeTrees noCrypto fuel editStore (some (testId 3, default)) (testId 4, default)
      (testId 3, default) none)
    (threeWayFiles noCrypto fuel editStore (some (testId 3, default)) (testId 4, default)
      (testId 3, default) none) := by
  refine mergeTrees_agrees noCrypto editStore _ _ _ none
    (mergeInputs_of_plain (by decide) (fun r hr => ⟨2, ?_⟩))
    (fun r _ id t _ ht => entries_forall (P := fun e => IsName e.name) (by decide) id t ht)
  have hr' : r = testId 3 ∨ r = testId 4 := by
    simpa [roots, or_comm, or_left_comm] using hr
  rcases hr' with rfl | rfl
  · exact editStore_full 3 (.inl rfl)
  · exact editStore_full 4 (.inr rfl)

end SrcControl.MergeTree
