import SrcControl.Repo.MergeTreeRegion

/-!
# The tree merge agrees with the flatten merge

By induction on the depth of the trees every visited node accounts for the paths
below it; at the root this gives the files, conflicts and sidecars of the flatten
merge, and the same verdict on colliding paths.
-/

namespace SrcControl.MergeTree

open Merge SlashPath TreeEntries Fallible

variable {crypto : PathCrypto} {store : Store}

theorem names_append {cs ds : List String} (hcs : ∀ c ∈ cs, IsName c) (hds : ∀ d ∈ ds, IsName d) :
    ∀ c ∈ cs ++ ds, IsName c := by
  intro c hc
  rcases List.mem_append.mp hc with hc | hc
  · exact hcs c hc
  · exact hds c hc

/-- `files` reads below `cs` as the leaves of the entry found there. -/
def At (store : Store) (files : FileMap) (cs : List String) (e : Option TreeEntry) : Prop :=
  ∀ ds, (∀ d ∈ ds, IsName d) → ∀ fe, files[ofNames (cs ++ ds)]? = some fe ↔
    ∃ x, e = some x ∧ EntryLeaf store x ds fe

def Good (store : Store) (n : Nat) (e : TreeEntry) : Prop :=
  match e.kind with
  | .blob => ∃ b, store.blobBytes e.id = .ok b
  | .tree => FullAt store n e.id ∧ Named store e.id

theorem entryLeaf_tree {e : TreeEntry} (h : e.kind = .tree) {ds : List String} {fe : FileEntry} :
    EntryLeaf store e ds fe ↔ Leaf store e.id ds fe := by
  simp [EntryLeaf, h]

theorem entryLeaf_blob {e : TreeEntry} (h : e.kind = .blob) {ds : List String} {fe : FileEntry} :
    EntryLeaf store e ds fe ↔ ds = [] ∧ fe = fileEntry e := by
  simp [EntryLeaf, h]

theorem entryLeaf_names {n : Nat} {e : TreeEntry} (hg : Good store n e) {ds : List String}
    {fe : FileEntry} (h : EntryLeaf store e ds fe) : ∀ d ∈ ds, IsName d := by
  rcases h with ⟨_, rfl, _⟩ | ⟨hk, hl⟩
  · simp
  · simp only [Good, hk] at hg
    exact hl.names hg.2

theorem entryLeaf_unique {n : Nat} {e : TreeEntry} (hg : Good store n e) {ds : List String}
    {fe fe' : FileEntry} (h : EntryLeaf store e ds fe) (h' : EntryLeaf store e ds fe') :
    fe = fe' := by
  cases hk : e.kind with
  | blob =>
    rw [entryLeaf_blob hk] at h h'
    rw [h.2, h'.2]
  | tree =>
    rw [entryLeaf_tree hk] at h h'
    simp only [Good, hk] at hg
    exact hg.1.leaf_unique h h'

/-- A side whose entry is a tree, read. -/
def Opened (store : Store) (n : Nat) (e : Option TreeEntry) (t : Option Tree) : Prop :=
  (e = none ∧ t = none) ∨ ∃ x y, e = some x ∧ t = some y ∧ x.kind = .tree ∧
    store.getTree x.id = .ok y ∧ y.Sorted ∧ ∀ c ∈ y.entries, IsName c.name ∧ Good store n c

theorem open_tree {n : Nat} {e : Option TreeEntry} (hk : ∀ x ∈ e, x.kind = .tree)
    (hg : ∀ x ∈ e, Good store (n + 1) x) :
    ∃ t, e.mapM (fun e => store.getTree e.id) = .ok t ∧ Opened store n e t := by
  cases e with
  | none => exact ⟨none, rfl, .inl ⟨rfl, rfl⟩⟩
  | some x =>
    have hx := hg x rfl
    have hkx := hk x rfl
    simp only [Good, hkx] at hx
    obtain ⟨⟨y, hy, hs, hch⟩, hn⟩ := hx
    refine ⟨some y, ?_, .inr ⟨x, y, rfl, rfl, hkx, hy, hs, fun c hc => ⟨hn _ _ .root hy c hc, ?_⟩⟩⟩
    · simp only [Option.mapM_some, hy]
      rfl
    · have hcc := hch c hc
      unfold Good
      cases hck : c.kind with
      | blob => simpa only [hck] using hcc
      | tree =>
        simp only [hck] at hcc ⊢
        exact ⟨hcc, hn.child hy hc hck⟩

theorem Opened.get {n : Nat} {e : Option TreeEntry} {t : Option Tree} (h : Opened store n e t)
    {name : String} {c : TreeEntry} (hc : t.bind (·.get name) = some c) : Good store n c := by
  rcases h with ⟨_, rfl⟩ | ⟨x, y, _, rfl, _, _, hs, hch⟩
  · cases hc
  · exact (hch c (hs.get_eq_some_iff.mp hc).1).2

theorem At.child {files : FileMap} {cs : List String} {e : Option TreeEntry}
    (h : At store files cs e) {n : Nat} {t : Option Tree} (ho : Opened store n e t)
    {name : String} (hname : IsName name) :
    At store files (cs ++ [name]) (t.bind (·.get name)) := by
  intro ds hds fe
  have hcons : ∀ d ∈ name :: ds, IsName d := by
    intro d hd
    rcases List.mem_cons.mp hd with rfl | hd
    · exact hname
    · exact hds d hd
  have hpath : cs ++ [name] ++ ds = cs ++ name :: ds := by simp
  rw [hpath, h (name :: ds) hcons fe]
  rcases ho with ⟨rfl, rfl⟩ | ⟨x, y, rfl, rfl, hk, hy, hs, hch⟩
  · simp
  · simp only [Option.some.injEq, exists_eq_left', Option.bind_some]
    rw [entryLeaf_tree hk, leaf_iff hy]
    constructor
    · rintro ⟨c, hc, ds', hd, hel⟩
      obtain ⟨hn, rfl⟩ := List.cons.inj hd
      exact ⟨c, hs.get_eq_some_iff.mpr ⟨hc, hn.symm⟩, hel⟩
    · rintro ⟨c, hc, hel⟩
      obtain ⟨hmem, hn⟩ := hs.get_eq_some_iff.mp hc
      exact ⟨c, hmem, ds, by rw [hn], hel⟩

/-- The three entries of a visited node, with what the sides read below it. -/
structure Located (sc : Scene crypto) (n : Nat) (cs : List String) (ents : Three TreeEntry) :
    Prop where
  depth : n ≤ sc.depth
  names : ∀ c ∈ cs, IsName c
  b : At sc.store sc.bF cs ents.b
  o : At sc.store sc.oF cs ents.o
  t : At sc.store sc.tF cs ents.t
  goodB : ∀ e ∈ ents.b, Good sc.store n e
  goodO : ∀ e ∈ ents.o, Good sc.store n e
  goodT : ∀ e ∈ ents.t, Good sc.store n e

theorem mem_present {α : Type} {x : Three α} {a : α} :
    a ∈ x.present ↔ a ∈ x.b ∨ a ∈ x.o ∨ a ∈ x.t := by
  simp [Three.present, List.reduceOption_mem_iff, Option.mem_def, eq_comm]

/-- An occupied path below a node is a leaf of one of its entries. -/
theorem Located.occupied {sc : Scene crypto} {n : Nat} {cs : List String}
    {ents : Three TreeEntry} (h : Located sc n cs ents) {ds : List String} :
    sc.Occupied (cs ++ ds) ↔ (∀ d ∈ ds, IsName d) ∧
      ∃ e ∈ ents.present, ∃ fe, EntryLeaf sc.store e ds fe := by
  constructor
  · rintro ⟨hn, fe, hfe⟩
    have hds : ∀ d ∈ ds, IsName d := fun d hd => hn d (List.mem_append_right _ hd)
    refine ⟨hds, ?_⟩
    rw [h.b ds hds fe, h.o ds hds fe, h.t ds hds fe] at hfe
    rcases hfe with ⟨x, hx, hl⟩ | ⟨x, hx, hl⟩ | ⟨x, hx, hl⟩
    · exact ⟨x, mem_present.mpr (.inl hx), fe, hl⟩
    · exact ⟨x, mem_present.mpr (.inr (.inl hx)), fe, hl⟩
    · exact ⟨x, mem_present.mpr (.inr (.inr hx)), fe, hl⟩
  · rintro ⟨hds, e, he, fe, hl⟩
    refine ⟨names_append h.names hds, fe, ?_⟩
    rw [h.b ds hds fe, h.o ds hds fe, h.t ds hds fe]
    rcases mem_present.mp he with he | he | he
    · exact .inl ⟨e, he, hl⟩
    · exact .inr (.inl ⟨e, he, hl⟩)
    · exact .inr (.inr ⟨e, he, hl⟩)

/-! ## A flattened side of a mixed name -/

theorem contains_of_getTree {id : ObjectId} {t : Tree} (h : store.getTree id = .ok t) :
    store.contains id = true :=
  Store.contains_of_get (Store.getTree_eq_ok_iff.mp h)

/-- The subtrees among the entries, in the order they are popped. -/
def subtrees (es : List TreeEntry) : List TreeEntry := (es.filter (fun e => e.kind = .tree)).reverse

theorem mem_subtrees {es : List TreeEntry} {e : TreeEntry} :
    e ∈ subtrees es ↔ e ∈ es ∧ e.kind = .tree := by
  simp [subtrees]

theorem flattenEntries_spec {t : Tree} {id : ObjectId} (ht : store.getTree id = .ok t) {n : Nat}
    (hfull : FullAt store n id) (hn : Named store id) {cs : List String}
    (hcs : ∀ c ∈ cs, IsName c) (es : List TreeEntry) (hes : ∀ e ∈ es, e ∈ t.entries)
    (stack : List (ObjectId × String)) (out : FileMap) :
    ∃ out', flattenEntries (ofNames cs) es stack out =
        ((subtrees es).map (fun e => (e.id, ofNames (cs ++ [e.name]))) ++ stack, out') ∧
      Overlay (fun key fe => ∃ e ∈ es, e.kind = .blob ∧ EntryPaths store cs e key fe) out out' := by
  induction es generalizing stack out with
  | nil => exact ⟨out, rfl, Overlay.refl (by simp)⟩
  | cons e es ih =>
    have hmem : ∀ e' ∈ es, e' ∈ t.entries := fun e' h' => hes e' (by simp [h'])
    have hjoin : join (ofNames cs) e.name = ofNames (cs ++ [e.name]) :=
      (ofNames_append_singleton cs e.name).symm
    cases hk : e.kind with
    | blob =>
      obtain ⟨out', hrun, hov⟩ :=
        ih hmem stack (out.insert (ofNames (cs ++ [e.name])) (fileEntry e))
      refine ⟨out', ?_, ((Overlay.insert _ _).trans hov ?_).congr ?_⟩
      · rw [subtrees, List.filter_cons_of_neg (by simp [hk]), ← subtrees, ← hrun]
        simp only [flattenEntries, List.foldl_cons, hk, hjoin]
      · rintro key fe fe' ⟨rfl, rfl⟩ ⟨e', he', _, hp'⟩
        refine treePaths_unique hfull hn hcs ((treePaths_iff ht).mpr ⟨e, hes e (by simp), ?_⟩)
          ((treePaths_iff ht).mpr ⟨e', hmem e' he', hp'⟩)
        exact ⟨[], (entryLeaf_blob hk).mpr ⟨rfl, rfl⟩, rfl⟩
      · intro key fe
        simp [EntryPaths, entryLeaf_blob hk, hk, and_comm]
    | tree =>
      obtain ⟨out', hrun, hov⟩ := ih hmem ((e.id, ofNames (cs ++ [e.name])) :: stack) out
      refine ⟨out', ?_, hov.congr ?_⟩
      · simp only [flattenEntries, List.foldl_cons, hk, hjoin] at hrun ⊢
        rw [hrun, subtrees, subtrees, List.filter_cons_of_pos (by simp [hk])]
        simp
      · intro key fe
        simp [hk]

/-- Popping a stored subtree takes a fixed number of turns and writes its leaves. -/
theorem flattenPresent_pop {n : Nat} {id : ObjectId} (h : FullAt store n id)
    (hn : Named store id) {cs : List String} (hcs : ∀ c ∈ cs, IsName c) :
    ∃ k, ∀ out, ∃ out', Overlay (TreePaths store cs id) out out' ∧ ∀ fuel stack w,
      flattenPresent store (fuel + k) ((id, ofNames cs) :: stack) out w =
        flattenPresent store fuel stack out' w := by
  induction n generalizing id cs with
  | zero => exact h.elim
  | succ n ih =>
    have hfull := h
    obtain ⟨t, ht, hs, hch⟩ := h
    have hcs' : ∀ e ∈ t.entries, ∀ c ∈ cs ++ [e.name], IsName c := fun e he =>
      names_append hcs (by simpa using hn _ _ .root ht e he)
    -- a run of subtrees of this node
    have hsubs : ∀ subs : List TreeEntry, (∀ e ∈ subs, e ∈ t.entries ∧ e.kind = .tree) →
        ∃ k, ∀ out, ∃ out',
          Overlay (fun key fe => ∃ e ∈ subs, EntryPaths store cs e key fe) out out' ∧
          ∀ fuel stack w, flattenPresent store (fuel + k)
            (subs.map (fun e => (e.id, ofNames (cs ++ [e.name]))) ++ stack) out w =
              flattenPresent store fuel stack out' w := by
      intro subs
      induction subs with
      | nil => exact fun _ => ⟨0, fun out => ⟨out, Overlay.refl (by simp), fun _ _ _ => rfl⟩⟩
      | cons e subs ihs =>
        intro hmem
        obtain ⟨he, hk⟩ := hmem e (by simp)
        have hfe := hch e he
        simp only [hk] at hfe
        obtain ⟨k₁, hk₁⟩ := ih hfe (hn.child ht he hk) (hcs' e he)
        obtain ⟨k₂, hk₂⟩ := ihs (fun e' h' => hmem e' (by simp [h']))
        refine ⟨k₂ + k₁, fun out => ?_⟩
        obtain ⟨mid, hov₁, hrun₁⟩ := hk₁ out
        obtain ⟨out', hov₂, hrun₂⟩ := hk₂ mid
        refine ⟨out', (hov₁.trans hov₂ ?_).congr ?_, ?_⟩
        · rintro key fe fe' ⟨ds, hl, rfl⟩ ⟨e', he', hp'⟩
          refine treePaths_unique hfull hn hcs ((treePaths_iff ht).mpr ⟨e, he, ds, ?_, ?_⟩)
            ((treePaths_iff ht).mpr ⟨e', (hmem e' (by simp [he'])).1, hp'⟩)
          · exact (entryLeaf_tree hk).mpr hl
          · simp
        · intro key fe
          simp [EntryPaths, TreePaths, entryLeaf_tree hk]
        · intro fuel stack w
          rw [← Nat.add_assoc, List.map_cons, List.cons_append, hrun₁, hrun₂]
    obtain ⟨k, hk⟩ := hsubs (subtrees t.entries) (fun e he => mem_subtrees.mp he)
    refine ⟨k + 1, fun out => ?_⟩
    obtain ⟨mid, hrun, hov₁⟩ :=
      flattenEntries_spec ht hfull hn hcs t.entries (fun _ h => h) [] out
    obtain ⟨out', hov₂, hrun'⟩ := hk mid
    refine ⟨out', (hov₁.trans hov₂ ?_).congr ?_, ?_⟩
    · rintro key fe fe' ⟨e, he, _, hp⟩ ⟨e', he', hp'⟩
      exact treePaths_unique hfull hn hcs ((treePaths_iff ht).mpr ⟨e, he, hp⟩)
        ((treePaths_iff ht).mpr ⟨e', (mem_subtrees.mp he').1, hp'⟩)
    · intro key fe
      rw [treePaths_iff ht]
      constructor
      · rintro (⟨e, he, _, hp⟩ | ⟨e, he, hp⟩)
        · exact ⟨e, he, hp⟩
        · exact ⟨e, (mem_subtrees.mp he).1, hp⟩
      · rintro ⟨e, he, hp⟩
        cases hk : e.kind with
        | blob => exact .inl ⟨e, he, hk, hp⟩
        | tree => exact .inr ⟨e, mem_subtrees.mpr ⟨he, hk⟩, hp⟩
    · intro fuel stack w
      obtain ⟨mid', hrun₂, hov⟩ :=
        flattenEntries_spec ht hfull hn hcs t.entries (fun _ h => h) stack out
      have hmid : mid' = mid := by
        apply Std.ExtTreeMap.ext_getElem?
        intro key
        by_cases hex : ∃ fe, ∃ e ∈ t.entries, e.kind = .blob ∧ EntryPaths store cs e key fe
        · obtain ⟨fe, he⟩ := hex
          rw [(hov key).1 fe he, (hov₁ key).1 fe he]
        · rw [(hov key).2 (fun fe he => hex ⟨fe, he⟩), (hov₁ key).2 (fun fe he => hex ⟨fe, he⟩)]
      rw [← Nat.add_assoc, flattenPresent, if_pos (contains_of_getTree ht), ht]
      simp only [bind, Except.bind, hrun₂, hmid]
      exact hrun' fuel stack w

/-- A flattened side holds the leaves of its entry under their joined paths. -/
theorem mixedSide_spec {n : Nat} {cs : List String} (hcs : ∀ c ∈ cs, IsName c)
    {e : Option TreeEntry} (hg : ∀ x ∈ e, Good store n x) :
    ∃ k m, (∀ fuel w, mixedSide store (fuel + k) (ofNames cs) e w = .ok (m, w)) ∧
      ∀ key fe, m[key]? = some fe ↔
        ∃ ds x, e = some x ∧ EntryLeaf store x ds fe ∧ key = ofNames (cs ++ ds) := by
  cases e with
  | none => exact ⟨0, ∅, fun _ _ => rfl, by simp⟩
  | some x =>
    have hx := hg x rfl
    cases hk : x.kind with
    | blob =>
      refine ⟨0, (∅ : FileMap).insert (ofNames cs) (fileEntry x), fun _ _ => ?_, fun key fe => ?_⟩
      · simp [mixedSide, hk]
      · rw [(Overlay.insert (ofNames cs) (fileEntry x)).getElem?_eq_some_iff]
        simp [entryLeaf_blob hk, and_comm]
    | tree =>
      simp only [Good, hk] at hx
      obtain ⟨k, hk'⟩ := flattenPresent_pop hx.1 hx.2 hcs
      obtain ⟨m, hov, hrun⟩ := hk' ∅
      refine ⟨k + 1, m, fun fuel w => ?_, fun key fe => ?_⟩
      · simp only [mixedSide, hk]
        rw [show fuel + (k + 1) = (fuel + 1) + k by omega, hrun]
        rfl
      · rw [hov.getElem?_eq_some_iff]
        simp [TreePaths, entryLeaf_tree hk]

theorem At.side_eq {files m : FileMap} {cs : List String} {e : Option TreeEntry} {n : Nat}
    (h : At store files cs e) (hcs : ∀ c ∈ cs, IsName c) (hg : ∀ x ∈ e, Good store n x)
    (hm : ∀ key fe, m[key]? = some fe ↔
      ∃ ds x, e = some x ∧ EntryLeaf store x ds fe ∧ key = ofNames (cs ++ ds))
    {ds : List String} (hds : ∀ d ∈ ds, IsName d) :
    m[ofNames (cs ++ ds)]? = files[ofNames (cs ++ ds)]? := by
  apply Option.ext
  intro fe
  rw [hm, h ds hds fe]
  constructor
  · rintro ⟨ds', x, hx, hl, he⟩
    rw [ofNames_inj (names_append hcs hds) (names_append hcs (entryLeaf_names (hg x hx) hl))] at he
    rw [List.append_cancel_left he]
    exact ⟨x, hx, hl⟩
  · rintro ⟨x, hx, hl⟩
    exact ⟨ds, x, hx, hl, rfl⟩

/-! ## The visited nodes -/

/-- The paths at or below a node. -/
def Below (cs : List String) (l : List String) : Prop := cs <+: l

def StrictlyBelow (cs : List String) (l : List String) : Prop := ∃ name, Below (cs ++ [name]) l

section Visit

variable {sc : Scene crypto} {ctx : Context crypto} {n : Nat} {cs : List String}
  {ents : Three TreeEntry}

theorem enumerateMixed_outcome (hp : ctx.prots = sc.prots) (hi : ctx.identity = sc.identity)
    (h : Located sc n cs ents) :
    ∃ k, ∀ fuel w, Outcome sc (Below cs) w
      (enumerateMixed ctx sc.store (fuel + k) (ofNames cs) ents w) := by
  obtain ⟨kb, bm, hrb, hbm⟩ := mixedSide_spec h.names h.goodB
  obtain ⟨ko, om, hro, hom⟩ := mixedSide_spec h.names h.goodO
  obtain ⟨kt, tm, hrt, htm⟩ := mixedSide_spec h.names h.goodT
  have hkey : ∀ p, (∃ fe, bm[p]? = some fe ∨ om[p]? = some fe ∨ tm[p]? = some fe) ↔
      ∃ l, Below cs l ∧ sc.Occupied l ∧ p = ofNames l := by
    intro p
    constructor
    · rintro ⟨fe, hfe⟩
      rw [hbm, hom, htm] at hfe
      obtain ⟨ds, x, hx, hl, rfl⟩ : ∃ ds x, x ∈ ents.present ∧ EntryLeaf sc.store x ds fe ∧
          p = ofNames (cs ++ ds) := by
        rcases hfe with ⟨ds, x, hx, hl, hp⟩ | ⟨ds, x, hx, hl, hp⟩ | ⟨ds, x, hx, hl, hp⟩
        · exact ⟨ds, x, mem_present.mpr (.inl hx), hl, hp⟩
        · exact ⟨ds, x, mem_present.mpr (.inr (.inl hx)), hl, hp⟩
        · exact ⟨ds, x, mem_present.mpr (.inr (.inr hx)), hl, hp⟩
      have hg : Good sc.store n x := by
        rcases mem_present.mp hx with hx | hx | hx
        · exact h.goodB x hx
        · exact h.goodO x hx
        · exact h.goodT x hx
      exact ⟨cs ++ ds, ⟨ds, rfl⟩, h.occupied.mpr ⟨entryLeaf_names hg hl, x, hx, fe, hl⟩, rfl⟩
    · rintro ⟨l, ⟨ds, rfl⟩, ho, rfl⟩
      obtain ⟨hds, x, hx, fe, hl⟩ := h.occupied.mp ho
      refine ⟨fe, ?_⟩
      rw [hbm, hom, htm]
      rcases mem_present.mp hx with hx | hx | hx
      · exact .inl ⟨ds, x, hx, hl, rfl⟩
      · exact .inr (.inl ⟨ds, x, hx, hl, rfl⟩)
      · exact .inr (.inr ⟨ds, x, hx, hl, rfl⟩)
  refine ⟨kb + ko + kt, fun fuel w => ?_⟩
  have hrun : enumerateMixed ctx sc.store (fuel + (kb + ko + kt)) (ofNames cs) ents w =
      (BTreeSet.ofList (bm.keys ++ om.keys ++ tm.keys)).toList.foldlM
        (fun w p => visitLeaf ctx sc.store p (sc.at_ p) w) w := by
    unfold enumerateMixed
    rw [show fuel + (kb + ko + kt) = (fuel + ko + kt) + kb by omega, hrb,
      show fuel + ko + kt + kb = (fuel + kb + kt) + ko by omega]
    simp only [bind, Except.bind, hro]
    rw [show fuel + kb + kt + ko = (fuel + kb + ko) + kt by omega]
    simp only [hrt]
    refine foldlM_congr_mem (fun w p hmem => ?_) w
    rw [BTreeSet.mem_toList_ofList] at hmem
    simp only [List.mem_append, BTreeMap.mem_keys_iff, or_assoc, ← exists_or] at hmem
    obtain ⟨_, ⟨ds, rfl⟩, ho, rfl⟩ := (hkey p).mp hmem
    have hds := (h.occupied.mp ho).1
    rw [h.b.side_eq h.names h.goodB hbm hds, h.o.side_eq h.names h.goodO hom hds,
      h.t.side_eq h.names h.goodT htm hds]
    rfl
  rw [hrun]
  refine Outcome.leaves ctx hp hi _ w (fun p => ?_)
  rw [BTreeSet.mem_toList_ofList, ← hkey]
  simp only [List.mem_append, BTreeMap.mem_keys_iff, or_assoc, exists_or]

theorem visitLeaf_outcome (hp : ctx.prots = sc.prots) (hi : ctx.identity = sc.identity)
    (h : Located sc n cs ents) (hne : ents.present ≠ [])
    (hk : ∀ e ∈ ents.present, e.kind = .blob) (w : Walk) :
    Outcome sc (Below cs) w (visitLeaf ctx sc.store (ofNames cs)
      ⟨ents.b.map fileEntry, ents.o.map fileEntry, ents.t.map fileEntry⟩ w) := by
  have hread : ∀ (files : FileMap) (e : Option TreeEntry), At sc.store files cs e →
      (∀ x ∈ e, x.kind = .blob) → files[ofNames cs]? = e.map fileEntry := by
    intro files e ha hke
    apply Option.ext
    intro fe
    have := ha [] (by simp) fe
    rw [List.append_nil] at this
    rw [this]
    cases e with
    | none => simp
    | some x => simp [entryLeaf_blob (hke x rfl), eq_comm]
  have hat : (⟨ents.b.map fileEntry, ents.o.map fileEntry, ents.t.map fileEntry⟩ :
      Three FileEntry) = sc.at_ (ofNames cs) := by
    rw [Scene.at_, hread _ _ h.b (fun x hx => hk x (mem_present.mpr (.inl hx))),
      hread _ _ h.o (fun x hx => hk x (mem_present.mpr (.inr (.inl hx)))),
      hread _ _ h.t (fun x hx => hk x (mem_present.mpr (.inr (.inr hx))))]
  have hocc : ∀ ds, sc.Occupied (cs ++ ds) ↔ ds = [] := by
    intro ds
    rw [h.occupied]
    constructor
    · rintro ⟨_, e, he, fe, hl⟩
      exact ((entryLeaf_blob (hk e he)).mp hl).1
    · rintro rfl
      obtain ⟨e, he⟩ := List.exists_mem_of_ne_nil _ hne
      exact ⟨by simp, e, he, _, (entryLeaf_blob (hk e he)).mpr ⟨rfl, rfl⟩⟩
  have hfold : visitLeaf ctx sc.store (ofNames cs) (sc.at_ (ofNames cs)) w =
      [ofNames cs].foldlM (fun w p => visitLeaf ctx sc.store p (sc.at_ p) w) w := by
    simp
  rw [hat, hfold]
  refine Outcome.leaves ctx hp hi _ w (fun p => ?_)
  simp only [List.mem_singleton]
  constructor
  · rintro rfl
    refine ⟨cs, List.prefix_refl cs, ?_, rfl⟩
    have := (hocc []).mpr rfl
    rwa [List.append_nil] at this
  · rintro ⟨l, ⟨ds, rfl⟩, ho, rfl⟩
    rw [(hocc ds).mp ho, List.append_nil]

/-- Visiting one name accounts for what lies below it, once its subtrees are. -/
theorem visit_outcome (hp : ctx.prots = sc.prots) (hi : ctx.identity = sc.identity)
    (h : Located sc n cs ents) (hne : ents.present ≠ [])
    (hnode : (∀ e ∈ ents.present, e.kind = .tree) → ∃ k, ∀ fuel w, Outcome sc (Below cs) w
      (treeNode ctx sc.store (fuel + k) (ofNames cs) ents w)) :
    ∃ k, ∀ fuel w, Outcome sc (Below cs) w (visit ctx sc.store (fuel + k)
      (treeNode ctx sc.store (fuel + k)) (ofNames cs) ents w) := by
  by_cases hb : ∀ e ∈ ents.present, e.kind = .blob
  · refine ⟨0, fun fuel w => ?_⟩
    rw [visit, if_pos (by simpa using hb)]
    exact visitLeaf_outcome hp hi h hne hb w
  · by_cases ht : ∀ e ∈ ents.present, e.kind = .tree
    · obtain ⟨k, hk⟩ := hnode ht
      refine ⟨k, fun fuel w => ?_⟩
      rw [visit, if_neg (by simpa using hb), if_pos (by simpa using ht)]
      exact hk fuel w
    · obtain ⟨k, hk⟩ := enumerateMixed_outcome hp hi h
      refine ⟨k, fun fuel w => ?_⟩
      rw [visit, if_neg (by simpa using hb), if_neg (by simpa using ht)]
      exact hk fuel w

theorem below_apart {cs : List String} {a b : String} (hab : a ≠ b) :
    Apart (Below (cs ++ [a])) (Below (cs ++ [b])) := by
  have hne : ∀ {x y : String} {l m : List String}, x ≠ y → cs ++ [x] <+: l → cs ++ [y] <+: m →
      ¬ l <+: m := by
    intro x y l m hxy hl hm hlm
    have h₁ : cs ++ [x] <+: m := hl.trans hlm
    have heq : cs ++ [x] = cs ++ [y] := (List.prefix_of_prefix_length_le h₁ hm (by simp)).eq_of_length
      (by simp)
    exact hxy (by simpa using heq)
  exact fun l m hl hm => ⟨hne hab hl hm, hne hab.symm hm hl⟩

theorem Located.strictlyBelow (h : Located sc n cs ents)
    (hk : ∀ e ∈ ents.present, e.kind = .tree) {l : List String} (hl : Below cs l)
    (ho : sc.Occupied l) : StrictlyBelow cs l := by
  obtain ⟨ds, rfl⟩ := hl
  obtain ⟨_, e, he, fe, hl⟩ := h.occupied.mp ho
  rw [entryLeaf_tree (hk e he)] at hl
  cases ds with
  | nil => exact absurd hl not_leaf_nil
  | cons d ds => exact ⟨d, ds, by simp⟩

/-- Reading a node's trees and visiting their names accounts for what lies below it. -/
theorem descend_outcome (h : Located sc (n + 1) cs ents)
    (hk : ∀ e ∈ ents.present, e.kind = .tree)
    (hvisit : ∀ name kids, IsName name → Located sc n (cs ++ [name]) kids → kids.present ≠ [] →
      ∃ k, ∀ fuel w, Outcome sc (Below (cs ++ [name])) w (visit ctx sc.store (fuel + k)
        (treeNode ctx sc.store (fuel + k)) (ofNames (cs ++ [name])) kids w)) :
    ∃ k, ∀ fuel w, Outcome sc (StrictlyBelow cs) w (descend sc.store (visit ctx sc.store (fuel + k)
        (treeNode ctx sc.store (fuel + k))) (ofNames cs) ents w) := by
  obtain ⟨tb, hmb, hob⟩ := open_tree (fun x hx => hk x (mem_present.mpr (.inl hx))) h.goodB
  obtain ⟨to', hmo, hoo⟩ := open_tree (fun x hx => hk x (mem_present.mpr (.inr (.inl hx)))) h.goodO
  obtain ⟨tt, hmt, hot⟩ := open_tree (fun x hx => hk x (mem_present.mpr (.inr (.inr hx)))) h.goodT
  have htrees : ents.mapM (fun e => sc.store.getTree e.id) = .ok ⟨tb, to', tt⟩ := by
    simp only [Three.mapM, hmb, hmo, hmt]
    rfl
  have hopen : ∀ t ∈ (⟨tb, to', tt⟩ : Three Tree).present, ∃ x, x ∈ ents.present ∧
      sc.store.getTree x.id = .ok t ∧ t.Sorted ∧ ∀ c ∈ t.entries, IsName c.name := by
    intro t ht
    have hof : ∀ {e : Option TreeEntry} {u : Option Tree}, Opened sc.store n e u → t ∈ u →
        (∀ x ∈ e, x ∈ ents.present) → ∃ x, x ∈ ents.present ∧
          sc.store.getTree x.id = .ok t ∧ t.Sorted ∧ ∀ c ∈ t.entries, IsName c.name := by
      rintro e u (⟨_, rfl⟩ | ⟨x, y, rfl, rfl, _, hy, hs, hch⟩) hu he
      · cases hu
      · obtain rfl := Option.some.inj hu
        exact ⟨x, he x rfl, hy, hs, fun c hc => (hch c hc).1⟩
    rcases mem_present.mp ht with ht | ht | ht
    · exact hof hob ht (fun x hx => mem_present.mpr (.inl hx))
    · exact hof hoo ht (fun x hx => mem_present.mpr (.inr (.inl hx)))
    · exact hof hot ht (fun x hx => mem_present.mpr (.inr (.inr hx)))
  have hpresent : ∀ x ∈ ents.present, ∃ t ∈ (⟨tb, to', tt⟩ : Three Tree).present,
      sc.store.getTree x.id = .ok t := by
    intro x hx
    have hof : ∀ {e : Option TreeEntry} {u : Option Tree}, Opened sc.store n e u → x ∈ e →
        ∃ t ∈ u, sc.store.getTree x.id = .ok t := by
      rintro e u (⟨rfl, _⟩ | ⟨y, t, rfl, rfl, _, ht, _⟩) he
      · cases he
      · obtain rfl := Option.some.inj he
        exact ⟨t, rfl, ht⟩
    rcases mem_present.mp hx with hx | hx | hx
    · obtain ⟨t, ht, hg⟩ := hof hob hx
      exact ⟨t, mem_present.mpr (.inl ht), hg⟩
    · obtain ⟨t, ht, hg⟩ := hof hoo hx
      exact ⟨t, mem_present.mpr (.inr (.inl ht)), hg⟩
    · obtain ⟨t, ht, hg⟩ := hof hot hx
      exact ⟨t, mem_present.mpr (.inr (.inr ht)), hg⟩
  have habsent : ents.present.filter (fun e => ¬ sc.store.contains e.id) = [] := by
    rw [List.filter_eq_nil_iff]
    intro x hx
    obtain ⟨t, _, hg⟩ := hpresent x hx
    simp [contains_of_getTree hg]
  set names := (BTreeSet.ofList ((⟨tb, to', tt⟩ : Three Tree).present.flatMap
    (fun t => t.entries.map (·.name)))).toList with hnames
  have hmem : ∀ name, name ∈ names ↔ ∃ t ∈ (⟨tb, to', tt⟩ : Three Tree).present,
      ∃ c ∈ t.entries, c.name = name := by
    intro name
    rw [hnames, BTreeSet.mem_toList_ofList]
    simp
  have hkids : ∀ name ∈ names, IsName name ∧
      Located sc n (cs ++ [name]) ((⟨tb, to', tt⟩ : Three Tree).bind (·.get name)) ∧
      ((⟨tb, to', tt⟩ : Three Tree).bind (·.get name)).present ≠ [] := by
    intro name hn
    obtain ⟨t, ht, c, hc, rfl⟩ := (hmem name).mp hn
    obtain ⟨x, _, _, hs, hnm⟩ := hopen t ht
    have hname := hnm c hc
    refine ⟨hname, ⟨Nat.le_of_succ_le h.depth, names_append h.names (by simpa using hname), h.b.child hob hname,
      h.o.child hoo hname, h.t.child hot hname, fun _ he => hob.get he, fun _ he => hoo.get he,
      fun _ he => hot.get he⟩, List.ne_nil_of_mem (a := c) ?_⟩
    have hget : t.get c.name = some c := hs.get_eq_some_iff.mpr ⟨hc, rfl⟩
    rw [mem_present]
    rcases mem_present.mp ht with ht | ht | ht
    · exact .inl (Option.bind_eq_some_iff.mpr ⟨t, ht, hget⟩)
    · exact .inr (.inl (Option.bind_eq_some_iff.mpr ⟨t, ht, hget⟩))
    · exact .inr (.inr (Option.bind_eq_some_iff.mpr ⟨t, ht, hget⟩))
  obtain ⟨k, hk'⟩ := @exists_common_bound _
    (fun name fuel => ∀ w, Outcome sc (Below (cs ++ [name])) w
      (visit ctx sc.store fuel (treeNode ctx sc.store fuel) (ofNames (cs ++ [name]))
        ((⟨tb, to', tt⟩ : Three Tree).bind (·.get name)) w)) names
    (fun name hn => hvisit name _ (hkids name hn).1 (hkids name hn).2.1 (hkids name hn).2.2)
  refine ⟨k, fun fuel w => ?_⟩
  have hrun : descend sc.store (visit ctx sc.store (fuel + k) (treeNode ctx sc.store (fuel + k)))
      (ofNames cs) ents w = names.foldlM (fun w name =>
        visit ctx sc.store (fuel + k) (treeNode ctx sc.store (fuel + k)) (ofNames (cs ++ [name]))
          ((⟨tb, to', tt⟩ : Three Tree).bind (·.get name)) w) w := by
    simp only [descend, habsent, htrees, ofNames_append_singleton, ne_eq, not_true, if_false]
    rfl
  rw [hrun]
  refine (Outcome.foldlM _ (fun name => Below (cs ++ [name])) names
    (fun name hn w => hk' name hn fuel w) ?_ w).widen ?_ ?_
  · exact (BTreeSet.nodup_toList _).imp (fun hab => below_apart hab)
  · rintro l ⟨name, _, hl⟩
    exact ⟨name, hl⟩
  · rintro l ⟨name, hl⟩ ho
    obtain ⟨ds, rfl⟩ := (List.prefix_append cs [name]).trans hl
    obtain ⟨_, e, he, fe, hl⟩ := h.occupied.mp ho
    rw [entryLeaf_tree (hk e he)] at hl
    obtain ⟨t, ht, hg⟩ := hpresent e he
    obtain ⟨c, hc, ds', rfl, _⟩ := (leaf_iff hg).mp hl
    exact ⟨c.name, (hmem c.name).mpr ⟨t, ht, c, hc, rfl⟩, ds', by simp⟩

theorem At.eq_of_id {f g : FileMap} {e e' : Option TreeEntry} (h : At store f cs e)
    (h' : At store g cs e') (hk : ∀ x ∈ e, x.kind = .tree) (hk' : ∀ x ∈ e', x.kind = .tree)
    (hid : e.map (·.id) = e'.map (·.id)) {ds : List String} (hds : ∀ d ∈ ds, IsName d) :
    f[ofNames (cs ++ ds)]? = g[ofNames (cs ++ ds)]? := by
  apply Option.ext
  intro fe
  rw [h ds hds fe, h' ds hds fe]
  cases e with
  | none =>
    cases e' with
    | none => rfl
    | some y => cases hid
  | some x =>
    cases e' with
    | none => cases hid
    | some y =>
      have hxy : x.id = y.id := Option.some.inj hid
      simp [entryLeaf_tree (hk x rfl), entryLeaf_tree (hk' y rfl), hxy]

/-- The side that survives by id is the one the per-path rules settle on. -/
theorem carryFrom_agrees (h : Located sc n cs ents) (hk : ∀ e ∈ ents.present, e.kind = .tree)
    {src : Option TreeEntry} (hc : carryFrom ents = some src) :
    (∀ e ∈ src, e ∈ ents.present ∧ Good sc.store n e) ∧ ∃ files, At sc.store files cs src ∧
      ∀ ds, (∀ d ∈ ds, IsName d) → Agrees (sc.at_ (ofNames (cs ++ ds))).b
        (sc.at_ (ofNames (cs ++ ds))).o (sc.at_ (ofNames (cs ++ ds))).t
        files[ofNames (cs ++ ds)]? := by
  have hkb : ∀ x ∈ ents.b, x.kind = .tree := fun x hx => hk x (mem_present.mpr (.inl hx))
  have hko : ∀ x ∈ ents.o, x.kind = .tree := fun x hx => hk x (mem_present.mpr (.inr (.inl hx)))
  have hkt : ∀ x ∈ ents.t, x.kind = .tree := fun x hx => hk x (mem_present.mpr (.inr (.inr hx)))
  unfold carryFrom at hc
  simp only at hc
  split_ifs at hc with h1 h2
  · obtain rfl := Option.some.inj hc
    refine ⟨fun e he => ⟨mem_present.mpr (.inr (.inl he)), h.goodO e he⟩, sc.oF, h.o, ?_⟩
    intro ds hds
    rcases h1 with h1 | h1
    · exact .inl ⟨h.o.eq_of_id h.t hko hkt h1 hds, rfl⟩
    · exact .inr (.inl ⟨h.b.eq_of_id h.t hkb hkt h1 hds, rfl⟩)
  · obtain rfl := Option.some.inj hc
    refine ⟨fun e he => ⟨mem_present.mpr (.inr (.inr he)), h.goodT e he⟩, sc.tF, h.t, ?_⟩
    intro ds hds
    exact .inr (.inr ⟨h.b.eq_of_id h.o hkb hko h2 hds, rfl⟩)

/-- A carried node accounts for everything below it. -/
theorem carry_region (h : Located sc n cs ents) (hk : ∀ e ∈ ents.present, e.kind = .tree)
    {entry c : TreeEntry} (hc : carryFrom ents = some (some entry)) (hid : c.id = entry.id) :
    Region sc (Below cs) (fun _ => False) [(cs, c)] := by
  obtain ⟨hsrc, files, hat, hag⟩ := carryFrom_agrees h hk hc
  obtain ⟨hpres, hgood⟩ := hsrc entry rfl
  have hkind := hk entry hpres
  simp only [Good, hkind] at hgood
  constructor
  · exact fun _ hl => hl.elim
  · simpa using h.names
  · rintro c' hc' ds
    rw [List.mem_singleton.mp hc']
    exact ⟨ds, rfl⟩
  · rintro c' hc'
    rw [List.mem_singleton.mp hc', hid]
    exact ⟨hgood.2, hgood.1.mono h.depth⟩
  · rintro c' hc' ds hds
    rw [List.mem_singleton.mp hc']
    refine ⟨_, hag ds hds, fun fe => ?_⟩
    rw [hat ds hds fe, hid]
    simp [entryLeaf_tree hkind]
  · exact fun l hl _ => .inr (.inl ⟨(cs, c), by simp, hl⟩)
  · exact fun _ hl => hl.elim
  · simp

/-- A node that survives as a deletion enumerates and carries nothing. -/
theorem deletion_region (h : Located sc n cs ents) (hk : ∀ e ∈ ents.present, e.kind = .tree)
    (hc : carryFrom ents = some none) : Region sc (Below cs) (fun _ => False) [] := by
  obtain ⟨_, files, hat, hag⟩ := carryFrom_agrees h hk hc
  refine ⟨fun _ hl => hl.elim, by simp, by simp, by simp, by simp, ?_, by simp, .nil⟩
  rintro l ⟨ds, rfl⟩ ho
  have hds := (h.occupied.mp ho).1
  have hnone : files[ofNames (cs ++ ds)]? = none := by
    apply Option.eq_none_iff_forall_ne_some.mpr
    intro fe hfe
    obtain ⟨x, hx, _⟩ := (hat ds hds fe).mp hfe
    cases hx
  exact .inr (.inr (hnone ▸ hag ds hds))

theorem Outcome.of_region {w w' : Walk} {R : List String → Prop}
    {C : List (List String × TreeEntry)} (h : Region sc R (fun _ => False) C)
    (hacc : w'.acc = w.acc) (hca : w'.carried = w.carried ++ C.map (fun c => (ofNames c.1, c.2)))
    (hroot : w'.carriedRoot = w.carriedRoot) (hneeds : w'.needs = w.needs) :
    Outcome sc R w (.ok w') := by
  intro S hS
  refine .inl ⟨w', _, C, rfl, h, ?_, hca, hroot, hneeds⟩
  rw [hacc]
  exact hS.congr (by simp)

/-- Every visited node below the root accounts for the paths below it. -/
theorem treeNode_outcome (hp : ctx.prots = sc.prots) (hi : ctx.identity = sc.identity)
    (h : Located sc n cs ents) (hne : ents.present ≠ []) (hcs : cs ≠ [])
    (hk : ∀ e ∈ ents.present, e.kind = .tree) :
    ∃ k, ∀ fuel w, Outcome sc (Below cs) w
      (treeNode ctx sc.store (fuel + k) (ofNames cs) ents w) := by
  induction n generalizing cs ents with
  | zero =>
    obtain ⟨e, he⟩ := List.exists_mem_of_ne_nil _ hne
    have hg : Good sc.store 0 e := by
      rcases mem_present.mp he with he | he | he
      · exact h.goodB e he
      · exact h.goodO e he
      · exact h.goodT e he
    simp only [Good, hk e he] at hg
    exact hg.1.elim
  | succ n ih =>
    have hvisit := fun (name : String) (kids : Three TreeEntry) (_ : IsName name)
        (hl : Located sc n (cs ++ [name]) kids) (hne' : kids.present ≠ []) =>
      visit_outcome hp hi hl hne' (fun hk' => ih hl hne' (by simp) hk')
    obtain ⟨k, hread⟩ := descend_outcome h hk hvisit
    refine ⟨k + 1, fun fuel w => ?_⟩
    have hbelow := (hread fuel w).widen
      (fun l ⟨name, hl⟩ => (List.prefix_append cs [name]).trans hl)
      (fun l hl ho => h.strictlyBelow hk hl ho)
    rw [← Nat.add_assoc, treeNode]
    split
    · next hc =>
      exact Outcome.of_region (deletion_region h hk hc) rfl (by simp) rfl rfl
    · next entry hc =>
      split_ifs
      · have hne'' : ofNames cs ≠ "" := ofNames_ne_empty h.names hcs
        rw [carry, if_neg hne'']
        exact Outcome.of_region
          (carry_region (c := { entry with name := lastName (ofNames cs) }) h hk hc rfl)
          rfl rfl rfl rfl
      · exact hbelow
    · exact hbelow

end Visit

end SrcControl.MergeTree
