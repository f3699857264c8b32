import SrcControl.Core.Store
import SrcControl.Lib.SlashPath

/-!
# Flattening a tree

`tree_file_entries_with_perms` walks a root tree into a map from joined paths to
leaf entries. The walk is related to the leaves of the stored tree, addressed by
their components: on a full store with single-component names the map holds
exactly the joined path of every leaf.
-/

namespace SrcControl

open SlashPath

/-- A tree entry viewed as a merge input: blob id, mode, perms. -/
structure FileEntry where
  id : ObjectId
  mode : FileMode
  perms : UInt8
deriving DecidableEq, Repr

def fileEntry (e : TreeEntry) : FileEntry := ⟨e.id, e.mode, e.perms⟩

abbrev FileMap := BTreeMap String FileEntry

namespace TreeEntries

def walkEntriesWithPerms (store : Store) : Nat → ObjectId → String → FileMap → Except Error FileMap
  | 0, _, _, _ => .error .fuel
  | fuel + 1, treeId, pre, out => do
    let tree ← store.getTree treeId
    tree.entries.foldlM (fun out e =>
      let path := if pre = "" then e.name else pre ++ "/" ++ e.name
      match e.kind with
      | .blob => pure (out.insert path (fileEntry e))
      | .tree => walkEntriesWithPerms store fuel e.id path out) out

def treeFileEntriesWithPerms (fuel : Nat) (store : Store) (root : ObjectId) : Except Error FileMap :=
  walkEntriesWithPerms store fuel root "" ∅

/-- `Leaf store root cs fe`: descending from `root` by the names `cs` ends at a
blob entry that reads as `fe`. -/
inductive Leaf (store : Store) : ObjectId → List String → FileEntry → Prop
  | blob {id : ObjectId} {t : Tree} {e : TreeEntry} : store.getTree id = .ok t → e ∈ t.entries →
      e.kind = .blob → Leaf store id [e.name] (fileEntry e)
  | tree {id : ObjectId} {t : Tree} {e : TreeEntry} {cs : List String} {fe : FileEntry} :
      store.getTree id = .ok t → e ∈ t.entries → e.kind = .tree → Leaf store e.id cs fe →
      Leaf store id (e.name :: cs) fe

/-- The leaves of one entry, relative to it. -/
def EntryLeaf (store : Store) (e : TreeEntry) (cs : List String) (fe : FileEntry) : Prop :=
  (e.kind = .blob ∧ cs = [] ∧ fe = fileEntry e) ∨ (e.kind = .tree ∧ Leaf store e.id cs fe)

/-- Everything below `root` is stored with the kind its entry names, to depth `n`. -/
def FullAt (store : Store) : Nat → ObjectId → Prop
  | 0, _ => False
  | n + 1, id => ∃ t, store.getTree id = .ok t ∧ t.Sorted ∧ ∀ e ∈ t.entries,
      match e.kind with
      | .blob => ∃ b, store.blobBytes e.id = .ok b
      | .tree => FullAt store n e.id

/-- The tree nodes at or below `root`. -/
inductive Node (store : Store) (root : ObjectId) : ObjectId → Prop
  | root : Node store root root
  | child {id : ObjectId} {t : Tree} {e : TreeEntry} : Node store root id →
      store.getTree id = .ok t → e ∈ t.entries → e.kind = .tree → Node store root e.id

/-- Every name below `root` is a single path component. -/
def Named (store : Store) (root : ObjectId) : Prop :=
  ∀ id t, Node store root id → store.getTree id = .ok t → ∀ e ∈ t.entries, IsName e.name

variable {store : Store}

theorem Node.trans {root mid id : ObjectId} (h : Node store root mid) (hm : Node store mid id) :
    Node store root id := by
  induction hm with
  | root => exact h
  | child _ ht he hk ih => exact ih.child ht he hk

theorem Named.child {root : ObjectId} {t : Tree} {e : TreeEntry} (h : Named store root)
    (ht : store.getTree root = .ok t) (he : e ∈ t.entries) (hk : e.kind = .tree) :
    Named store e.id :=
  fun id t' hn => h id t' ((Node.root.child ht he hk).trans hn)

theorem FullAt.succ {n : Nat} {id : ObjectId} (h : FullAt store n id) :
    FullAt store (n + 1) id := by
  induction n generalizing id with
  | zero => exact h.elim
  | succ n ih =>
    obtain ⟨t, ht, hs, he⟩ := h
    refine ⟨t, ht, hs, fun e hm => ?_⟩
    have hk := he e hm
    cases hkind : e.kind with
    | blob => simpa only [hkind] using hk
    | tree =>
      simp only [hkind] at hk
      exact ih hk

theorem FullAt.mono {n m : Nat} {id : ObjectId} (h : FullAt store n id) (hnm : n ≤ m) :
    FullAt store m id := by
  induction hnm with
  | refl => exact h
  | step _ ih => exact ih.succ

theorem leaf_iff {id : ObjectId} {t : Tree} (ht : store.getTree id = .ok t) {cs : List String}
    {fe : FileEntry} :
    Leaf store id cs fe ↔ ∃ e ∈ t.entries, ∃ ds, cs = e.name :: ds ∧ EntryLeaf store e ds fe := by
  constructor
  · intro h
    cases h with
    | blob ht' he hk =>
      rw [ht] at ht'
      cases ht'
      exact ⟨_, he, [], rfl, .inl ⟨hk, rfl, rfl⟩⟩
    | tree ht' he hk hl =>
      rw [ht] at ht'
      cases ht'
      exact ⟨_, he, _, rfl, .inr ⟨hk, hl⟩⟩
  · rintro ⟨e, he, ds, rfl, ⟨hk, rfl, rfl⟩ | ⟨hk, hl⟩⟩
    · exact .blob ht he hk
    · exact .tree ht he hk hl

theorem not_leaf_nil {id : ObjectId} {fe : FileEntry} : ¬ Leaf store id [] fe := by
  intro h
  cases h

theorem Leaf.names {root : ObjectId} {cs : List String} {fe : FileEntry}
    (h : Leaf store root cs fe) (hn : Named store root) : ∀ c ∈ cs, IsName c := by
  induction h with
  | blob ht he hk =>
    intro c hc
    rw [List.mem_singleton.mp hc]
    exact hn _ _ .root ht _ he
  | tree ht he hk _ ih =>
    intro c hc
    cases hc with
    | head => exact hn _ _ .root ht _ he
    | tail _ hc => exact ih (hn.child ht he hk) c hc

theorem eq_of_name_eq {t : Tree} (hs : t.Sorted) {e e' : TreeEntry} (he : e ∈ t.entries)
    (he' : e' ∈ t.entries) (hn : e.name = e'.name) : e = e' := by
  have h := hs.get_eq_some_iff.mpr ⟨he, rfl⟩
  have h' := hs.get_eq_some_iff.mpr ⟨he', hn.symm⟩
  rw [h] at h'
  exact Option.some.inj h'

theorem FullAt.leaf_unique {n : Nat} {root : ObjectId} (h : FullAt store n root)
    {cs : List String} {fe fe' : FileEntry} (hl : Leaf store root cs fe)
    (hl' : Leaf store root cs fe') : fe = fe' := by
  induction n generalizing root cs with
  | zero => exact h.elim
  | succ n ih =>
    obtain ⟨t, ht, hs, hch⟩ := h
    obtain ⟨e, he, ds, rfl, hel⟩ := (leaf_iff ht).mp hl
    obtain ⟨e', he', ds', hds, hel'⟩ := (leaf_iff ht).mp hl'
    obtain ⟨hname, rfl⟩ := List.cons.inj hds
    obtain rfl := eq_of_name_eq hs he he' hname
    have hk := hch e he
    rcases hel with ⟨hb, rfl, rfl⟩ | ⟨hb, hel⟩
    · rcases hel' with ⟨_, _, rfl⟩ | ⟨hb', _⟩
      · rfl
      · rw [hb] at hb'
        cases hb'
    · rcases hel' with ⟨hb', _⟩ | ⟨_, hel'⟩
      · rw [hb] at hb'
        cases hb'
      · simp only [hb] at hk
        exact ih hk hel hel'

theorem FullAt.leaf_blob {n : Nat} {root : ObjectId} (h : FullAt store n root)
    {cs : List String} {fe : FileEntry} (hl : Leaf store root cs fe) :
    ∃ bytes, store.blobBytes fe.id = .ok bytes := by
  induction n generalizing root cs with
  | zero => exact h.elim
  | succ n ih =>
    obtain ⟨t, ht, hs, hch⟩ := h
    obtain ⟨e, he, ds, rfl, hel⟩ := (leaf_iff ht).mp hl
    have hk := hch e he
    rcases hel with ⟨hb, rfl, rfl⟩ | ⟨hb, hel⟩
    · simp only [hb] at hk
      exact hk
    · simp only [hb] at hk
      exact ih hk hel

/-- Two leaves of one tree are never one below the other. -/
theorem FullAt.leaf_apart {n : Nat} {root : ObjectId} (h : FullAt store n root)
    {cs ds : List String} {fe fe' : FileEntry} (hl : Leaf store root cs fe)
    (hl' : Leaf store root (cs ++ ds) fe') : ds = [] := by
  induction n generalizing root cs with
  | zero => exact h.elim
  | succ n ih =>
    obtain ⟨t, ht, hs, hch⟩ := h
    obtain ⟨e, he, es, rfl, hel⟩ := (leaf_iff ht).mp hl
    obtain ⟨e', he', es', hds, hel'⟩ := (leaf_iff ht).mp hl'
    obtain ⟨hname, rfl⟩ := List.cons.inj hds
    obtain rfl := eq_of_name_eq hs he he' hname
    have hk := hch e he
    rcases hel with ⟨hb, rfl, rfl⟩ | ⟨hb, hel⟩
    · rcases hel' with ⟨_, hnil, _⟩ | ⟨hb', _⟩
      · simpa using hnil
      · rw [hb] at hb'
        cases hb'
    · rcases hel' with ⟨hb', _⟩ | ⟨_, hel'⟩
      · rw [hb] at hb'
        cases hb'
      · simp only [hb] at hk
        exact ih hk hel hel'

/-- `out'` is `out` with the entries of `P` written over it. -/
def Overlay (P : String → FileEntry → Prop) (out out' : FileMap) : Prop :=
  ∀ key, (∀ fe, P key fe → out'[key]? = some fe) ∧
    ((∀ fe, ¬ P key fe) → out'[key]? = out[key]?)

namespace Overlay

variable {P Q : String → FileEntry → Prop} {out mid out' : FileMap}

theorem refl (hP : ∀ key fe, ¬ P key fe) : Overlay P out out :=
  fun key => ⟨fun fe h => absurd h (hP key fe), fun _ => rfl⟩

theorem insert (key : String) (fe : FileEntry) :
    Overlay (fun k f => k = key ∧ f = fe) out (out.insert key fe) := by
  intro k
  rw [BTreeMap.getElem?_insert]
  constructor
  · rintro _ ⟨rfl, rfl⟩
    exact if_pos rfl
  · intro h
    exact if_neg (fun he => h fe ⟨he.symm, rfl⟩)

theorem trans (h₁ : Overlay P out mid) (h₂ : Overlay Q mid out')
    (hd : ∀ key fe fe', P key fe → Q key fe' → fe = fe') :
    Overlay (fun k f => P k f ∨ Q k f) out out' := by
  intro key
  constructor
  · rintro fe (hP | hQ)
    · by_cases hQ : ∃ fe', Q key fe'
      · obtain ⟨fe', hQ⟩ := hQ
        rw [hd key fe fe' hP hQ]
        exact (h₂ key).1 fe' hQ
      · rw [(h₂ key).2 (fun fe' h => hQ ⟨fe', h⟩)]
        exact (h₁ key).1 fe hP
    · exact (h₂ key).1 fe hQ
  · intro h
    rw [(h₂ key).2 (fun fe hQ => h fe (.inr hQ)), (h₁ key).2 (fun fe hP => h fe (.inl hP))]

theorem congr (h : Overlay P out out') (hPQ : ∀ key fe, P key fe ↔ Q key fe) :
    Overlay Q out out' :=
  fun key => ⟨fun fe hQ => (h key).1 fe ((hPQ key fe).mpr hQ),
    fun hn => (h key).2 (fun fe hP => hn fe ((hPQ key fe).mp hP))⟩

/-- Over the empty map an overlay is exactly its entries. -/
theorem getElem?_eq_some_iff (h : Overlay P ∅ out') {key : String} {fe : FileEntry} :
    out'[key]? = some fe ↔ P key fe := by
  constructor
  · intro hk
    by_contra hn
    by_cases hex : ∃ fe', P key fe'
    · obtain ⟨fe', hP'⟩ := hex
      rw [(h key).1 fe' hP'] at hk
      exact hn (Option.some.inj hk ▸ hP')
    · rw [(h key).2 (fun fe' hP' => hex ⟨fe', hP'⟩)] at hk
      simp at hk
  · exact (h key).1 fe

end Overlay

/-- The joined paths of an entry's leaves, the entry lying in the directory `cs`. -/
def EntryPaths (store : Store) (cs : List String) (e : TreeEntry) (key : String) (fe : FileEntry) :
    Prop :=
  ∃ ds, EntryLeaf store e ds fe ∧ key = ofNames (cs ++ e.name :: ds)

/-- The joined paths of the leaves below `root`, `root` lying at `cs`. -/
def TreePaths (store : Store) (cs : List String) (root : ObjectId) (key : String)
    (fe : FileEntry) : Prop :=
  ∃ ds, Leaf store root ds fe ∧ key = ofNames (cs ++ ds)

theorem treePaths_iff {cs : List String} {root : ObjectId} {t : Tree}
    (ht : store.getTree root = .ok t) {key : String} {fe : FileEntry} :
    TreePaths store cs root key fe ↔ ∃ e ∈ t.entries, EntryPaths store cs e key fe := by
  constructor
  · rintro ⟨ds, hl, rfl⟩
    obtain ⟨e, he, es, rfl, hel⟩ := (leaf_iff ht).mp hl
    exact ⟨e, he, es, hel, rfl⟩
  · rintro ⟨e, he, ds, hel, rfl⟩
    exact ⟨e.name :: ds, (leaf_iff ht).mpr ⟨e, he, ds, rfl, hel⟩, rfl⟩

theorem treePaths_unique {n : Nat} {root : ObjectId} (h : FullAt store n root)
    (hn : Named store root) {cs : List String} (hcs : ∀ c ∈ cs, IsName c) {key : String}
    {fe fe' : FileEntry} (hp : TreePaths store cs root key fe)
    (hp' : TreePaths store cs root key fe') : fe = fe' := by
  obtain ⟨ds, hl, rfl⟩ := hp
  obtain ⟨ds', hl', he⟩ := hp'
  have hnames : ∀ {es : List String} {f : FileEntry}, Leaf store root es f →
      ∀ c ∈ cs ++ es, IsName c := by
    intro es f hf c hc
    rcases List.mem_append.mp hc with hc | hc
    · exact hcs c hc
    · exact hf.names hn c hc
  rw [ofNames_inj (hnames hl) (hnames hl')] at he
  rw [← List.append_cancel_left he] at hl'
  exact h.leaf_unique hl hl'

/-- The walk writes exactly the leaves below `root` over the map it is given. -/
theorem walk_overlay {n : Nat} {root : ObjectId} (h : FullAt store n root)
    (hn : Named store root) {cs : List String} (hcs : ∀ c ∈ cs, IsName c) (out : FileMap) :
    ∃ out', walkEntriesWithPerms store n root (ofNames cs) out = .ok out' ∧
      Overlay (TreePaths store cs root) out out' := by
  induction n generalizing root cs out with
  | zero => exact h.elim
  | succ n ih =>
    have hfull := h
    obtain ⟨t, ht, hs, hch⟩ := h
    -- over any part of the entries, the fold writes the leaves of that part
    have hfold : ∀ es : List TreeEntry, (∀ e ∈ es, e ∈ t.entries) → ∀ out : FileMap,
        ∃ out', es.foldlM (fun (out : FileMap) e =>
            let path := if ofNames cs = "" then e.name else ofNames cs ++ "/" ++ e.name
            match e.kind with
            | .blob => pure (out.insert path (fileEntry e))
            | .tree => walkEntriesWithPerms store n e.id path out) out = Except.ok out' ∧
          Overlay (fun key fe => ∃ e ∈ es, EntryPaths store cs e key fe) out out' := by
      intro es
      induction es with
      | nil => exact fun _ out => ⟨out, rfl, Overlay.refl (by simp)⟩
      | cons e es ihes =>
        intro hmem out
        have he : e ∈ t.entries := hmem e (by simp)
        have hname : IsName e.name := hn _ _ .root ht e he
        have hpath : (if ofNames cs = "" then e.name else ofNames cs ++ "/" ++ e.name) =
            ofNames (cs ++ [e.name]) := by
          rw [ofNames_append_singleton, join]
        have hk := hch e he
        obtain ⟨mid, hmid, hov⟩ : ∃ mid, (match e.kind with
            | .blob => pure (out.insert (ofNames (cs ++ [e.name])) (fileEntry e))
            | .tree => walkEntriesWithPerms store n e.id (ofNames (cs ++ [e.name])) out) =
              Except.ok mid ∧ Overlay (EntryPaths store cs e) out mid := by
          cases hkind : e.kind with
          | blob =>
            refine ⟨_, rfl, (Overlay.insert _ _).congr ?_⟩
            intro key fe
            simp [EntryPaths, EntryLeaf, hkind, and_comm]
          | tree =>
            simp only [hkind] at hk
            have hcs' : ∀ c ∈ cs ++ [e.name], IsName c := by
              intro c hc
              rcases List.mem_append.mp hc with hc | hc
              · exact hcs c hc
              · rwa [List.mem_singleton.mp hc]
            obtain ⟨mid, hw, hov⟩ := ih hk (hn.child ht he hkind) hcs' out
            refine ⟨mid, hw, hov.congr ?_⟩
            intro key fe
            simp [EntryPaths, EntryLeaf, TreePaths, hkind]
        obtain ⟨out', hout', hov'⟩ := ihes (fun e' h' => hmem e' (by simp [h'])) mid
        refine ⟨out', ?_, ?_⟩
        · simp only [List.foldlM_cons, hpath]
          simp only [hmid]
          exact hout'
        · refine (hov.trans hov' ?_).congr ?_
          · rintro key fe fe' hp ⟨e', he', hp'⟩
            exact treePaths_unique hfull hn hcs ((treePaths_iff ht).mpr ⟨e, he, hp⟩)
              ((treePaths_iff ht).mpr ⟨e', hmem e' (by simp [he']), hp'⟩)
          · intro key fe
            simp
    obtain ⟨out', hout', hov⟩ := hfold t.entries (fun _ h => h) out
    refine ⟨out', ?_, hov.congr (fun key fe => (treePaths_iff ht).symm)⟩
    simp only [walkEntriesWithPerms, ht]
    exact hout'

/-- On a full store the flattened map holds exactly the leaves, under their joined paths. -/
theorem treeFileEntriesWithPerms_spec {n : Nat} {root : ObjectId} (h : FullAt store n root)
    (hn : Named store root) :
    ∃ files, (∀ fuel ≥ n, treeFileEntriesWithPerms fuel store root = .ok files) ∧
      ∀ key fe, files[key]? = some fe ↔ ∃ ds, Leaf store root ds fe ∧ key = ofNames ds := by
  obtain ⟨files, _, hov⟩ := @walk_overlay _ _ _ h hn [] (by simp) ∅
  have hspec := fun key fe => @Overlay.getElem?_eq_some_iff _ _ hov key fe
  refine ⟨files, fun fuel hf => ?_, hspec⟩
  obtain ⟨files', hw', hov'⟩ := @walk_overlay _ _ _ (h.mono hf) hn [] (by simp) ∅
  have heq : files' = files := by
    apply Std.ExtTreeMap.ext_getElem?
    intro key
    apply Option.ext
    intro fe
    rw [hov'.getElem?_eq_some_iff, hspec]
  rw [heq] at hw'
  exact hw'

end TreeEntries

end SrcControl
