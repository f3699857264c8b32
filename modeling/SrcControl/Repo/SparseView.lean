import SrcControl.Repo.SnapshotFiles

/-!
# The sparse view of a tree

The walks that flatten a tree inside a sparse view, and on a partial clone past the
subtrees the store lacks. What a walk returns are leaves of the tree inside the view,
and it leaves none of them out.
-/

namespace SrcControl

open SlashPath TreeEntries MergeTree

namespace Sparse

def isFull (sparse : Sparse) : Bool := sparse.isEmpty

/-- `should_descend`. -/
def shouldDescend (sparse : Sparse) (path : String) : Bool :=
  sparse.isFull || path = "" || sparse.matchesPath path ||
    sparse.any (fun p => startsWith (trimEndSlashes p) (path ++ "/"))

def union (sparse other : Sparse) : Sparse :=
  if sparse.isFull || other.isFull then []
  else other.foldl (fun prefixes p => if p ∈ prefixes then prefixes else prefixes ++ [p]) sparse

theorem matchesPath_iff {sparse : Sparse} {path : String} :
    sparse.matchesPath path = true ↔ sparse = [] ∨ ∃ p ∈ sparse,
      path = trimEndSlashes p ∨ ∃ rest, path = trimEndSlashes p ++ "/" ++ rest := by
  simp only [matchesPath, Bool.or_eq_true, List.isEmpty_iff, List.any_eq_true, decide_eq_true_eq,
    startsWith_iff]

theorem matchesPath_union {sparse other : Sparse} {path : String}
    (h : sparse.matchesPath path = true) : (sparse.union other).matchesPath path = true := by
  unfold union
  split
  · rfl
  · next hfull =>
    rw [matchesPath_iff] at h ⊢
    rcases h with rfl | ⟨p, hp, hpath⟩
    · simp [isFull] at hfull
    · refine .inr ⟨p, ?_, hpath⟩
      have hkeep : ∀ (ps acc : List String), p ∈ acc →
          p ∈ ps.foldl (fun prefixes p => if p ∈ prefixes then prefixes else prefixes ++ [p])
            acc := by
        intro ps
        induction ps with
        | nil => exact fun acc h => h
        | cons q ps ih =>
          intro acc h
          rw [List.foldl_cons]
          refine ih _ ?_
          split
          · exact h
          · exact List.mem_append_left _ h
      exact hkeep other sparse hp

/-- A walk towards a path in the view passes every directory above it. -/
theorem shouldDescend_of_matches {sparse : Sparse} {dir rest : String}
    (h : sparse.matchesPath (dir ++ "/" ++ rest) = true) : sparse.shouldDescend dir = true := by
  rw [matchesPath_iff] at h
  simp only [shouldDescend, Bool.or_eq_true, List.any_eq_true, startsWith_iff, matchesPath_iff]
  rcases h with hfull | ⟨p, hp, heq | ⟨tail, heq⟩⟩
  · exact .inl (.inl (.inl (by simp [isFull, hfull])))
  · exact .inr ⟨p, hp, rest, heq.symm⟩
  · rcases slash_cases heq with hd | ⟨t, ht⟩ | ⟨t, ht⟩
    · exact .inl (.inr (.inr ⟨p, hp, .inl hd⟩))
    · exact .inr ⟨p, hp, t, ht⟩
    · exact .inl (.inr (.inr ⟨p, hp, .inr ⟨t, ht⟩⟩))

end Sparse

/-! ## The walks -/

def walkEntriesWithPermsSparse (store : Store) (sparse : Sparse) (skipAbsent : Bool) :
    Nat → ObjectId → String → FileMap → Except Error FileMap
  | 0, _, _, _ => .error .fuel
  | fuel + 1, treeId, pre, out => do
    let tree ← store.getTree treeId
    tree.entries.foldlM (fun out e =>
      let path := join pre e.name
      match e.kind with
      | .blob => pure (if sparse.matchesPath path then out.insert path (fileEntry e) else out)
      | .tree =>
        if sparse.shouldDescend path && (!skipAbsent || store.contains e.id) then
          walkEntriesWithPermsSparse store sparse skipAbsent fuel e.id path out
        else pure out) out

def treeFileEntriesWithPermsSparse (fuel : Nat) (store : Store) (root : ObjectId)
    (sparse : Sparse) : Except Error FileMap :=
  if sparse.isFull then treeFileEntriesWithPerms fuel store root
  else walkEntriesWithPermsSparse store sparse false fuel root "" ∅

/-- `tree_file_entries_with_perms_sparse_present`. -/
def treeFileEntriesPresent (fuel : Nat) (store : Store) (root : ObjectId) (sparse : Sparse) :
    Except Error FileMap :=
  if store.contains root then walkEntriesWithPermsSparse store sparse true fuel root "" ∅ else .ok ∅

/-- The tree at `root` has an entry at `path` that reads as `e`. -/
def Tracked (store : Store) (root : ObjectId) (path : String) (e : FileEntry) : Prop :=
  ∃ cs, Leaf store root cs e ∧ path = ofNames cs

/-- The walk in the full view is the plain walk. -/
theorem walkEntriesWithPerms_eq (store : Store) (fuel : Nat) (treeId : ObjectId) (pre : String)
    (out : FileMap) : walkEntriesWithPerms store fuel treeId pre out =
      walkEntriesWithPermsSparse store [] false fuel treeId pre out := by
  induction fuel generalizing treeId pre out with
  | zero => rfl
  | succ fuel ih =>
    unfold walkEntriesWithPerms walkEntriesWithPermsSparse
    refine bind_congr (fun tree => Fallible.foldlM_congr_mem (fun out e _ => ?_) out)
    cases e.kind with
    | blob => rfl
    | tree => exact ih e.id _ out

section Walk

variable {store : Store} {sparse : Sparse} {skipAbsent : Bool}

/-- A walk adds leaves inside the view and keeps what was there. -/
theorem walk_sound {fuel : Nat} {treeId : ObjectId} {pre : String} {out files : FileMap}
    (h : walkEntriesWithPermsSparse store sparse skipAbsent fuel treeId pre out = .ok files)
    {path : String} {e : FileEntry} (he : files[path]? = some e) :
    out[path]? = some e ∨ (sparse.matchesPath path = true ∧
      ∃ cs, Leaf store treeId cs e ∧ path = cs.foldl join pre) := by
  induction fuel generalizing treeId pre out files with
  | zero => cases h
  | succ fuel ih =>
    unfold walkEntriesWithPermsSparse at h
    obtain ⟨tree, htree, h⟩ := Fallible.bind_ok h
    refine Fallible.foldlM_ok (I := fun m : FileMap => m[path]? = some e →
      out[path]? = some e ∨ (sparse.matchesPath path = true ∧
        ∃ cs, Leaf store treeId cs e ∧ path = cs.foldl join pre)) ?_ (fun h => .inl h) h he
    intro m entry hentry m' hm hstep hm'
    cases hk : entry.kind with
    | blob =>
      simp only [hk] at hstep
      cases hstep
      split at hm'
      · next hview =>
        rw [BTreeMap.getElem?_insert] at hm'
        split at hm'
        · next hpath =>
          cases hm'
          exact .inr ⟨hpath ▸ hview, [entry.name], .blob htree hentry hk, hpath.symm⟩
        · exact hm hm'
      · exact hm hm'
    | tree =>
      simp only [hk] at hstep
      split at hstep
      · rcases ih hstep hm' with hold | ⟨hview, cs, hleaf, hpath⟩
        · exact hm hold
        · exact .inr ⟨hview, entry.name :: cs, .tree htree hentry hk hleaf, hpath⟩
      · cases hstep
        exact hm hm'

theorem foldl_join_append {pre : String} (hpre : pre ≠ "") (cs : List String) :
    cs = [] ∨ ∃ rest, cs.foldl join pre = pre ++ "/" ++ rest := by
  induction cs using List.reverseRecOn with
  | nil => exact .inl rfl
  | append_singleton cs c ih =>
    refine .inr ?_
    rw [List.foldl_append, List.foldl_cons, List.foldl_nil]
    rcases ih with rfl | ⟨rest, hrest⟩
    · exact ⟨c, by rw [List.foldl_nil, join, if_neg hpre]⟩
    · refine ⟨rest ++ "/" ++ c, ?_⟩
      rw [hrest, join, if_neg (by simp [hpre])]
      simp only [String.append_assoc]

theorem shouldDescend_of_below {path : String} {cs : List String} (hcs : cs ≠ [])
    (h : sparse.matchesPath (cs.foldl join path) = true) : sparse.shouldDescend path = true := by
  by_cases hpath : path = ""
  · simp [Sparse.shouldDescend, hpath]
  · rcases foldl_join_append hpath cs with rfl | ⟨rest, hrest⟩
    · exact absurd rfl hcs
    · rw [hrest] at h
      exact Sparse.shouldDescend_of_matches h

/-- A walk that succeeds drops no path it already had. -/
theorem walk_mono {fuel : Nat} {treeId : ObjectId} {pre : String} {out files : FileMap}
    (h : walkEntriesWithPermsSparse store sparse skipAbsent fuel treeId pre out = .ok files)
    {path : String} (hp : ∃ e, out[path]? = some e) : ∃ e, files[path]? = some e := by
  induction fuel generalizing treeId pre out files with
  | zero => cases h
  | succ fuel ih =>
    unfold walkEntriesWithPermsSparse at h
    obtain ⟨tree, -, h⟩ := Fallible.bind_ok h
    refine Fallible.foldlM_ok (I := fun m : FileMap => ∃ e, m[path]? = some e) ?_ hp h
    intro m entry _ m' hm hstep
    cases hk : entry.kind with
    | blob =>
      simp only [hk] at hstep
      cases hstep
      split
      · rw [BTreeMap.getElem?_insert]
        split
        · exact ⟨_, rfl⟩
        · exact hm
      · exact hm
    | tree =>
      simp only [hk] at hstep
      split at hstep
      · exact ih hstep hm
      · cases hstep
        exact hm

/-- A walk that succeeds finds every leaf inside the view. -/
theorem walk_complete {fuel : Nat} {treeId : ObjectId} {pre : String} {out files : FileMap}
    (h : walkEntriesWithPermsSparse store sparse skipAbsent fuel treeId pre out = .ok files)
    {cs : List String} {e : FileEntry} (hleaf : Leaf store treeId cs e)
    (hview : sparse.matchesPath (cs.foldl join pre) = true) :
    ∃ e', files[cs.foldl join pre]? = some e' := by
  induction fuel generalizing treeId pre out files cs with
  | zero => cases h
  | succ fuel ih =>
    unfold walkEntriesWithPermsSparse at h
    obtain ⟨tree, htree, h⟩ := Fallible.bind_ok h
    obtain ⟨entry, hentry, ds, rfl, hds⟩ := (leaf_iff htree).mp hleaf
    refine Fallible.foldlM_ok_done (I := fun done (m : FileMap) => entry ∈ done →
      ∃ e', m[(entry.name :: ds).foldl join pre]? = some e') ?_ (by simp) h hentry
    intro done m x m' hm hstep hmem
    have hkeep : (∃ e', m[(entry.name :: ds).foldl join pre]? = some e') →
        ∃ e', m'[(entry.name :: ds).foldl join pre]? = some e' := by
      intro hold
      cases hk : x.kind with
      | blob =>
        simp only [hk] at hstep
        cases hstep
        split
        · rw [BTreeMap.getElem?_insert]
          split
          · exact ⟨_, rfl⟩
          · exact hold
        · exact hold
      | tree =>
        simp only [hk] at hstep
        split at hstep
        · exact walk_mono hstep hold
        · cases hstep
          exact hold
    rcases List.mem_append.mp hmem with hdone | hx
    · exact hkeep (hm hdone)
    · rw [List.mem_singleton] at hx
      subst hx
      rcases hds with ⟨hk, rfl, rfl⟩ | ⟨hk, hleaf'⟩
      · simp only [hk] at hstep
        cases hstep
        refine ⟨fileEntry entry, ?_⟩
        have hview' : sparse.matchesPath (join pre entry.name) = true := hview
        rw [if_pos hview', BTreeMap.getElem?_insert]
        exact if_pos rfl
      · simp only [hk] at hstep
        have hne : ds ≠ [] := by
          rintro rfl
          exact not_leaf_nil hleaf'
        have hdescend : sparse.shouldDescend (join pre entry.name) = true :=
          shouldDescend_of_below hne hview
        have hheld : store.contains entry.id = true := by
          cases hleaf' with
          | blob ht _ _ => exact Store.contains_of_get (Store.getTree_eq_ok_iff.mp ht)
          | tree ht _ _ _ => exact Store.contains_of_get (Store.getTree_eq_ok_iff.mp ht)
        rw [hdescend, hheld, Bool.or_true, Bool.and_true, if_pos rfl] at hstep
        exact ih hstep hleaf' hview

end Walk

/-- What flattening a tree in a view returns: `Tracked` entries in the view, and some entry for
every tracked path in the view. -/
structure Flattens (store : Store) (root : ObjectId) (sparse : Sparse) (files : FileMap) :
    Prop where
  sound : ∀ path e, files[path]? = some e →
    sparse.matchesPath path = true ∧ Tracked store root path e
  complete : ∀ path e, Tracked store root path e → sparse.matchesPath path = true →
    ∃ e', files[path]? = some e'

theorem flattens_of_walk {store : Store} {root : ObjectId} {sparse : Sparse} {skipAbsent : Bool}
    {fuel : Nat} {files : FileMap}
    (h : walkEntriesWithPermsSparse store sparse skipAbsent fuel root "" ∅ = .ok files) :
    Flattens store root sparse files where
  sound := by
    intro path e he
    rcases walk_sound h he with hempty | ⟨hview, cs, hleaf, hpath⟩
    · simp at hempty
    · exact ⟨hview, cs, hleaf, hpath⟩
  complete := by
    rintro path e ⟨cs, hleaf, rfl⟩ hview
    exact walk_complete h hleaf hview

theorem treeFileEntriesWithPermsSparse_flattens {fuel : Nat} {store : Store} {root : ObjectId}
    {sparse : Sparse} {files : FileMap}
    (h : treeFileEntriesWithPermsSparse fuel store root sparse = .ok files) :
    Flattens store root sparse files := by
  unfold treeFileEntriesWithPermsSparse at h
  split at h
  · next hfull =>
    have hnil : sparse = [] := by simpa [Sparse.isFull] using hfull
    rw [treeFileEntriesWithPerms, walkEntriesWithPerms_eq] at h
    subst hnil
    exact flattens_of_walk h
  · exact flattens_of_walk h

theorem treeFileEntriesPresent_flattens {fuel : Nat} {store : Store} {root : ObjectId}
    {sparse : Sparse} {files : FileMap}
    (h : treeFileEntriesPresent fuel store root sparse = .ok files) :
    Flattens store root sparse files := by
  unfold treeFileEntriesPresent at h
  split at h
  · exact flattens_of_walk h
  · next habsent =>
    cases h
    refine ⟨fun path e he => by simp at he, ?_⟩
    rintro path e ⟨cs, hleaf, -⟩ -
    exfalso
    cases hleaf with
    | blob ht _ _ => exact habsent (Store.contains_of_get (Store.getTree_eq_ok_iff.mp ht))
    | tree ht _ _ _ => exact habsent (Store.contains_of_get (Store.getTree_eq_ok_iff.mp ht))

end SrcControl
