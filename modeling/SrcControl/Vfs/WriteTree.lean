import SrcControl.Vfs.Flatten

/-!
# Writing a file set

Each file's bytes are put as a blob under the file's normal path, and the tree is built over
them and the carried subtrees. A leaf of the tree written is one of the files or a leaf of a
carried entry.
-/

namespace SrcControl

open SlashPath Puts TreeBuilder TreeEntries

/-- A file with the bytes to store for it: the ciphertext when it is protected. -/
structure SealedFile where
  path : String
  bytes : Bytes
  mode : FileMode
  perms : UInt8
deriving DecidableEq, Repr

/-- The tree entry a written file gets. -/
def SealedFile.entry (idOf : Object → ObjectId) (f : SealedFile) : FileEntry :=
  ⟨idOf (.blob f.bytes), f.mode, f.perms⟩

namespace Vfs

def writeFile (idOf : Object → ObjectId) (map : FileMap) (f : SealedFile) : Puts FileMap := do
  let id ← put idOf (.blob f.bytes)
  pure (map.insert (normalize f.path) ⟨id, f.mode, f.perms⟩)

def writeTreeWithPerms (idOf : Object → ObjectId) (files : List SealedFile) : Puts ObjectId := do
  let map ← files.foldlM (writeFile idOf) ∅
  buildRoot idOf map ∅

def carriedMap (carried : List (String × TreeEntry)) : BTreeMap String TreeEntry :=
  BTreeMap.ofList (carried.map (fun c => (normalize c.1, c.2)))

/-- The carried subtrees are placed verbatim, nothing below them read. -/
def writeTreeWithCarried (idOf : Object → ObjectId) (files : List SealedFile)
    (carried : List (String × TreeEntry)) : Puts ObjectId := do
  let map ← files.foldlM (writeFile idOf) ∅
  buildRoot idOf map (carriedMap carried)

variable {idOf : Object → ObjectId}

theorem writeTreeWithPerms_eq (files : List SealedFile) :
    writeTreeWithPerms idOf files = writeTreeWithCarried idOf files [] := rfl

/-- The map the written files make. -/
def fileMap (idOf : Object → ObjectId) (files : List SealedFile) (m : FileMap) : FileMap :=
  files.foldl (fun m f => m.insert (normalize f.path) (f.entry idOf)) m

theorem writeFiles_emits (files : List SealedFile) (m : FileMap) :
    Emits (files.foldlM (writeFile idOf) m) (fileMap idOf files m)
      (files.map (fun f => Object.blob f.bytes)) := by
  induction files generalizing m with
  | nil => exact emits_pure m
  | cons f files ih =>
    rw [List.foldlM_cons]
    have hone : Emits (writeFile idOf m f) (m.insert (normalize f.path) (f.entry idOf))
        [Object.blob f.bytes] :=
      (emits_put idOf (.blob f.bytes)).map
        (fun id => m.insert (normalize f.path) (FileEntry.mk id f.mode f.perms))
    exact hone.bind (ih _)

/-- A path a tree can be written at: components without separators, none of them a dot. -/
def NormalPath (p : String) : Prop :=
  ∃ cs, cs ≠ [] ∧ (∀ c ∈ cs, IsName c ∧ c ≠ ".") ∧ p = ofNames cs

theorem NormalPath.normalize {p : String} (h : NormalPath p) : normalize p = p := by
  obtain ⟨cs, -, hcs, rfl⟩ := h
  exact normalize_ofNames hcs

theorem NormalPath.names {p : String} (h : NormalPath p) :
    ∃ cs, cs ≠ [] ∧ (∀ c ∈ cs, IsName c) ∧ p = ofNames cs := by
  obtain ⟨cs, hne, hcs, rfl⟩ := h
  exact ⟨cs, hne, fun c hc => (hcs c hc).1, rfl⟩

theorem mem_fileMap {files : List SealedFile} (h : ∀ f ∈ files, NormalPath f.path) {m : FileMap}
    {p : String} {fe : FileEntry} (hp : (fileMap idOf files m)[p]? = some fe) :
    m[p]? = some fe ∨ ∃ f ∈ files, f.path = p ∧ f.entry idOf = fe := by
  induction files generalizing m with
  | nil => exact .inl hp
  | cons f files ih =>
    rcases ih (fun g hg => h g (List.mem_cons_of_mem f hg)) hp with hm | ⟨g, hg, hpath, hfe⟩
    · rw [BTreeMap.getElem?_insert, (h f List.mem_cons_self).normalize] at hm
      split_ifs at hm with hpath
      · exact .inr ⟨f, List.mem_cons_self, hpath, Option.some_inj.mp hm⟩
      · exact .inl hm
    · exact .inr ⟨g, List.mem_cons_of_mem f hg, hpath, hfe⟩

theorem spelled_fileMap {files : List SealedFile} (h : ∀ f ∈ files, NormalPath f.path) :
    Spelled (fileMap idOf files ∅) := by
  intro p fe hp
  rcases mem_fileMap h hp with hm | ⟨f, hf, rfl, -⟩
  · simp at hm
  · exact (h f hf).names

theorem mem_carriedMap {carried : List (String × TreeEntry)} (h : ∀ c ∈ carried, NormalPath c.1)
    {p : String} {e : TreeEntry} (hp : (carriedMap carried)[p]? = some e) : (p, e) ∈ carried := by
  have hmem := BTreeMap.mem_of_mem_ofList ((BTreeMap.mem_toList_iff _ _ _).mpr hp)
  obtain ⟨c, hc, he⟩ := List.mem_map.mp hmem
  rw [(h c hc).normalize] at he
  exact he ▸ hc

theorem spelled_carriedMap {carried : List (String × TreeEntry)}
    (h : ∀ c ∈ carried, NormalPath c.1) : Spelled (carriedMap carried) :=
  fun p e hp => (h (p, e) (mem_carriedMap h hp)).names

/-- What a successful write put: every file's bytes, and the trees that place them. -/
theorem writeTree_ok {files : List SealedFile} {carried : List (String × TreeEntry)}
    {log os : List Object} {root : ObjectId} (hf : ∀ f ∈ files, NormalPath f.path)
    (hc : ∀ c ∈ carried, NormalPath c.1)
    (h : (writeTreeWithCarried idOf files carried).run log = (.ok root, os)) :
    ∃ trees, os = log ++ files.map (fun f => Object.blob f.bytes) ++ trees ∧
      Clear (fileMap idOf files ∅) (carriedMap carried) ∧
      Built idOf (fileMap idOf files ∅) (carriedMap carried) trees
        (levels (fileMap idOf files ∅) (carriedMap carried)) [] root := by
  obtain ⟨m, mid, hm, hb⟩ := run_bind_ok h
  rw [writeFiles_emits files ∅ log] at hm
  cases hm
  by_cases hclear : Clear (fileMap idOf files ∅) (carriedMap carried)
  · obtain ⟨root', trees, hemits, hbuilt⟩ :=
      @buildRoot_emits idOf _ _ (spelled_fileMap hf) (spelled_carriedMap hc) hclear
    rw [hemits] at hb
    cases hb
    exact ⟨trees, rfl, hclear, hbuilt⟩
  · obtain ⟨err, herr⟩ := @buildRoot_error idOf _ _ hclear
      (log ++ files.map (fun f => Object.blob f.bytes))
    rw [herr] at hb
    cases hb

end Vfs

namespace TreeBuilder

variable {idOf : Object → ObjectId} {files : FileMap} {carried : BTreeMap String TreeEntry}
  {full : Store}

/-- A leaf of a built directory lies at or below a placed entry. -/
theorem Built.leaf {os : List Object}
    (hos : ∀ t, .tree t ∈ os → full.getTree (idOf (.tree t)) = .ok t) {n : Nat}
    {ds : List String} {id : ObjectId} (hb : Built idOf files carried os n ds id)
    {cs : List String} {fe : FileEntry} (hl : Leaf full id cs fe) :
    ∃ es e rest, Placed files carried (ds ++ es) e ∧ cs = es ++ e.name :: rest ∧
      EntryLeaf full e rest fe := by
  induction n generalizing ds id cs with
  | zero => exact hb.elim
  | succ n ih =>
    obtain ⟨t, ht, rfl, -, hall, -, -⟩ := hb
    obtain ⟨e, he, rest, rfl, hrest⟩ := (leaf_iff (hos t ht)).mp hl
    rcases hall e he with hplaced | ⟨-, -, hk, hb⟩
    · exact ⟨[], e, rest, by rwa [List.append_nil], rfl, hrest⟩
    · rcases hrest with ⟨hk', -⟩ | ⟨-, hleaf⟩
      · rw [hk] at hk'
        cases hk'
      · obtain ⟨es, e', rest', hp, rfl, hl'⟩ := ih hb hleaf
        refine ⟨e.name :: es, e', rest', ?_, rfl, hl'⟩
        rwa [List.append_assoc] at hp

/-- A leaf of a built root is a file, or a leaf of a carried entry. -/
theorem Built.root_leaf {os : List Object}
    (hos : ∀ t, .tree t ∈ os → full.getTree (idOf (.tree t)) = .ok t) {n : Nat} {id : ObjectId}
    (hb : Built idOf files carried os n [] id) {cs : List String} {fe : FileEntry}
    (hl : Leaf full id cs fe) :
    files[ofNames cs]? = some fe ∨ ∃ es rest e, cs = es ++ rest ∧
      carried[ofNames es]? = some e ∧ EntryLeaf full e rest fe := by
  obtain ⟨es, e, rest, hp, rfl, hrest⟩ := hb.leaf hos hl
  rw [List.nil_append] at hp
  cases hp with
  | file hn hfe =>
    rcases hrest with ⟨-, rfl, rfl⟩ | ⟨hk, -⟩
    · exact .inl hfe
    · cases hk
  | carried hn hce =>
    exact .inr ⟨_, rest, _, by simp, hce, hrest⟩

end TreeBuilder

namespace Vfs

variable {idOf : Object → ObjectId}

/-- A leaf of the tree written is in the file map or lies at or below a carried entry. -/
theorem writeTree_leaf_map {files : List SealedFile} {carried : List (String × TreeEntry)}
    {os : List Object} {root : ObjectId} (hf : ∀ f ∈ files, NormalPath f.path)
    (hc : ∀ c ∈ carried, NormalPath c.1)
    (h : (writeTreeWithCarried idOf files carried).run [] = (.ok root, os)) {full : Store}
    (hheld : ∀ o ∈ os, full.get (idOf o) = .ok o) {cs : List String} {fe : FileEntry}
    (hl : Leaf full root cs fe) :
    (fileMap idOf files ∅)[ofNames cs]? = some fe ∨
      ∃ c ∈ carried, ∃ rest, EntryLeaf full c.2 rest fe := by
  obtain ⟨trees, rfl, -, hb⟩ := writeTree_ok hf hc h
  have hos : ∀ t, .tree t ∈ trees → full.getTree (idOf (.tree t)) = .ok t := fun t ht =>
    Store.getTree_eq_ok_iff.mpr (hheld _ (List.mem_append_right _ ht))
  rcases hb.root_leaf hos hl with hfe | ⟨es, rest, e, rfl, he, hrest⟩
  · exact .inl hfe
  · exact .inr ⟨_, mem_carriedMap hc he, rest, hrest⟩

/-- A leaf of the tree written is one of the files or lies at or below a carried entry. -/
theorem writeTree_leaf {files : List SealedFile} {carried : List (String × TreeEntry)}
    {os : List Object} {root : ObjectId} (hf : ∀ f ∈ files, NormalPath f.path)
    (hc : ∀ c ∈ carried, NormalPath c.1)
    (h : (writeTreeWithCarried idOf files carried).run [] = (.ok root, os)) {full : Store}
    (hheld : ∀ o ∈ os, full.get (idOf o) = .ok o) {cs : List String} {fe : FileEntry}
    (hl : Leaf full root cs fe) :
    (∃ f ∈ files, f.path = ofNames cs ∧ f.entry idOf = fe) ∨
      ∃ c ∈ carried, ∃ rest, EntryLeaf full c.2 rest fe := by
  refine (writeTree_leaf_map hf hc h hheld hl).imp_left (fun hfe => ?_)
  rcases mem_fileMap hf hfe with hm | hm
  · simp at hm
  · exact hm

/-- With nothing carried, the tree written flattens to the file map. -/
theorem writeTree_flattens {files : List SealedFile} {os : List Object} {root : ObjectId}
    (hf : ∀ f ∈ files, NormalPath f.path)
    (h : (writeTreeWithCarried idOf files []).run [] = (.ok root, os)) {store : Store}
    (hheld : ∀ o ∈ os, store.get (idOf o) = .ok o) {m : FileMap}
    (hm : Flattens store root "" m) {key : String} {fe : FileEntry} :
    m[key]? = some fe ↔ (fileMap idOf files ∅)[key]? = some fe := by
  obtain ⟨trees, rfl, -, hb⟩ := writeTree_ok hf (by simp) h
  have hos : ∀ t, .tree t ∈ trees → store.getTree (idOf (.tree t)) = .ok t := fun t ht =>
    Store.getTree_eq_ok_iff.mpr (hheld _ (List.mem_append_right _ ht))
  have hnone : ∀ p : String, (carriedMap [])[p]? = none := fun p => by
    simp [carriedMap, BTreeMap.ofList]
  obtain ⟨m', hm', hiff⟩ := hb.flattens hos (hb.allFlatten hos hm)
  obtain rfl := hm.unique hm'
  rw [hiff, yields_root_iff (spelled_fileMap hf) (spelled_carriedMap (by simp))]
  simp [hnone]

end Vfs

end SrcControl
