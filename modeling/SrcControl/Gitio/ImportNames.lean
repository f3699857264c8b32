import SrcControl.Core.Codec
import SrcControl.Gitio.ImportRuns
import SrcControl.Lib.LossyText

/-!
# Names of imported tree entries

A git name is bytes and an entry's name is text: the import takes the text in which what is no
UTF-8 reads as the replacement character. The tree it stores has one entry for each git entry
that is not a submodule, exactly when no two of them in one tree have the same text.
-/

namespace SrcControl

namespace Gitio

/-! ## Names as git has them -/

structure RawEntry where
  filename : Bytes
  kind : GitEntryKind
  oid : GitId
deriving DecidableEq, Repr

/-- `entry.filename().to_string()`. -/
def RawEntry.name (e : RawEntry) : String := String.ofList (LossyText.decode e.filename)

def RawEntry.read (e : RawEntry) : GitEntry := ⟨e.name, e.kind, e.oid⟩

inductive RawKind
  | commit (c : Option GitCommit)
  | tree (entries : List (Option RawEntry))
  | other
deriving DecidableEq

structure RawObject where
  data : Bytes
  kind : RawKind
deriving DecidableEq

structure RawRepo where
  branches : String → Option GitId
  objects : GitId → Option RawObject

/-- What the import makes of a tree's entries; `none` does not decode. -/
def readEntries (es : List (Option RawEntry)) : List (Option GitEntry) :=
  es.map (Option.map RawEntry.read)

def RawKind.read : RawKind → GitKind
  | .commit c => .commit c
  | .tree entries => .tree (readEntries entries)
  | .other => .other

def RawObject.read (o : RawObject) : GitObject := ⟨o.data, o.kind.read⟩

def RawRepo.read (repo : RawRepo) : GitRepo :=
  ⟨repo.branches, fun oid => (repo.objects oid).map RawObject.read⟩

/-- `import_tree` on a tree of the repository. -/
def importRawTree (idOf : Object → ObjectId) (repo : RawRepo) (fuel : Nat)
    (es : List (Option RawEntry)) : Import ObjectId :=
  importTree idOf repo.read fuel (readEntries es)

/-! ## Trees that stand for git trees -/

/-- The entries that are not submodules. -/
def kept (es : List (Option RawEntry)) : List RawEntry :=
  es.reduceOption.filter (fun e => e.kind ≠ .commit)

/-- The entries of the tree that an entry names. -/
def RawRepo.subentries (repo : RawRepo) (e : RawEntry) : List (Option RawEntry) :=
  match repo.objects e.oid with
  | some ⟨_, .tree entries⟩ => entries
  | _ => []

def RawEntry.entryKind (e : RawEntry) : EntryKind := if e.kind = .tree then .tree else .blob

def RawEntry.mode (e : RawEntry) : FileMode := if e.kind = .tree then ⟨0o755⟩ else blobMode e.kind

variable (idOf : Object → ObjectId) (repo : RawRepo) (stored : List Object)

/-- The entry `t` has the name, the kind, the mode and, where it is a blob, the content of `e`. -/
structure Carries (e : RawEntry) (t : TreeEntry) : Prop where
  name : t.name = e.name
  kind : t.kind = e.entryKind
  mode : t.mode = e.mode
  content : e.kind ≠ .tree → ∃ obj, repo.objects e.oid = some obj ∧
    t.id = idOf (.blob obj.data) ∧ .blob obj.data ∈ stored

/-- The stored tree `t` is the git tree `es`: distinct names, one entry for each entry of `es`
that is not a submodule, which `get` finds under its name and which carries it, and the subtrees
the same way. -/
inductive Faithful : List (Option RawEntry) → Tree → Prop
  | mk {es : List (Option RawEntry)} {t : Tree} (subtree : RawEntry → Tree)
      (hstored : .tree t ∈ stored)
      (hdistinct : (t.entries.map (·.name)).Nodup)
      (hnames : ∀ e ∈ kept es, ∀ e' ∈ kept es, e.name = e'.name → e = e')
      (hone : (t.entries.map (·.name)).Perm ((kept es).map RawEntry.name))
      (hget : ∀ e ∈ kept es, ∃ te, t.get e.name = some te ∧ Carries idOf repo stored e te ∧
        (e.kind = .tree → te.id = idOf (.tree (subtree e))))
      (hsub : ∀ e ∈ kept es, e.kind = .tree → Faithful (repo.subentries e) (subtree e)) :
      Faithful es t

/-- In this tree and in every tree below it, entries that are not submodules have distinct
texts for names. -/
inductive Distinguishable : List (Option RawEntry) → Prop
  | mk {es : List (Option RawEntry)} (hnames : ((kept es).map RawEntry.name).Nodup)
      (hsub : ∀ e ∈ kept es, e.kind = .tree → Distinguishable (repo.subentries e)) :
      Distinguishable es

variable {idOf repo stored}

theorem Faithful.distinguishable {es : List (Option RawEntry)} {t : Tree}
    (h : Faithful idOf repo stored es t) : Distinguishable repo es := by
  induction h with
  | mk subtree hstored hdistinct hnames hone hget hsub ih =>
    exact .mk (hone.nodup_iff.mp hdistinct) ih

/-! ## What the import of a tree stores -/

@[simp] theorem kept_nil : kept [] = [] := rfl

theorem kept_cons (e : RawEntry) (es : List (Option RawEntry)) :
    kept (some e :: es) = if e.kind = .commit then kept es else e :: kept es := by
  unfold kept
  rw [List.reduceOption_cons_of_some, List.filter_cons]
  by_cases hk : e.kind = .commit <;> simp [hk]

theorem objects_of_read {oid : GitId} {obj : GitObject}
    (h : repo.read.objects oid = some obj) :
    ∃ raw, repo.objects oid = some raw ∧ raw.read = obj :=
  Option.map_eq_some_iff.mp h

theorem subentries_of_read {e : RawEntry} {obj : GitObject} {sub : List (Option GitEntry)}
    (ho : repo.read.objects e.oid = some obj) (hsub : obj.intoTree = some sub) :
    sub = readEntries (repo.subentries e) := by
  obtain ⟨⟨data, kind⟩, hraw, rfl⟩ := objects_of_read ho
  unfold RawRepo.subentries
  rw [hraw]
  cases kind with
  | tree entries => exact (Option.some.inj hsub).symm
  | commit c => cases hsub
  | other => cases hsub

/-- The entries made so far, under the same names, and the subtrees put for them. -/
structure Made (idOf : Object → ObjectId) (repo : RawRepo) (stored : List Object)
    (es : List (Option RawEntry)) (ts : List TreeEntry) : Prop where
  names : ts.map (·.name) = (kept es).map RawEntry.name
  entries : ∀ e ∈ kept es, ∃ te ∈ ts, Carries idOf repo stored e te ∧
    (e.kind = .tree → ∃ t, te.id = idOf (.tree t) ∧
      (Distinguishable repo (repo.subentries e) →
        Faithful idOf repo stored (repo.subentries e) t))

theorem Made.faithful {es : List (Option RawEntry)} {ts : List TreeEntry}
    (h : Made idOf repo stored es ts) (hstored : .tree (Tree.new ts) ∈ stored)
    (hd : Distinguishable repo es) : Faithful idOf repo stored es (Tree.new ts) := by
  cases hd with
  | mk hnames hsub =>
    have hnodup : (ts.map (·.name)).Nodup := h.names ▸ hnames
    have hperm : ((Tree.new ts).entries.map (·.name)).Perm (ts.map (·.name)) :=
      (List.mergeSort_perm ts _).map _
    have hinj := List.inj_on_of_nodup_map hnames
    have hchoice : ∀ e, ∃ t, e ∈ kept es → ∃ te ∈ ts, Carries idOf repo stored e te ∧
        (e.kind = .tree → te.id = idOf (.tree t) ∧
          Faithful idOf repo stored (repo.subentries e) t) := by
      intro e
      by_cases he : e ∈ kept es
      · obtain ⟨te, hte, hcarries, htree⟩ := h.entries e he
        by_cases hk : e.kind = .tree
        · obtain ⟨t, hid, hfaithful⟩ := htree hk
          exact ⟨t, fun _ => ⟨te, hte, hcarries, fun _ => ⟨hid, hfaithful (hsub e he hk)⟩⟩⟩
        · exact ⟨default, fun _ => ⟨te, hte, hcarries, fun hk' => absurd hk' hk⟩⟩
      · exact ⟨default, fun he' => absurd he' he⟩
    choose subtree hsubtree using hchoice
    refine .mk subtree hstored (hperm.nodup_iff.mpr hnodup) (fun e he e' he' => hinj he he')
      (h.names ▸ hperm) (fun e he => ?_) (fun e he hk => ?_)
    · obtain ⟨te, hte, hcarries, htree⟩ := hsubtree e he
      refine ⟨te, ?_, hcarries, fun hk => (htree hk).1⟩
      exact (Tree.new_sorted hnodup).get_eq_some_iff.mpr ⟨Tree.mem_new.mpr hte, hcarries.name⟩
    · obtain ⟨te, -, -, htree⟩ := hsubtree e he
      exact (htree hk).2

theorem Made.cons {e : RawEntry} {es : List (Option RawEntry)} {te : TreeEntry}
    {ts : List TreeEntry} (h : Made idOf repo stored es ts) (hk : e.kind ≠ .commit)
    (hcarries : Carries idOf repo stored e te)
    (htree : e.kind = .tree → ∃ t, te.id = idOf (.tree t) ∧
      (Distinguishable repo (repo.subentries e) →
        Faithful idOf repo stored (repo.subentries e) t)) :
    Made idOf repo stored (some e :: es) (te :: ts) := by
  have hkept : kept (some e :: es) = e :: kept es := by rw [kept_cons, if_neg hk]
  constructor
  · rw [hkept, List.map_cons, List.map_cons, h.names, hcarries.name]
  · intro e' he'
    rcases List.mem_cons.mp (hkept ▸ he') with rfl | he'
    · exact ⟨te, List.mem_cons_self, hcarries, htree⟩
    · obtain ⟨te', hte', hrest⟩ := h.entries e' he'
      exact ⟨te', List.mem_cons_of_mem te hte', hrest⟩

theorem readEntries_eq_cons {es : List (Option RawEntry)} {g : GitEntry}
    {es' : List (Option GitEntry)} (h : some g :: es' = readEntries es) :
    ∃ e rest, es = some e :: rest ∧ e.read = g ∧ es' = readEntries rest := by
  obtain ⟨x, rest, rfl, hx, hrest⟩ := List.map_eq_cons_iff.mp h.symm
  obtain ⟨e, rfl, he⟩ := Option.map_eq_some_iff.mp hx
  exact ⟨e, rest, rfl, he, hrest.symm⟩

theorem EntriesImport.made {es' : List (Option GitEntry)} {ts : List TreeEntry}
    {os : List Object} (h : EntriesImport idOf repo.read es' ts os)
    {es : List (Option RawEntry)} (hes : es' = readEntries es) (hstored : ∀ o ∈ os, o ∈ stored) :
    Made idOf repo stored es ts := by
  induction h generalizing es with
  | nil =>
    obtain rfl : es = [] := List.map_eq_nil_iff.mp hes.symm
    exact ⟨rfl, fun e he => absurd he List.not_mem_nil⟩
  | @tree g es' sub obj ts ts' os os' hk ho hsub h hrest ih ihrest =>
    obtain ⟨e, rest, rfl, rfl, hrest'⟩ := readEntries_eq_cons hes
    have hkind : e.kind = .tree := hk
    have hsubtree := ih (subentries_of_read ho hsub) (fun o ho => hstored o (by simp [ho]))
    refine (ihrest hrest' (fun o ho => hstored o (by simp [ho]))).cons (by simp [hkind]) ?_ ?_
    · exact ⟨rfl, (if_pos hkind).symm, (if_pos hkind).symm, fun hne => absurd hkind hne⟩
    · exact fun _ => ⟨Tree.new ts, rfl, hsubtree.faithful (hstored _ (by simp))⟩
  | @submodule g es' ts os hk h ih =>
    obtain ⟨e, rest, rfl, rfl, hrest'⟩ := readEntries_eq_cons hes
    have hkind : e.kind = .commit := hk
    have hkept : kept (some e :: rest) = kept rest := by rw [kept_cons, if_pos hkind]
    have hmade := ih hrest' hstored
    exact ⟨hkept ▸ hmade.names, hkept ▸ hmade.entries⟩
  | @blob g es' obj ts os ht hc ho h ih =>
    obtain ⟨e, rest, rfl, rfl, hrest'⟩ := readEntries_eq_cons hes
    have htree : e.kind ≠ .tree := ht
    obtain ⟨raw, hraw, rfl⟩ := objects_of_read ho
    refine (ih hrest' (fun o ho => hstored o (by simp [ho]))).cons hc ?_
      (fun hk => absurd hk htree)
    exact ⟨rfl, (if_neg htree).symm, (if_neg htree).symm,
      fun _ => ⟨raw, hraw, rfl, hstored _ (by simp [RawObject.read])⟩⟩

/-! ## Exactly the trees with distinguishable names -/

/-- An import that succeeds puts one tree last and returns its id. That tree is the git tree,
entry for entry down to the blobs, exactly when names that are distinct as bytes stay distinct as
text in every tree of it. -/
theorem importRawTree_faithful_iff {fuel : Nat} {es : List (Option RawEntry)} {id : ObjectId}
    {log log' : List Object} (h : (importRawTree idOf repo fuel es).run log = (.ok id, log')) :
    ∃ t, id = idOf (.tree t) ∧ log'.getLast? = some (.tree t) ∧
      (Faithful idOf repo log' es t ↔ Distinguishable repo es) := by
  obtain ⟨ts, os, himport, rfl, rfl⟩ := importTree_ok h
  have hlast : log ++ (os ++ [.tree (Tree.new ts)]) = log ++ os ++ [.tree (Tree.new ts)] :=
    (List.append_assoc _ _ _).symm
  refine ⟨Tree.new ts, rfl, ?_, Faithful.distinguishable, ?_⟩
  · rw [hlast, List.getLast?_concat]
  · have hmade : Made idOf repo (log ++ (os ++ [.tree (Tree.new ts)])) es ts :=
      himport.made rfl (fun o ho => by simp [ho])
    exact hmade.faithful (by simp)

/-! ## Names that read alike -/

def blobNamed (filename : Bytes) (content : UInt8) : RawEntry := ⟨filename, .blob, ⟨[content]⟩⟩

/-- A repository of blobs, the id of each its content. -/
def blobRepo : RawRepo := ⟨fun _ => none, fun oid => some ⟨oid.bytes, .other⟩⟩

/-- An address that tells all objects apart. -/
def wholeId : Object → ObjectId := Object.id (fun bytes => bytes)

theorem importRawTree_faithful_iff_blob :
    ∃ t, wholeId (.tree (Tree.new [⟨"a", .blob, wholeId (.blob [1]), .FILE, 0⟩])) =
        wholeId (.tree t) ∧
      [Object.blob [1], .tree (Tree.new [⟨"a", .blob, wholeId (.blob [1]), .FILE, 0⟩])].getLast? =
        some (.tree t) ∧
      (Faithful wholeId blobRepo
          [.blob [1], .tree (Tree.new [⟨"a", .blob, wholeId (.blob [1]), .FILE, 0⟩])]
          [some (blobNamed [0x61] 1)] t ↔
        Distinguishable blobRepo [some (blobNamed [0x61] 1)]) :=
  @importRawTree_faithful_iff wholeId blobRepo 1 [some (blobNamed [0x61] 1)] _ [] _ rfl

/-- Two names of one byte that is no UTF-8 both become the replacement character. -/
theorem same_text_imported :
    (importRawTree wholeId blobRepo 1 [some (blobNamed [0xfe] 1), some (blobNamed [0xff] 2)]).run
        [] = (.ok (wholeId (.tree (Tree.new [⟨"\uFFFD", .blob, wholeId (.blob [1]), .FILE, 0⟩,
          ⟨"\uFFFD", .blob, wholeId (.blob [2]), .FILE, 0⟩]))),
        [.blob [1], .blob [2], .tree (Tree.new [⟨"\uFFFD", .blob, wholeId (.blob [1]), .FILE, 0⟩,
          ⟨"\uFFFD", .blob, wholeId (.blob [2]), .FILE, 0⟩])]) ∧
      ∀ log t, ¬Faithful wholeId blobRepo log
        [some (blobNamed [0xfe] 1), some (blobNamed [0xff] 2)] t := by
  refine ⟨rfl, fun log t h => ?_⟩
  cases h.distinguishable with
  | mk hnames hsub => exact absurd hnames (by decide)

end Gitio

end SrcControl
