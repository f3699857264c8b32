import SrcControl.Repo.Ancestry
import SrcControl.Repo.MergeSources
import SrcControl.Repo.Seal

/-!
# Committing a clean merge or replay

A merge of two tips and a replay of one commit resolve three sides with the same engines and
assemble the same policy: the union of the rules, and the wraps that the engine carried or the
sealing made. Whatever was readable in a side stays readable in the result.
-/

namespace SrcControl

open SlashPath TreeEntries Transport Fallible Vfs Merge MergeTree

/-- `merge_secrets`: one name, three versions. -/
def mergeSecret (base ours theirs : BTreeMap String ObjectId) (out : BTreeMap String ObjectId)
    (name : String) : Except Error (BTreeMap String ObjectId) := do
  let b := base[name]?
  let o := ours[name]?
  let t := theirs[name]?
  let resolved ← if o = t then pure o
    else if o = b then pure t
    else if t = b then pure o
    else .error (.secretMergeConflict name)
  match resolved with
  | some id => pure (out.insert name id)
  | none => pure out

def mergeSecrets (base ours theirs : BTreeMap String ObjectId) :
    Except Error (BTreeMap String ObjectId) :=
  (BTreeSet.ofList (base.keys ++ ours.keys ++ theirs.keys)).toList.foldlM
    (mergeSecret base ours theirs) ∅

namespace MergeTree

def Carried.any : Carried → Bool
  | .root _ => true
  | .entries es => !es.isEmpty

/-- `entry(id).or_default()`, then the union with what is there. -/
def addWraps (m src : WrapMap) : WrapMap :=
  src.toList.foldl (fun m e => m.insert e.1 (unionWraps (m.getD e.1 []) e.2)) m

/-- The wraps a merge starts from: all of the inputs' once a subtree was carried unread. -/
def mergedWraps (d : TreeMergeDone) (ours theirs base : Protection) : WrapMap :=
  if Carried.any d.carried then
    [ours, theirs, base].foldl (fun m p => addWraps m p.wrapped) d.merge.wrappedCarry
  else d.merge.wrappedCarry

/-- Fetch the objects a pass asked for. -/
abbrev Filler := Store → List Need → Except Error Store

/-- Pass and fill in turn; an object asked for again was fetched and is still not there. -/
def fillLoop (pass : Store → Except Error TreeMerge) (fill : Filler) :
    Nat → BTreeSet ObjectId → Store → Except Error (Store × TreeMergeDone)
  | 0, _, _ => .error .fuel
  | fuel + 1, asked, store => do
    match ← pass store with
    | .done d => pure (store, d)
    | .needs needs =>
      match needs.find? (fun n => asked.contains n.id) with
      | some n => .error (.protocol ("merge asked again for object " ++ n.id.short ++ " (at " ++
          n.path.quote ++ ") after it was fetched; the object store and its index disagree"))
      | none =>
        let store ← fill store needs
        fillLoop pass fill fuel (needs.foldl (fun s n => s.insert n.id) asked) store

end MergeTree

/-- The clone a merge runs in: its filler when it is partial, the identity, the next draw. -/
structure MergeEnv (crypto : SealCrypto) where
  idOf : Object → ObjectId
  promisor : Option Filler
  identity : Option crypto.SecretKey
  draw : Nat
  fuel : Nat

/-- What an engine hands over: the resolved files with the wraps to start from, what it
carried on a partial clone, and the store it last read. -/
structure Resolved where
  store : Store
  merge : MergeAcc
  carried : Option Carried

def Resolved.carriedAny (r : Resolved) : Bool := r.carried.any Carried.any

/-- A written tree, the objects put for it, and the wraps of what was sealed. -/
structure WrittenTree where
  root : ObjectId
  puts : List Object
  fresh : WrapMap

/-- A clean result: the tree and its policy, with the store before and the objects put. -/
structure CleanMerge where
  store : Store
  puts : List Object
  root : ObjectId
  protection : Protection

inductive ReplayOutcome
  | clean (m : CleanMerge)
  | empty
  | conflicts (merge : MergeAcc) (carried : List (String × TreeEntry))

inductive MergeOutcome
  /-- The branch moves to theirs as it is: adopted, or a fast-forward. -/
  | moved (root : ObjectId) (protection : Protection)
  | merged (m : CleanMerge) (parents : List ObjectId) (secrets : BTreeMap String ObjectId)

def Snapshot.side (s : Snapshot) : Side := (s.root, s.protection)

section Commit

variable {crypto : SealCrypto} (env : MergeEnv crypto)

/-- A partial clone merges tree by tree and fills what it must read; a full clone flattens. -/
def resolve (store : Store) (base : Option Side) (ours theirs : Side) : Except Error Resolved :=
  match env.promisor with
  | some fill => do
    let (store, done) ← fillLoop (fun store =>
      mergeTrees crypto.toPathCrypto env.fuel store base ours theirs env.identity) fill env.fuel ∅
      store
    let wraps := mergedWraps done ours.2 theirs.2 ((base.map (·.2)).getD default)
    pure ⟨store, { done.merge with wrappedCarry := wraps }, some done.carried⟩
  | none => do
    let fm ← threeWayFiles crypto.toPathCrypto env.fuel store base ours theirs env.identity
    pure ⟨store, fm, none⟩

/-- A carried root is the result as it is; carried subtrees are overlaid by id. -/
def writeMerged (all : List SealedFile) : Option Carried → Puts ObjectId
  | some (.root id) => pure id
  | some (.entries es) => writeTreeWithCarried env.idOf all es
  | none => writeTreeWithPerms env.idOf all

/-- Seal what must be sealed and write the merged tree. -/
def writeClean (split : SplitFiles) (carried : Option Carried) : Except Error WrittenTree := do
  let s ← encryptProtected crypto env.idOf env.draw split.toEncrypt
  match (writeMerged env (split.carried ++ s.files) carried).run [] with
  | (.ok root, puts) => pure ⟨root, puts, s.wraps⟩
  | (.error e, _) => .error e

/-- The merged wraps: carried and fresh ones, `ours`' bytes where they still fit, pruned to
the blobs of the merged tree unless a subtree was carried unread. -/
def assembleWraps (r : Resolved) (w : WrittenTree) (ours : Protection) : Except Error WrapMap := do
  let wrapped := reusePriorWraps (addWraps r.merge.wrappedCarry w.fresh) ours.wrapped
  if r.carriedAny then pure wrapped
  else do
    let entries ← treeFileEntriesWithPerms env.fuel (r.store.putAll env.idOf w.puts) w.root
    let reachable := BTreeSet.ofList (entries.toList.map (fun e => e.2.id))
    pure (wrapped.filter (fun id _ => reachable.contains id))

/-- The snapshot a replay takes its delta from. -/
def replayBase (store : Store) (snap : Snapshot) (baseOverride : Option ObjectId) :
    Except Error (Option Snapshot) :=
  (baseOverride.or snap.parents.head?).mapM store.getSnapshot

/-- Replay `commitId` onto a tree and its policy. -/
def replayCommit (store : Store) (commitId : ObjectId) (onto : Side)
    (baseOverride : Option ObjectId) : Except Error ReplayOutcome := do
  let snap ← store.getSnapshot commitId
  if 2 ≤ snap.parents.length ∧ baseOverride = none then
    .error (.cannotReplayMerge commitId ("cannot replay merge commit " ++ commitId.short ++
      "; use --mainline <N> to pick relative to parent N"))
  else do
    let base ← replayBase store snap baseOverride
    let r ← resolve env store (base.map (·.side)) onto snap.side
    if r.merge.conflicts ≠ [] then
      let carried := match r.carried with
        | some (.entries es) => es
        | _ => []
      pure (.conflicts r.merge carried)
    else do
      let prefixes := mergePrefixes onto.2.prefixes snap.protection.prefixes
      let split ← splitForEncryption prefixes r.merge.files
      let w ← writeClean env split r.carried
      let changed := match base with
        | some b => decide (snap.protection.prefixes ≠ b.protection.prefixes)
        | none => decide (snap.protection.prefixes ≠ [])
      if w.root = onto.1 ∧ !changed then pure .empty
      else do
        let wrapped ← assembleWraps env r w onto.2
        pure (.clean ⟨r.store, w.puts, w.root, ⟨prefixes, wrapped⟩⟩)

/-- Merge three snapshots; conflicts end the merge. -/
def mergeSnapshots (store : Store) (base ours theirs : Snapshot) :
    Except Error (CleanMerge × BTreeMap String ObjectId) := do
  let secrets ← mergeSecrets base.secrets ours.secrets theirs.secrets
  let r ← resolve env store (some base.side) ours.side theirs.side
  let prefixes := mergePrefixes ours.protection.prefixes theirs.protection.prefixes
  let split ← splitForEncryption prefixes r.merge.files
  if r.merge.conflicts ≠ [] then .error (.mergeConflicts r.merge.conflicts.length)
  else do
    let w ← writeClean env split r.carried
    let wrapped ← assembleWraps env r w ours.protection
    pure (⟨r.store, w.puts, w.root, ⟨prefixes, wrapped⟩⟩, secrets)

/-- Merge `theirs` into a branch at `ours`, as far as trees and policies go. -/
def mergeWithIdentity (store : Store) (ours : Option ObjectId) (theirs : ObjectId) :
    Except Error MergeOutcome :=
  match ours with
  | none => do
    let snap ← store.getSnapshot theirs
    pure (.moved snap.root snap.protection)
  | some ours => do
    if ← Ancestry.isAncestor env.fuel store theirs ours then .error .upToDate
    else if ← Ancestry.isAncestor env.fuel store ours theirs then do
      let snap ← store.getSnapshot theirs
      pure (.moved snap.root snap.protection)
    else
      match ← Ancestry.mergeBase env.fuel store ours theirs with
      | none => .error .noCommonAncestor
      | some base => do
        let (m, secrets) ← mergeSnapshots env store (← store.getSnapshot base)
          (← store.getSnapshot ours) (← store.getSnapshot theirs)
        pure (.merged m [ours, theirs] secrets)

end Commit

/-! ## Wraps -/

section Wraps

theorem getD_for {m : WrapMap} {id : ObjectId} {rid : String} :
    WrapsFor (m.getD id []) rid ↔ m.For id rid := by
  unfold WrapMap.For
  rw [Std.ExtTreeMap.getD_eq_getD_getElem?]
  cases m[id]? with
  | none => simp [WrapsFor]
  | some wks => simp

theorem addWraps_for {m src : WrapMap} {id : ObjectId} {rid : String} :
    (addWraps m src).For id rid ↔ m.For id rid ∨ src.For id rid := by
  have hsrc : src.For id rid ↔ ∃ e ∈ src.toList, e.1 = id ∧ WrapsFor e.2 rid := by
    constructor
    · rintro ⟨wks, hwks, hfor⟩
      exact ⟨(id, wks), (BTreeMap.mem_toList_iff _ _ _).mpr hwks, rfl, hfor⟩
    · rintro ⟨⟨k, wks⟩, hmem, rfl, hfor⟩
      exact ⟨wks, (BTreeMap.mem_toList_iff _ _ _).mp hmem, hfor⟩
  have hstep : ∀ (m : WrapMap) (e : ObjectId × List WrappedKey),
      WrapMap.For (m.insert e.1 (unionWraps (m.getD e.1 []) e.2)) id rid ↔
        m.For id rid ∨ (e.1 = id ∧ WrapsFor e.2 rid) := by
    intro m e
    by_cases he : e.1 = id
    · have hget : (m.insert e.1 (unionWraps (m.getD e.1 []) e.2))[id]? =
          some (unionWraps (m.getD e.1 []) e.2) := (BTreeMap.getElem?_insert ..).trans (if_pos he)
      rw [WrapMap.For, hget]
      simp [wrapsFor_unionWraps, getD_for, he]
    · have hget : (m.insert e.1 (unionWraps (m.getD e.1 []) e.2))[id]? = m[id]? :=
        (BTreeMap.getElem?_insert ..).trans (if_neg he)
      rw [WrapMap.For, hget]
      simp [WrapMap.For, he]
  rw [hsrc, addWraps]
  clear hsrc
  induction src.toList generalizing m with
  | nil => simp
  | cons e es ih =>
    refine Iff.trans ih ?_
    rw [hstep, or_assoc, List.exists_mem_cons_iff]

/-- Once a subtree was carried unread, every wrap of every input is there. -/
theorem mergedWraps_for {d : TreeMergeDone} {ours theirs base : Protection}
    (h : Carried.any d.carried = true) {id : ObjectId} {rid : String} :
    (mergedWraps d ours theirs base).For id rid ↔ WrapMap.For d.merge.wrappedCarry id rid ∨
      ∃ p ∈ [ours, theirs, base], WrapMap.For p.wrapped id rid := by
  rw [mergedWraps, if_pos h]
  simp [addWraps_for, or_assoc]

theorem fillLoop_ok {pass : Store → Except Error TreeMerge} {fill : Filler} {fuel : Nat}
    {asked : BTreeSet ObjectId} {store store' : Store} {d : TreeMergeDone}
    (h : fillLoop pass fill fuel asked store = .ok (store', d)) : pass store' = .ok (.done d) := by
  induction fuel generalizing asked store with
  | zero => cases h
  | succ fuel ih =>
    obtain ⟨res, hres, h⟩ := bind_ok h
    cases res with
    | done d' =>
      cases h
      exact hres
    | needs ns =>
      simp only at h
      split at h
      · cases h
      · obtain ⟨store₁, -, h⟩ := bind_ok h
        exact ih h

end Wraps

/-! ## What an engine hands over -/

section Resolve

variable {crypto : SealCrypto} {env : MergeEnv crypto} {store full : Store}
  {P : FileEntry → Prop} {prots : List Protection}

/-- Some input policy wraps the blob for the recipient. -/
def Wrapped (prots : List Protection) (id : ObjectId) (rid : String) : Prop :=
  ∃ p ∈ prots, WrapMap.For p.wrapped id rid

/-- The resolved files and the carried part have their protected blobs from `P`, with every
wrap that an input policy has for them. -/
structure ResolvedFrom (full : Store) (P : FileEntry → Prop) (prots : List Protection)
    (r : Resolved) : Prop where
  paths : ∀ f ∈ r.merge.files, NormalPath f.path
  kept : ∀ f ∈ r.merge.files, f.needsEncrypt = false → f.perms &&& PROTECTED ≠ 0 →
    ∃ fe, P fe ∧ fe.perms &&& PROTECTED ≠ 0 ∧ r.store.blobBytes fe.id = .ok f.bytes ∧
      ∀ rid, Wrapped prots fe.id rid → WrapMap.For r.merge.wrappedCarry fe.id rid
  root : ∀ id, r.carried = some (.root id) → ∀ cs fe, Leaf full id cs fe → P fe
  subtrees : ∀ es, r.carried = some (.entries es) → ∀ c ∈ es, NormalPath c.1 ∧
    ∀ ds fe, EntryLeaf full c.2 ds fe → P fe
  unread : r.carriedAny = true → ∀ id rid, Wrapped prots id rid →
    WrapMap.For r.merge.wrappedCarry id rid

theorem known_wraps {acc : MergeAcc} {id : ObjectId}
    (h : knownWraps prots id = [] ∨ acc.wrappedCarry[id]? = some (knownWraps prots id))
    {rid : String} (hw : Wrapped prots id rid) : WrapMap.For acc.wrappedCarry id rid := by
  have hknown := wrapsFor_knownWraps.mpr hw
  rcases h with h | h
  · rw [h] at hknown
    obtain ⟨w, hmem, -⟩ := hknown
    cases hmem
  · exact ⟨_, h, hknown⟩

theorem leaf_of_extends (hext : Extends store full) {root : ObjectId} {cs : List String}
    {fe : FileEntry} (h : Leaf store root cs fe) : Leaf full root cs fe := by
  induction h with
  | blob ht he hk => exact .blob (getTree_of_extends hext ht) he hk
  | tree ht he hk _ ih => exact .tree (getTree_of_extends hext ht) he hk ih

theorem MergeTree.Writable.child {root : ObjectId} (h : Writable store root) {t : Tree} {e : TreeEntry}
    (ht : store.getTree root = .ok t) (he : e ∈ t.entries) (hk : e.kind = .tree) :
    Writable store e.id :=
  fun id t' hn => h id t' ((Node.root.child ht he hk).trans hn)

theorem MergeTree.Writable.leaf {root : ObjectId} (h : Writable store root) {cs : List String}
    {fe : FileEntry} (hl : Leaf store root cs fe) :
    cs ≠ [] ∧ ∀ c ∈ cs, IsName c ∧ c ≠ "." := by
  induction hl with
  | blob ht he hk => simpa using h _ _ .root ht _ he
  | tree ht he hk _ ih =>
    refine ⟨List.cons_ne_nil _ _, fun c hc => ?_⟩
    rcases List.mem_cons.mp hc with rfl | hc
    · exact h _ _ .root ht _ he
    · exact (ih (h.child ht he hk)).2 c hc

/-- Both engines hand over files and subtrees of their inputs. -/
theorem resolve_ok {base : Option Side} {ours theirs : Side} {r : Resolved}
    (h : resolve env store base ours theirs = .ok r) (hext : Extends r.store full)
    (hP : ∀ s ∈ [ours, theirs] ++ base.toList, Writable full s.1 ∧
      ∀ cs fe, Leaf full s.1 cs fe → P fe) :
    ResolvedFrom full P [ours.2, theirs.2, (base.map (·.2)).getD default] r := by
  unfold resolve at h
  cases hprom : env.promisor with
  | none =>
    simp only [hprom] at h
    obtain ⟨fm, hfm, h⟩ := bind_ok h
    cases h
    have hsrc := @threeWayFiles_sourced _ _ P NormalPath _ _ _ _ _ _ (fun s hs cs fe hl => by
      have hl' := leaf_of_extends hext hl
      obtain ⟨hne, hcs⟩ := (hP s hs).1.leaf hl'
      exact ⟨(hP s hs).2 cs fe hl', cs, hne, hcs, rfl⟩) hfm
    exact {
      paths := hsrc.paths
      kept := fun f hf hne hp => by
        obtain ⟨fe, hfe, hperms, hbytes, hknown⟩ := hsrc.carried f hf hne hp
        exact ⟨fe, hfe, hperms, hbytes, fun rid hw => known_wraps hknown hw⟩
      root := fun id hid => by cases hid
      subtrees := fun es hes => by cases hes
      unread := fun hany => by cases hany }
  | some fill =>
    simp only [hprom] at h
    obtain ⟨⟨store', d⟩, hd, h⟩ := bind_ok h
    cases h
    obtain ⟨hsrc, hcarried⟩ := mergeTrees_sourced hext hP (fillLoop_ok hd)
    exact {
      paths := hsrc.paths
      kept := fun f hf hne hp => by
        obtain ⟨fe, hfe, hperms, hbytes, hknown⟩ := hsrc.carried f hf hne hp
        refine ⟨fe, hfe, hperms, hbytes, fun rid hw => ?_⟩
        by_cases hany : Carried.any d.carried = true
        · exact (mergedWraps_for hany).mpr (.inr hw)
        · have hsame : mergedWraps d ours.2 theirs.2 ((base.map (·.2)).getD default) =
              d.merge.wrappedCarry := if_neg hany
          simp only [hsame]
          exact known_wraps hknown hw
      root := fun id hid => by
        rw [Option.some.inj hid] at hcarried
        exact hcarried
      subtrees := fun es hes => by
        rw [Option.some.inj hes] at hcarried
        exact fun c hc => ⟨(hcarried c hc).1, (hcarried c hc).2.leaves⟩
      unread := fun hany id rid hw => (mergedWraps_for hany).mpr (.inr hw) }

end Resolve

/-! ## What the commit keeps -/

section Kept

variable {crypto : SealCrypto} {env : MergeEnv crypto} {store full : Store}
  {P : FileEntry → Prop} {prots : List Protection} {r : Resolved}

/-- The id is the blob of a protected entry of an input tree. -/
def ProtectedBlob (full : Store) (inputs : List Side) (id : ObjectId) : Prop :=
  ∃ s ∈ inputs, ∃ cs fe, Leaf full s.1 cs fe ∧ fe.perms &&& PROTECTED ≠ 0 ∧ fe.id = id

/-- Nobody who could read an input's protected blob loses it, and whatever was sealed anew is
wrapped for all that the rule over its path grants. -/
structure AccessKept (crypto : SealCrypto) (full : Store) (inputs : List Side)
    (rules : List ProtectPrefix) (root : ObjectId) (prot : Protection) : Prop where
  kept : ∀ cs fe, Leaf full root cs fe → fe.perms &&& PROTECTED ≠ 0 →
    ProtectedBlob full inputs fe.id → ∀ rid, (∃ s ∈ inputs, WrapMap.For s.2.wrapped fe.id rid) →
      WrapMap.For prot.wrapped fe.id rid
  granted : ∀ cs fe, Leaf full root cs fe → fe.perms &&& PROTECTED ≠ 0 →
    ¬ ProtectedBlob full inputs fe.id → ∃ rule, matchingPrefix rules (ofNames cs) = some rule ∧
      ∀ key ∈ rule.grantedKeys, WrapMap.For prot.wrapped fe.id (crypto.recipientId key)

/-- Where a clean result stands: ids address their objects, the seals are fresh, and the trees'
names are path components. `full` holds what the result's store holds, and on a partial clone
also what the clone never fetched. -/
structure MergeSetting (env : MergeEnv crypto) (full : Store) (inputs : List Side)
    (m : CleanMerge) : Prop where
  addressed : ∀ id o, m.store.objects[id]? = some o → id = env.idOf o
  unambiguous : Unambiguous env.idOf m.store m.puts
  landed : Extends (m.store.putAll env.idOf m.puts) full
  fresh : FreshSeals crypto env.idOf env.draw (ProtectedBlob full inputs)
  wraps : AddressedWraps crypto
  names : ∀ s ∈ inputs, Writable full s.1

theorem writeClean_ok {split : SplitFiles} {carried : Option Carried} {w : WrittenTree}
    (h : writeClean env split carried = .ok w) :
    ∃ s, encryptProtected crypto env.idOf env.draw split.toEncrypt = .ok s ∧ w.fresh = s.wraps ∧
      (writeMerged env (split.carried ++ s.files) carried).run [] = (.ok w.root, w.puts) := by
  obtain ⟨s, hs, h⟩ := bind_ok h
  refine ⟨s, hs, ?_⟩
  split at h
  · next hrun =>
    cases h
    exact ⟨rfl, hrun⟩
  · cases h

theorem writeMerged_none {all : List SealedFile} :
    writeMerged env all none = writeTreeWithCarried env.idOf all [] :=
  writeTreeWithPerms_eq all

theorem writeMerged_entries {all : List SealedFile} {es : List (String × TreeEntry)} :
    writeMerged env all (some (.entries es)) = writeTreeWithCarried env.idOf all es := rfl

/-- A leaf of the merged tree was carried unread, or is one of the files written. -/
theorem writeMerged_leaf (hr : ResolvedFrom full P prots r) {all : List SealedFile}
    (hf : ∀ f ∈ all, NormalPath f.path) {w : WrittenTree}
    (h : (writeMerged env all r.carried).run [] = (.ok w.root, w.puts))
    (hheld : ∀ o ∈ w.puts, full.get (env.idOf o) = .ok o) {cs : List String} {fe : FileEntry}
    (hl : Leaf full w.root cs fe) :
    (r.carriedAny = true ∧ P fe) ∨ ∃ f ∈ all, f.path = ofNames cs ∧ f.entry env.idOf = fe := by
  cases hc : r.carried with
  | none =>
    rw [hc, writeMerged_none] at h
    rcases writeTree_leaf hf (by simp) h hheld hl with hfile | ⟨c, hmem, -⟩
    · exact .inr hfile
    · cases hmem
  | some carried =>
    rw [hc] at h
    cases carried with
    | root id =>
      have hroot : id = w.root := Except.ok.inj (congrArg Prod.fst h)
      exact .inl ⟨by rw [Resolved.carriedAny, hc]; rfl, hr.root id hc cs fe (hroot ▸ hl)⟩
    | entries es =>
      have hsub := hr.subtrees es hc
      rw [writeMerged_entries] at h
      rcases writeTree_leaf hf (fun c hmem => (hsub c hmem).1) h hheld hl with hfile | hcarry
      · exact .inr hfile
      · obtain ⟨c, hmem, rest, hrest⟩ := hcarry
        refine .inl ⟨?_, (hsub c hmem).2 rest fe hrest⟩
        rw [Resolved.carriedAny, hc]
        cases es with
        | nil => cases hmem
        | cons e es => rfl

/-- With nothing carried, every leaf of the merged tree is found when it is flattened. -/
theorem writeMerged_reachable {all : List SealedFile} (hf : ∀ f ∈ all, NormalPath f.path)
    {w : WrittenTree} (h : (writeMerged env all r.carried).run [] = (.ok w.root, w.puts))
    (hany : r.carriedAny = false) (hext : Extends store full)
    (hheld : ∀ o ∈ w.puts, store.get (env.idOf o) = .ok o) {entries : FileMap}
    (hflat : treeFileEntriesWithPerms env.fuel store w.root = .ok entries) {cs : List String}
    {fe : FileEntry} (hl : Leaf full w.root cs fe) : entries[ofNames cs]? = some fe := by
  have hnone : (writeTreeWithCarried env.idOf all []).run [] = (.ok w.root, w.puts) := by
    cases hc : r.carried with
    | none =>
      rwa [hc, writeMerged_none] at h
    | some carried =>
      rw [hc] at h
      rw [Resolved.carriedAny, hc] at hany
      cases carried with
      | root id => cases hany
      | entries es =>
        cases es with
        | nil => exact h
        | cons e es => cases hany
  have hfull : ∀ o ∈ w.puts, full.get (env.idOf o) = .ok o := fun o ho =>
    Store.get_eq_ok_iff.mpr (hext _ _ (Store.get_eq_ok_iff.mp (hheld o ho)))
  rcases writeTree_leaf_map hf (by simp) hnone hfull hl with hmap | ⟨c, hmem, -⟩
  · exact (writeTree_flattens hf hnone hheld ⟨_, hflat⟩).mpr hmap
  · cases hmem

/-- The pruning keeps every wrap of a blob that the tree holds. -/
theorem assembleWraps_for {w : WrittenTree} {ours : Protection} {wrapped : WrapMap}
    (h : assembleWraps env r w ours = .ok wrapped) {id : ObjectId}
    (hid : r.carriedAny = false → ∀ entries : FileMap,
      treeFileEntriesWithPerms env.fuel (r.store.putAll env.idOf w.puts) w.root = .ok entries →
      ∃ (key : String) (fe : FileEntry), entries[key]? = some fe ∧ fe.id = id) {rid : String} :
    WrapMap.For wrapped id rid ↔
      WrapMap.For r.merge.wrappedCarry id rid ∨ WrapMap.For w.fresh id rid := by
  unfold assembleWraps at h
  simp only at h
  split_ifs at h with hany
  · cases h
    rw [reusePriorWraps_for, addWraps_for]
  · obtain ⟨entries, hflat, h⟩ := bind_ok h
    cases h
    obtain ⟨key, fe, hfe, rfl⟩ := hid (by simpa using hany) entries hflat
    have hmem : (BTreeSet.ofList (entries.toList.map (fun e => e.2.id))).contains fe.id = true := by
      rw [Std.ExtTreeSet.contains_iff_mem, BTreeSet.mem_ofList]
      exact List.mem_map.mpr ⟨(key, fe), (BTreeMap.mem_toList_iff _ _ _).mpr hfe, rfl⟩
    have hkeep : ∀ (m : WrapMap) (keep : ObjectId → List WrappedKey → Bool),
        (∀ wks, keep fe.id wks = true) →
        (WrapMap.For (m.filter keep) fe.id rid ↔ WrapMap.For m fe.id rid) := by
      intro m keep hk
      unfold WrapMap.For
      rw [Std.ExtTreeMap.getElem?_filter']
      cases m[fe.id]? with
      | none => simp
      | some wks => simp [hk]
    rw [hkeep _ _ (fun _ => hmem), reusePriorWraps_for, addWraps_for]

/-- The clean part, from the resolved files on: whatever was readable stays readable. -/
theorem clean_keeps_access {base : Option Side} {ours theirs : Side} {split : SplitFiles}
    {w : WrittenTree} {wrapped : WrapMap} {rules : List ProtectPrefix}
    (hr : resolve env store base ours theirs = .ok r)
    (hsplit : splitForEncryption rules r.merge.files = .ok split)
    (hw : writeClean env split r.carried = .ok w)
    (hwraps : assembleWraps env r w ours.2 = .ok wrapped)
    (hset : MergeSetting env full ([ours, theirs] ++ base.toList)
      ⟨r.store, w.puts, w.root, ⟨rules, wrapped⟩⟩) :
    AccessKept crypto full ([ours, theirs] ++ base.toList) rules w.root ⟨rules, wrapped⟩ := by
  have hput := Store.putAll_extends env.idOf r.store w.puts
  have hres := @resolve_ok crypto env store full
    (fun fe => ∃ s ∈ [ours, theirs] ++ base.toList, ∃ cs, Leaf full s.1 cs fe) base ours theirs r hr
    (hput.trans hset.landed) (fun s hs => ⟨hset.names s hs, fun cs fe hl => ⟨s, hs, cs, hl⟩⟩)
  obtain ⟨s, hseal, hfresh, hrun⟩ := writeClean_ok hw
  have hsealed := encryptProtected_ok hset.fresh hset.wraps hseal
  have hfrom := splitForEncryption_ok hsplit
  have hpaths : ∀ f ∈ split.carried ++ s.files, NormalPath f.path := by
    intro f hf
    rcases List.mem_append.mp hf with hf | hf
    · obtain ⟨g, hg, -, hpath, -⟩ := hfrom.carried f hf
      exact hpath ▸ hres.paths g hg
    · obtain ⟨i, hi, -, -, -, hpath, -⟩ := hsealed.files f hf
      obtain ⟨g, hg, hpath', -⟩ := hfrom.toEncrypt i hi
      exact hpath ▸ hpath' ▸ hres.paths g hg
  have hheld : ∀ o ∈ w.puts, (r.store.putAll env.idOf w.puts).get (env.idOf o) = .ok o :=
    fun o ho => Store.putAll_get hset.unambiguous ho
  have hfull : ∀ o ∈ w.puts, full.get (env.idOf o) = .ok o := fun o ho =>
    Store.get_eq_ok_iff.mpr (hset.landed _ _ (Store.get_eq_ok_iff.mp (hheld o ho)))
  -- every wrap of a leaf's blob that was carried or made is in the result
  have hfor : ∀ cs fe, Leaf full w.root cs fe → ∀ rid, WrapMap.For wrapped fe.id rid ↔
      WrapMap.For r.merge.wrappedCarry fe.id rid ∨ WrapMap.For w.fresh fe.id rid :=
    fun cs fe hl rid => assembleWraps_for hwraps (fun hany entries hflat =>
      ⟨ofNames cs, fe, writeMerged_reachable hpaths hrun hany hset.landed hheld hflat hl, rfl⟩)
  -- a protected leaf is an input's, with its wraps carried, or it was sealed just now
  have hcase : ∀ cs fe, Leaf full w.root cs fe → fe.perms &&& PROTECTED ≠ 0 →
      (ProtectedBlob full ([ours, theirs] ++ base.toList) fe.id ∧
        ∀ rid, Wrapped [ours.2, theirs.2, (base.map (·.2)).getD default] fe.id rid →
          WrapMap.For r.merge.wrappedCarry fe.id rid) ∨
      ∃ g ∈ s.files, g.path = ofNames cs ∧ g.entry env.idOf = fe := by
    intro cs fe hl hp
    rcases writeMerged_leaf hres hpaths hrun hfull hl with ⟨hany, sd, hsd, ds, hl'⟩ | hfile
    · exact .inl ⟨⟨sd, hsd, ds, fe, hl', hp, rfl⟩, hres.unread hany fe.id⟩
    · obtain ⟨g, hg, hpath, rfl⟩ := hfile
      rcases List.mem_append.mp hg with hg | hg
      · obtain ⟨f, hf, hne, -, hbytes, -, hperms⟩ := hfrom.carried g hg
        obtain ⟨hp', -⟩ | ⟨hzero, -⟩ := hperms
        · obtain ⟨fe, ⟨sd, hsd, ds, hl'⟩, hfe, hblob, hwrap⟩ := hres.kept f hf hne hp'
          have hid : fe.id = (g.entry env.idOf).id := by
            rw [Store.blobBytes_eq_ok_iff, Store.get_eq_ok_iff] at hblob
            rw [hset.addressed _ _ hblob, ← hbytes]
            rfl
          exact .inl ⟨⟨sd, hsd, ds, fe, hl', hfe, hid⟩, hid ▸ hwrap⟩
        · exact absurd hp (by simp [SealedFile.entry, hzero])
      · exact .inr ⟨g, hg, hpath, rfl⟩
  refine ⟨fun cs fe hl hp hin rid hwrap => ?_, fun cs fe hl hp hnot => ?_⟩
  · rw [hfor cs fe hl]
    rcases hcase cs fe hl hp with ⟨-, hkept⟩ | ⟨g, hg, -, rfl⟩
    · refine .inl (hkept rid ?_)
      obtain ⟨sd, hsd, hw⟩ := hwrap
      rcases List.mem_append.mp hsd with hsd | hsd
      · exact ⟨sd.2, by rcases List.mem_cons.mp hsd with rfl | hsd <;> simp_all, hw⟩
      · exact ⟨sd.2, by simp [Option.mem_toList.mp hsd], hw⟩
    · obtain ⟨i, hi, k, hk, -, -, -, hbytes, -⟩ := hsealed.files g hg
      refine absurd hin ?_
      rw [SealedFile.entry, hbytes]
      exact hset.fresh.unused k i.bytes hk
  · rcases hcase cs fe hl hp with ⟨hin, -⟩ | ⟨g, hg, hpath, rfl⟩
    · exact absurd hin hnot
    · obtain ⟨i, hi, -, -, -, hpath', -, -, hkeys⟩ := hsealed.files g hg
      obtain ⟨f, -, hfpath, -, rule, hrule, hrec⟩ := hfrom.toEncrypt i hi
      refine ⟨rule, ?_, fun key hkey => (hfor cs _ hl _).mpr (.inr ?_)⟩
      · rw [← hpath, hpath', hfpath, hrule]
      · rw [hfresh]
        exact hkeys key (hrec ▸ hkey)

/-- A clean result of a replay or of a merge, with the sides it was made from and the union of
the two sides' rules. -/
inductive CleanResult (env : MergeEnv crypto) (store : Store) :
    List Side → List ProtectPrefix → CleanMerge → Prop
  | replay {commitId : ObjectId} {onto : Side} {baseOverride : Option ObjectId} {snap : Snapshot}
      {base : Option Snapshot} {m : CleanMerge} : store.getSnapshot commitId = .ok snap →
      replayBase store snap baseOverride = .ok base →
      replayCommit env store commitId onto baseOverride = .ok (.clean m) →
      CleanResult env store ([onto, snap.side] ++ (base.map (·.side)).toList)
        (mergePrefixes onto.2.prefixes snap.protection.prefixes) m
  | merge {ours theirs base : ObjectId} {oursSnap theirsSnap baseSnap : Snapshot} {m : CleanMerge}
      {parents : List ObjectId} {secrets : BTreeMap String ObjectId} :
      store.getSnapshot ours = .ok oursSnap → store.getSnapshot theirs = .ok theirsSnap →
      Ancestry.mergeBase env.fuel store ours theirs = .ok (some base) →
      store.getSnapshot base = .ok baseSnap →
      mergeWithIdentity env store (some ours) theirs = .ok (.merged m parents secrets) →
      CleanResult env store [oursSnap.side, theirsSnap.side, baseSnap.side]
        (mergePrefixes oursSnap.protection.prefixes theirsSnap.protection.prefixes) m

theorem replayCommit_clean {commitId : ObjectId} {onto : Side} {baseOverride : Option ObjectId}
    {snap : Snapshot} {base : Option Snapshot} {m : CleanMerge}
    (hsnap : store.getSnapshot commitId = .ok snap)
    (hbase : replayBase store snap baseOverride = .ok base)
    (h : replayCommit env store commitId onto baseOverride = .ok (.clean m)) :
    ∃ r split w wrapped, resolve env store (base.map (·.side)) onto snap.side = .ok r ∧
      splitForEncryption (mergePrefixes onto.2.prefixes snap.protection.prefixes) r.merge.files =
        .ok split ∧ writeClean env split r.carried = .ok w ∧
      assembleWraps env r w onto.2 = .ok wrapped ∧
      m = ⟨r.store, w.puts, w.root,
        ⟨mergePrefixes onto.2.prefixes snap.protection.prefixes, wrapped⟩⟩ := by
  unfold replayCommit at h
  obtain ⟨snap', hs, h⟩ := bind_ok h
  obtain rfl : snap = snap' := Except.ok.inj (hsnap.symm.trans hs)
  split_ifs at h
  obtain ⟨base', hb, h⟩ := bind_ok h
  obtain rfl : base = base' := Except.ok.inj (hbase.symm.trans hb)
  obtain ⟨r, hr, h⟩ := bind_ok h
  simp only at h
  split_ifs at h
  · cases h
  obtain ⟨split, hsplit, h⟩ := bind_ok h
  obtain ⟨w, hw, h⟩ := bind_ok h
  split_ifs at h
  · cases h
  obtain ⟨wrapped, hwraps, h⟩ := bind_ok h
  cases h
  exact ⟨r, split, w, wrapped, hr, hsplit, hw, hwraps, rfl⟩

theorem mergeSnapshots_ok {base ours theirs : Snapshot} {m : CleanMerge}
    {secrets : BTreeMap String ObjectId}
    (h : mergeSnapshots env store base ours theirs = .ok (m, secrets)) :
    ∃ r split w wrapped, resolve env store (some base.side) ours.side theirs.side = .ok r ∧
      splitForEncryption (mergePrefixes ours.protection.prefixes theirs.protection.prefixes)
        r.merge.files = .ok split ∧ writeClean env split r.carried = .ok w ∧
      assembleWraps env r w ours.protection = .ok wrapped ∧
      m = ⟨r.store, w.puts, w.root,
        ⟨mergePrefixes ours.protection.prefixes theirs.protection.prefixes, wrapped⟩⟩ := by
  unfold mergeSnapshots at h
  obtain ⟨_, -, h⟩ := bind_ok h
  obtain ⟨r, hr, h⟩ := bind_ok h
  obtain ⟨split, hsplit, h⟩ := bind_ok h
  split_ifs at h
  obtain ⟨w, hw, h⟩ := bind_ok h
  obtain ⟨wrapped, hwraps, h⟩ := bind_ok h
  cases h
  exact ⟨r, split, w, wrapped, hr, hsplit, hw, hwraps, rfl⟩

theorem mergeWithIdentity_merged {ours theirs base : ObjectId}
    {oursSnap theirsSnap baseSnap : Snapshot} {m : CleanMerge} {parents : List ObjectId}
    {secrets : BTreeMap String ObjectId} (ho : store.getSnapshot ours = .ok oursSnap)
    (ht : store.getSnapshot theirs = .ok theirsSnap)
    (hb : Ancestry.mergeBase env.fuel store ours theirs = .ok (some base))
    (hbs : store.getSnapshot base = .ok baseSnap)
    (h : mergeWithIdentity env store (some ours) theirs = .ok (.merged m parents secrets)) :
    mergeSnapshots env store baseSnap oursSnap theirsSnap = .ok (m, secrets) := by
  unfold mergeWithIdentity at h
  obtain ⟨_, -, h⟩ := bind_ok h
  split_ifs at h
  obtain ⟨_, -, h⟩ := bind_ok h
  split_ifs at h
  · obtain ⟨_, -, h⟩ := bind_ok h
    cases h
  · rw [hb] at h
    obtain ⟨_, hs, h⟩ := bind_ok h
    cases hs
    obtain ⟨b', hb', h⟩ := bind_ok h
    obtain ⟨o', ho', h⟩ := bind_ok h
    obtain ⟨t', ht', h⟩ := bind_ok h
    obtain ⟨⟨m', secrets'⟩, hm, h⟩ := bind_ok h
    cases h
    rw [hbs] at hb'
    rw [ho] at ho'
    rw [ht] at ht'
    cases hb'
    cases ho'
    cases ht'
    exact hm

/-- No clean result of a merge or a replay takes access away. -/
theorem clean_result_keeps_access {inputs : List Side} {rules : List ProtectPrefix}
    {m : CleanMerge} (h : CleanResult env store inputs rules m)
    (hset : MergeSetting env full inputs m) :
    AccessKept crypto full inputs rules m.root m.protection := by
  cases h with
  | replay hsnap hbase hm =>
    obtain ⟨r, split, w, wrapped, hr, hsplit, hw, hwraps, rfl⟩ := replayCommit_clean hsnap hbase hm
    exact clean_keeps_access hr hsplit hw hwraps hset
  | merge ho ht hb hbs hm =>
    obtain ⟨r, split, w, wrapped, hr, hsplit, hw, hwraps, rfl⟩ :=
      mergeSnapshots_ok (mergeWithIdentity_merged ho ht hb hbs hm)
    exact clean_keeps_access hr hsplit hw hwraps hset

end Kept

/-! ## Inputs -/

/-- Every draw is a run of zeros before the plaintext. -/
def testSealCrypto : SealCrypto where
  SecretKey := Unit
  Dek := Unit
  unwrapDekWith _ _ := none
  decryptPath _ _ := none
  encryptPath b := (b, ())
  encryptPathRandomized i b := (List.replicate i 0 ++ 1 :: b, ())
  wrapDekFor _ _ key := ⟨hexEncode key, key⟩
  recipientId := hexEncode

/-- Blobs and trees by their encoding, snapshots by the number of their parents. -/
def testAddress : Object → ObjectId
  | .snapshot s => ⟨[TAG_SNAPSHOT, UInt8.ofNat s.parents.length]⟩
  | o => TreeBuilder.plainId o

def testEnv : MergeEnv testSealCrypto := ⟨testAddress, none, none, 0, 3⟩

def testRule (pre : String) (key : Bytes) : ProtectPrefix := ⟨pre, [⟨key, 1, .granted⟩]⟩

def testLeaf (name : String) (blob : Bytes) (perms : UInt8) : TreeEntry :=
  ⟨name, .blob, testAddress (.blob blob), .FILE, perms⟩

def testSide (entries : List TreeEntry) (rules : List ProtectPrefix) : Side :=
  (testAddress (.tree ⟨entries⟩), ⟨rules, ∅⟩)

/-- A root commit that adds a plain file. -/
def addsFile (name : String) (rules : List ProtectPrefix) : Snapshot :=
  ⟨testAddress (.tree ⟨[testLeaf name [7] 0]⟩), [], "a", 0, "add", ∅, ⟨rules, ∅⟩⟩

def addsFileObjects (name : String) (rules : List ProtectPrefix) : List Object :=
  [.blob [7], .tree ⟨[testLeaf name [7] 0]⟩, .tree ⟨[]⟩, .snapshot (addsFile name rules)]

def addsFileStore (name : String) (rules : List ProtectPrefix) : Store :=
  Store.putAll testAddress ⟨∅⟩ (addsFileObjects name rules)

/-- The replay of that commit onto an empty tree resolves to the file. -/
def addsFileResolved (name : String) (rules : List ProtectPrefix) : Resolved :=
  ⟨addsFileStore name rules, ⟨[⟨name, .FILE, [7], 0, false⟩], [], [], ∅⟩, none⟩

def sealedLeaf (name : String) : TreeEntry := testLeaf name [1, 7] (PROTECTED ||| RANDOMIZED)

/-- The file, sealed in the first draw, at `name`. -/
def sealedWritten (name : String) (key : Bytes) : WrittenTree :=
  ⟨testAddress (.tree ⟨[sealedLeaf name]⟩), [.blob [1, 7], .tree ⟨[sealedLeaf name]⟩],
    (∅ : WrapMap).insert (testAddress (.blob [1, 7])) [⟨hexEncode key, key⟩]⟩

theorem writeClean_sealed {path name : String} {key : Bytes}
    (hrun : (writeTreeWithPerms testAddress [⟨path, [1, 7], .FILE, PROTECTED ||| RANDOMIZED⟩]).run
        [] = (.ok (testAddress (.tree (Tree.new [sealedLeaf name]))),
          [.blob [1, 7], .tree (Tree.new [sealedLeaf name])])) :
    writeClean testEnv ⟨[], [⟨path, [7], .FILE, [key]⟩]⟩ none = .ok (sealedWritten name key) := by
  have htree : Tree.new [sealedLeaf name] = ⟨[sealedLeaf name]⟩ :=
    Tree.sorted_new_eq (List.pairwise_singleton _ _)
  rw [htree] at hrun
  have hseal : encryptProtected testSealCrypto testEnv.idOf testEnv.draw
      [⟨path, [7], .FILE, [key]⟩] =
      .ok ⟨[⟨path, [1, 7], .FILE, PROTECTED ||| RANDOMIZED⟩], (sealedWritten name key).fresh, 1⟩ :=
    rfl
  have hwrite : (writeMerged testEnv
      ([] ++ [⟨path, [1, 7], .FILE, PROTECTED ||| RANDOMIZED⟩]) none).run [] =
      (.ok (sealedWritten name key).root, (sealedWritten name key).puts) := hrun
  unfold writeClean
  rw [hseal]
  simp only [bind, Except.bind]
  rw [hwrite]
  rfl

/-- The stages of a replay onto an empty tree, joined. -/
theorem replay_sealed {name path : String} {rules onto : List ProtectPrefix} {key : Bytes}
    (hsnap : (addsFileStore name rules).getSnapshot ⟨[TAG_SNAPSHOT, 0]⟩ =
      .ok (addsFile name rules))
    (hr : resolve testEnv (addsFileStore name rules) none (testSide [] onto)
      (addsFile name rules).side = .ok (addsFileResolved name rules))
    (hsplit : splitForEncryption (mergePrefixes onto rules) [⟨name, .FILE, [7], 0, false⟩] =
      .ok ⟨[], [⟨name, [7], .FILE, [key]⟩]⟩)
    (hw : writeClean testEnv ⟨[], [⟨name, [7], .FILE, [key]⟩]⟩ none = .ok (sealedWritten path key))
    (hne : (sealedWritten path key).root ≠ (testSide [] onto).1) {wrapped : WrapMap}
    (hwraps : assembleWraps testEnv (addsFileResolved name rules) (sealedWritten path key)
      ⟨onto, ∅⟩ = .ok wrapped) :
    CleanResult testEnv (addsFileStore name rules) [testSide [] onto, (addsFile name rules).side]
      (mergePrefixes onto rules) ⟨addsFileStore name rules, (sealedWritten path key).puts,
        (sealedWritten path key).root, ⟨mergePrefixes onto rules, wrapped⟩⟩ := by
  refine @CleanResult.replay _ testEnv _ ⟨[TAG_SNAPSHOT, 0]⟩ (testSide [] onto) none
    (addsFile name rules) none _ hsnap rfl ?_
  unfold replayCommit
  rw [hsnap]
  simp only [bind, Except.bind]
  rw [if_neg (by simp [addsFile])]
  simp only [show replayBase (addsFileStore name rules) (addsFile name rules) none = .ok none from
    rfl, Option.map_none]
  rw [hr]
  simp only
  rw [if_neg (by simp [addsFileResolved])]
  simp only [show splitForEncryption (mergePrefixes (testSide [] onto).2.prefixes
    (addsFile name rules).protection.prefixes) (addsFileResolved name rules).merge.files =
    .ok ⟨[], [⟨name, [7], .FILE, [key]⟩]⟩ from hsplit]
  simp only [show writeClean testEnv ⟨[], [⟨name, [7], .FILE, [key]⟩]⟩
    (addsFileResolved name rules).carried = .ok (sealedWritten path key) from hw]
  rw [if_neg (fun h => hne h.1)]
  simp only [show assembleWraps testEnv (addsFileResolved name rules) (sealedWritten path key)
    (testSide [] onto).2 = .ok wrapped from hwraps]
  rfl

theorem addsFile_wraps {name path : String} {rules onto : List ProtectPrefix} {key : Bytes}
    {entries : FileMap}
    (hflat : treeFileEntriesWithPerms testEnv.fuel
      ((addsFileStore name rules).putAll testAddress (sealedWritten path key).puts)
      (sealedWritten path key).root = .ok entries) :
    ∃ wrapped, assembleWraps testEnv (addsFileResolved name rules) (sealedWritten path key)
      ⟨onto, ∅⟩ = .ok wrapped := by
  unfold assembleWraps
  simp only [show (addsFileResolved name rules).carriedAny = false from rfl]
  rw [if_neg (by simp)]
  simp only [show treeFileEntriesWithPerms testEnv.fuel
    ((addsFileResolved name rules).store.putAll testEnv.idOf (sealedWritten path key).puts)
    (sealedWritten path key).root = .ok entries from hflat]
  exact ⟨_, rfl⟩

/-- Neither side of that replay holds a protected file. -/
theorem addsFile_unprotected {full : Store} {name : String} {rules onto : List ProtectPrefix}
    (hempty : full.getTree (testAddress (.tree ⟨[]⟩)) = .ok ⟨[]⟩)
    (hadded : full.getTree (testAddress (.tree ⟨[testLeaf name [7] 0]⟩)) =
      .ok ⟨[testLeaf name [7] 0]⟩) {id : ObjectId} :
    ¬ ProtectedBlob full [testSide [] onto, (addsFile name rules).side] id := by
  rintro ⟨s, hs, cs, fe, hl, hp, -⟩
  rcases List.mem_pair.mp hs with rfl | rfl
  · obtain ⟨e, he, -⟩ := (leaf_iff hempty).mp hl
    cases he
  · obtain ⟨e, he, ds, -, hleaf⟩ := (leaf_iff hadded).mp hl
    obtain rfl := List.mem_singleton.mp he
    rcases hleaf with ⟨-, -, rfl⟩ | ⟨hk, -⟩
    · exact hp zero_unprotected
    · cases hk

/-- A name that is no path component: the file is sealed for the rule over `./x` and written at
`x`, whose rule grants somebody else. -/
theorem dot_name_sealed_for_other :
    ∃ inputs rules m, CleanResult testEnv (addsFileStore "./x" [testRule "./" [1]]) inputs rules m ∧
      ¬ AccessKept testSealCrypto (m.store.putAll testAddress m.puts) inputs rules m.root
        m.protection := by
  have hnorm : normalize "./x" = "x" := by decide +kernel
  have hw : writeClean testEnv ⟨[], [⟨"./x", [7], .FILE, [[1]]⟩]⟩ none =
      .ok (sealedWritten "x" [1]) := by
    refine writeClean_sealed ?_
    unfold writeTreeWithPerms
    rw [List.foldlM_cons, writeFile]
    simp only [hnorm]
    rfl
  obtain ⟨wrapped, hwraps⟩ := @addsFile_wraps "./x" "x" [testRule "./" [1]] [testRule "x" [2]] [1]
    ((∅ : FileMap).insert "x" (fileEntry (sealedLeaf "x"))) rfl
  refine ⟨_, _, _, replay_sealed rfl rfl (by decide) hw (by decide) hwraps, fun hkept => ?_⟩
  have hl : Leaf ((addsFileStore "./x" [testRule "./" [1]]).putAll testAddress
      (sealedWritten "x" [1]).puts) (sealedWritten "x" [1]).root ["x"]
      (fileEntry (sealedLeaf "x")) :=
    @Leaf.blob _ _ ⟨[sealedLeaf "x"]⟩ (sealedLeaf "x") rfl (by simp) rfl
  obtain ⟨rule, hrule, hkeys⟩ := hkept.granted _ _ hl (by decide) (addsFile_unprotected rfl rfl)
  have hgov : matchingPrefix (mergePrefixes [testRule "x" [2]] [testRule "./" [1]])
      (ofNames ["x"]) = some (testRule "x" [2]) := by decide
  obtain rfl := Option.some.inj (hgov.symm.trans hrule)
  have hfor := (assembleWraps_for hwraps (fun _ entries hflat => ⟨"x", fileEntry (sealedLeaf "x"),
    by cases hflat; decide, rfl⟩)).mp (hkeys [2] (by decide))
  rcases hfor with ⟨wks, hwks, -⟩ | ⟨wks, hwks, w, hmem, hrid⟩
  · cases hwks
  · cases ((BTreeMap.getElem?_insert ..).trans (if_pos rfl)).symm.trans hwks
    obtain rfl := List.mem_singleton.mp hmem
    revert hrid
    decide

/-- A revoke: theirs drops the first recipient's wrap of the one protected blob. -/
def revokedStore : Store :=
  let root : Object := .tree ⟨[testLeaf "s" [9] PROTECTED]⟩
  let blob := testAddress (.blob [9])
  let ours : Snapshot := ⟨testAddress root, [], "a", 0, "seal", ∅,
    ⟨[⟨"s", [⟨[1], 1, .granted⟩, ⟨[2], 1, .granted⟩]⟩],
      (∅ : WrapMap).insert blob [⟨"01", [1]⟩, ⟨"02", [2]⟩]⟩⟩
  let theirs : Snapshot := ⟨testAddress root, [testAddress (.snapshot ours)], "a", 0, "revoke", ∅,
    ⟨[⟨"s", [⟨[1], 2, .revoked⟩, ⟨[2], 1, .granted⟩]⟩], (∅ : WrapMap).insert blob [⟨"02", [2]⟩]⟩⟩
  Store.putAll testAddress ⟨∅⟩ [.blob [9], root, .snapshot ours, .snapshot theirs]

/-- A fast-forward takes theirs as it is, with the wraps a revoke removed. -/
theorem fast_forward_drops_wraps : ∃ ours theirs root prot,
    revokedStore.getSnapshot ⟨[TAG_SNAPSHOT, 0]⟩ = .ok ours ∧
    revokedStore.getSnapshot ⟨[TAG_SNAPSHOT, 1]⟩ = .ok theirs ∧
    mergeWithIdentity testEnv revokedStore (some ⟨[TAG_SNAPSHOT, 0]⟩) ⟨[TAG_SNAPSHOT, 1]⟩ =
      .ok (.moved root prot) ∧
    ¬ AccessKept testSealCrypto revokedStore [ours.side, theirs.side, ours.side]
      (mergePrefixes ours.protection.prefixes theirs.protection.prefixes) root prot := by
  refine ⟨_, _, _, _, rfl, rfl, rfl, fun hkept => ?_⟩
  have hl : Leaf revokedStore (testAddress (.tree ⟨[testLeaf "s" [9] PROTECTED]⟩)) ["s"]
      (fileEntry (testLeaf "s" [9] PROTECTED)) :=
    @Leaf.blob _ _ ⟨[testLeaf "s" [9] PROTECTED]⟩ (testLeaf "s" [9] PROTECTED) rfl (by simp) rfl
  obtain ⟨wks, hwks, w, hmem, hrid⟩ := hkept.kept ["s"] _ hl (by decide)
    ⟨_, List.mem_cons_self, ["s"], _, hl, by decide, rfl⟩ "01"
    ⟨_, List.mem_cons_self, _, (BTreeMap.getElem?_insert ..).trans (if_pos rfl), ⟨"01", [1]⟩,
      by simp, rfl⟩
  cases ((BTreeMap.getElem?_insert ..).trans (if_pos rfl)).symm.trans hwks
  obtain rfl := List.mem_singleton.mp hmem
  revert hrid
  decide

/-- Access is lost outside a three-way merge, and at names that are no path components. -/
theorem access_lost :
    (∃ ours theirs root prot,
      revokedStore.getSnapshot ⟨[TAG_SNAPSHOT, 0]⟩ = .ok ours ∧
      revokedStore.getSnapshot ⟨[TAG_SNAPSHOT, 1]⟩ = .ok theirs ∧
      mergeWithIdentity testEnv revokedStore (some ⟨[TAG_SNAPSHOT, 0]⟩) ⟨[TAG_SNAPSHOT, 1]⟩ =
        .ok (.moved root prot) ∧
      ¬ AccessKept testSealCrypto revokedStore [ours.side, theirs.side, ours.side]
        (mergePrefixes ours.protection.prefixes theirs.protection.prefixes) root prot) ∧
    ∃ inputs rules m, CleanResult testEnv (addsFileStore "./x" [testRule "./" [1]]) inputs rules m ∧
      ¬ AccessKept testSealCrypto (m.store.putAll testAddress m.puts) inputs rules m.root
        m.protection :=
  ⟨fast_forward_drops_wraps, dot_name_sealed_for_other⟩

theorem writable_of_blobs {full : Store} {root : ObjectId} {t : Tree}
    (ht : full.getTree root = .ok t)
    (h : ∀ e ∈ t.entries, e.kind = .blob ∧ IsName e.name ∧ e.name ≠ ".") : Writable full root := by
  intro id t' hn ht' e he
  have hroot : id = root := by
    clear ht' he
    induction hn with
    | root => rfl
    | child hn ht₁ he₁ hk ih =>
      obtain rfl := ih
      obtain rfl := Except.ok.inj (ht.symm.trans ht₁)
      rw [(h _ he₁).1] at hk
      cases hk
  obtain rfl := hroot
  obtain rfl := Except.ok.inj (ht.symm.trans ht')
  exact (h e he).2

theorem testSeal_apart (i j : Nat) (a b : Bytes) (hij : i ≠ j) :
    testAddress (.blob (testSealCrypto.encryptPathRandomized i a).1) ≠
      testAddress (.blob (testSealCrypto.encryptPathRandomized j b).1) := by
  intro h
  have hblob : List.replicate i (0 : UInt8) ++ 1 :: a = List.replicate j 0 ++ 1 :: b :=
    List.tail_eq_of_cons_eq (congrArg ObjectId.bytes h)
  clear h
  induction i generalizing j with
  | zero =>
    cases j with
    | zero => exact hij rfl
    | succ j => simp [List.replicate_succ] at hblob
  | succ i ih =>
    cases j with
    | zero => simp [List.replicate_succ] at hblob
    | succ j =>
      simp only [List.replicate_succ, List.cons_append, List.cons.injEq, true_and] at hblob
      exact ih j (fun h => hij (congrArg _ h)) hblob

/-- The replay of a plain file onto a tree with a rule over its path: it comes out sealed for the
key the rule grants. -/
theorem clean_result_keeps_access_sealed : ∃ inputs rules m,
    CleanResult testEnv (addsFileStore "s" []) inputs rules m ∧
      AccessKept testSealCrypto (m.store.putAll testAddress m.puts) inputs rules m.root
        m.protection := by
  have hnorm : normalize "s" = "s" := @normalize_ofNames ["s"] (by decide)
  have hw : writeClean testEnv ⟨[], [⟨"s", [7], .FILE, [[2]]⟩]⟩ none =
      .ok (sealedWritten "s" [2]) := by
    refine writeClean_sealed ?_
    unfold writeTreeWithPerms
    rw [List.foldlM_cons, writeFile]
    simp only [hnorm]
    rfl
  obtain ⟨wrapped, hwraps⟩ := @addsFile_wraps "s" "s" [] [testRule "s" [2]] [2]
    ((∅ : FileMap).insert "s" (fileEntry (sealedLeaf "s"))) rfl
  have hclean := @replay_sealed "s" "s" [] _ _ rfl rfl (by decide) hw (by decide) _ hwraps
  have hheld : ∀ (id : ObjectId) (o : Object), (addsFileStore "s" []).objects[id]? = some o →
      o ∈ addsFileObjects "s" [] ∧ id = testAddress o := by
    intro id o h
    rcases Store.putAll_source h with h | h
    · simp at h
    · exact h
  have hapart : ∀ o ∈ (sealedWritten "s" [2]).puts, ∀ o' ∈ (sealedWritten "s" [2]).puts,
      testAddress o = testAddress o' → o = o' := by decide +kernel
  refine ⟨_, _, _, hclean, clean_result_keeps_access hclean {
    addressed := fun id o h => (hheld id o h).2
    unambiguous := ⟨hapart, fun o ho o' h => ?_⟩
    landed := .refl _
    fresh := ⟨testSeal_apart, fun i a _ => addsFile_unprotected rfl rfl⟩
    wraps := fun _ _ _ => rfl
    names := fun s hs => ?_ }⟩
  · have hdiff : ∀ o ∈ (sealedWritten "s" [2]).puts, ∀ o' ∈ addsFileObjects "s" [],
        testAddress o = testAddress o' → o' = o := by decide +kernel
    exact hdiff o ho o' (hheld _ _ h).1 (hheld _ _ h).2
  · rcases List.mem_pair.mp hs with rfl | rfl
    · exact @writable_of_blobs _ _ ⟨[]⟩ rfl (by simp)
    · exact @writable_of_blobs _ _ ⟨[testLeaf "s" [7] 0]⟩ rfl (by decide)

end SrcControl
