import SrcControl.Repo.MergeTree
import SrcControl.Vfs.WriteTree

/-!
# Where a merge's files come from

Both engines resolve leaves of their input trees only. A file that stays ciphertext is the
blob of a protected input leaf, with every wrap an input policy knows for it; a carried
subtree has only input leaves below it. The tree engine is followed on a store that may lack
objects: what it reads is read alike in any store that extends it.
-/

namespace SrcControl

open SlashPath TreeEntries Transport Fallible Vfs

namespace Merge

/-- What has been collected so far lies at paths of `Q`, and what stays ciphertext is the blob
of a protected entry of `P` whose known wraps are carried. -/
structure Sourced (store : Store) (P : FileEntry → Prop) (Q : String → Prop)
    (prots : List Protection) (acc : MergeAcc) : Prop where
  paths : ∀ f ∈ acc.files, Q f.path
  wraps : ∀ id wks, acc.wrappedCarry[id]? = some wks → wks = knownWraps prots id
  carried : ∀ f ∈ acc.files, f.needsEncrypt = false → f.perms &&& PROTECTED ≠ 0 →
    ∃ fe, P fe ∧ fe.perms &&& PROTECTED ≠ 0 ∧ store.blobBytes fe.id = .ok f.bytes ∧
      (knownWraps prots fe.id = [] ∨ acc.wrappedCarry[fe.id]? = some (knownWraps prots fe.id))

section Paths

variable {crypto : PathCrypto} {store : Store} {P : FileEntry → Prop} {Q : String → Prop}
  {prots : List Protection} {path : String} {mode : FileMode} {acc : MergeAcc}

theorem sourced_empty : Sourced store P Q prots {} :=
  ⟨by simp, by simp, by simp⟩

theorem Sourced.push (h : Sourced store P Q prots acc) {f : MergedFile} (hq : Q f.path)
    (hf : f.needsEncrypt = false → f.perms &&& PROTECTED ≠ 0 →
      ∃ fe, P fe ∧ fe.perms &&& PROTECTED ≠ 0 ∧ store.blobBytes fe.id = .ok f.bytes ∧
        (knownWraps prots fe.id = [] ∨
          acc.wrappedCarry[fe.id]? = some (knownWraps prots fe.id))) :
    Sourced store P Q prots { acc with files := acc.files ++ [f] } where
  paths g hg := by
    rcases List.mem_append.mp hg with hg | hg
    · exact h.paths g hg
    · exact List.mem_singleton.mp hg ▸ hq
  wraps := h.wraps
  carried g hg := by
    rcases List.mem_append.mp hg with hg | hg
    · exact h.carried g hg
    · exact List.mem_singleton.mp hg ▸ hf

theorem Sourced.carry (h : Sourced store P Q prots acc) (id : ObjectId) :
    Sourced store P Q prots
      { acc with wrappedCarry := acc.wrappedCarry.insert id (knownWraps prots id) } where
  paths := h.paths
  wraps id' wks hid := by
    rw [BTreeMap.getElem?_insert] at hid
    split_ifs at hid with he
    · cases hid
      rw [he]
    · exact h.wraps id' wks hid
  carried f hf hne hp := by
    obtain ⟨fe, hfe, hperms, hbytes, hknown⟩ := h.carried f hf hne hp
    refine ⟨fe, hfe, hperms, hbytes, hknown.imp_right (fun hk => ?_)⟩
    rw [BTreeMap.getElem?_insert]
    split_ifs with he
    · rw [he]
    · exact hk

theorem pushFile_sourced {f : MergedFile} (hq : Q f.path)
    (hf : f.needsEncrypt = true ∨ f.perms &&& PROTECTED = 0) :
    Preserves (Sourced store P Q prots) (pushFile f) := by
  refine .modify (fun acc h => h.push hq (fun hne hp => ?_))
  rcases hf with hf | hf
  · rw [hf] at hne
    cases hne
  · exact absurd hf hp

theorem pushConflict_sourced {p : String} :
    Preserves (Sourced store P Q prots) (pushConflict p) :=
  .modify (fun _ h => ⟨h.paths, h.wraps, h.carried⟩)

theorem pushSidecar_sourced {p : String} {b : Bytes} :
    Preserves (Sourced store P Q prots) (pushSidecar p b) :=
  .modify (fun _ h => ⟨h.paths, h.wraps, h.carried⟩)

theorem try_preserves {α : Type} {I : MergeAcc → Prop} (x : Except Error α) :
    Preserves I (try_ x) := by
  cases x with
  | ok a => exact .pure a
  | error e => exact .throw e

theorem mergeContents_sourced (hq : Q path) {perms : UInt8} {needsEncrypt : Bool}
    (hf : needsEncrypt = true ∨ perms &&& PROTECTED = 0) {ob tb bb : Bytes} :
    Preserves (Sourced store P Q prots) (mergeContents path mode perms needsEncrypt ob tb bb) := by
  unfold mergeContents
  split
  · exact .bind (.ite pushConflict_sourced (.pure _)) (fun _ => pushFile_sourced hq hf)
  · exact .bind pushConflict_sourced
      (fun _ => .bind pushSidecar_sourced (fun _ => pushFile_sourced hq hf))

theorem zero_unprotected : (0 : UInt8) &&& PROTECTED = 0 := by decide

theorem takePlain_sourced (hq : Q path) {w : Option FileEntry} :
    Preserves (Sourced store P Q prots) (takePlain store path mode w) := by
  cases w with
  | none => exact .pure _
  | some e =>
    exact .bind (try_preserves _) (fun _ => pushFile_sourced hq (.inr zero_unprotected))

theorem carryKnownWraps_run (h : Sourced store P Q prots acc) (e : FileEntry) :
    ∃ acc', carryKnownWraps prots e acc = .ok () acc' ∧ Sourced store P Q prots acc' ∧
      (e.perms &&& PROTECTED ≠ 0 → knownWraps prots e.id = [] ∨
        acc'.wrappedCarry[e.id]? = some (knownWraps prots e.id)) := by
  unfold carryKnownWraps
  by_cases hp : e.perms &&& PROTECTED ≠ 0
  · by_cases hk : knownWraps prots e.id ≠ []
    · rw [if_pos hp]
      simp only [if_pos hk]
      exact ⟨_, rfl, h.carry e.id,
        fun _ => .inr ((BTreeMap.getElem?_insert ..).trans (if_pos rfl))⟩
    · rw [if_pos hp]
      simp only [if_neg hk]
      exact ⟨acc, rfl, h, fun _ => .inl (not_not.mp hk)⟩
  · rw [if_neg hp]
    exact ⟨acc, rfl, h, fun hp' => absurd hp' hp⟩

theorem takeWinner_sourced (hq : Q path) {w : Option FileEntry} (hw : ∀ e ∈ w, P e) :
    Preserves (Sourced store P Q prots) (takeWinner store path mode prots w) := by
  cases w with
  | none => exact .pure _
  | some e =>
    intro acc hacc
    obtain ⟨acc', hrun, hacc', hknown⟩ := carryKnownWraps_run hacc e
    have hrest : takeWinner store path mode prots (some e) acc =
        (do
          let bytes ← try_ (store.blobBytes e.id)
          pushFile ⟨path, mode, bytes, e.perms, false⟩ : MergeM Unit) acc' := by
      have hbind : takeWinner store path mode prots (some e) =
          carryKnownWraps prots e >>= fun _ => try_ (store.blobBytes e.id) >>= fun bytes =>
            pushFile ⟨path, mode, bytes, e.perms, false⟩ := rfl
      rw [hbind, bind_run, hrun]
    rw [hrest, bind_run]
    cases hb : store.blobBytes e.id with
    | error err => exact hacc'
    | ok bytes =>
      exact hacc'.push hq (fun _ hp => ⟨e, hw e rfl, hp, hb, hknown hp⟩)

theorem mergePlain_sourced (hq : Q path) {b o t : Option FileEntry} :
    Preserves (Sourced store P Q prots) (mergePlain store path b o t) := by
  have hpush : ∀ (mode : FileMode) (bytes : Bytes),
      Preserves (Sourced store P Q prots) (pushFile (plain path mode bytes)) :=
    fun mode bytes => pushFile_sourced hq (.inr zero_unprotected)
  unfold mergePlain
  refine .ite (takePlain_sourced hq) (.ite (takePlain_sourced hq)
    (.ite (takePlain_sourced hq) ?_))
  cases o with
  | none =>
    cases t with
    | none => exact .pure _
    | some te =>
      exact .bind pushConflict_sourced (fun _ => .bind (try_preserves _) (fun _ => hpush _ _))
  | some oe =>
    cases t with
    | none =>
      exact .bind pushConflict_sourced (fun _ => .bind (try_preserves _) (fun _ => hpush _ _))
    | some te =>
      exact .bind (try_preserves _) (fun _ => .bind (try_preserves _) (fun _ =>
        .bind (try_preserves _) (fun _ => mergeContents_sourced hq (.inr zero_unprotected))))

/-- A resolved protected path is marked for sealing unless it has lost its bit. -/
theorem needsEncrypt_or_plain (perms : UInt8) :
    decide (perms &&& PROTECTED ≠ 0) = true ∨ perms &&& PROTECTED &&& PROTECTED = 0 := by
  by_cases h : perms &&& PROTECTED = 0
  · exact .inr (by rw [h]; decide)
  · exact .inl (by simpa using h)

theorem mergeProtected_sourced (hq : Q path) {b o t : Option FileEntry} (ho : ∀ e ∈ o, P e)
    (ht : ∀ e ∈ t, P e) {identity : Option crypto.SecretKey} :
    Preserves (Sourced store P Q prots)
      (mergeProtected crypto store path b o t prots identity) := by
  unfold mergeProtected
  refine .ite (takeWinner_sourced hq ho) (.ite (takeWinner_sourced hq ht)
    (.ite (takeWinner_sourced hq ho) ?_))
  cases o with
  | none =>
    cases t with
    | none => exact .pure _
    | some te =>
      exact .bind pushConflict_sourced (fun _ => .bind (try_preserves _)
        (fun _ => pushFile_sourced hq (needsEncrypt_or_plain te.perms)))
  | some oe =>
    cases t with
    | none =>
      exact .bind pushConflict_sourced (fun _ => .bind (try_preserves _)
        (fun _ => pushFile_sourced hq (needsEncrypt_or_plain oe.perms)))
    | some te =>
      exact .bind (try_preserves _) (fun _ => .bind (try_preserves _) (fun _ =>
        .bind (try_preserves _) (fun _ => mergeContents_sourced hq
          (needsEncrypt_or_plain (oe.perms ||| te.perms)))))

/-- Resolving one path keeps the sources, failing included. -/
theorem mergePath_sourced (hq : Q path) {b o t : Option FileEntry} (ho : ∀ e ∈ o, P e)
    (ht : ∀ e ∈ t, P e) {identity : Option crypto.SecretKey} :
    Preserves (Sourced store P Q prots) (mergePath crypto store path b o t prots identity) :=
  .ite (mergePlain_sourced hq) (mergeProtected_sourced hq ho ht)

end Paths

/-! ## The flatten merge -/

variable {crypto : PathCrypto} {store : Store} {P : FileEntry → Prop} {Q : String → Prop}

/-- Everything a walk inserts is a leaf at the path of its names. -/
theorem walk_leaf {n : Nat} {id : ObjectId} {pre : String} {out m : FileMap}
    (h : walkEntriesWithPerms store n id pre out = .ok m) {key : String} {fe : FileEntry}
    (hk : m[key]? = some fe) :
    out[key]? = some fe ∨ ∃ cs, Leaf store id cs fe ∧ key = cs.foldl join pre := by
  induction n generalizing id pre out m with
  | zero => cases h
  | succ n ih =>
    obtain ⟨t, ht, -⟩ := bind_ok h
    rw [walk_succ ht] at h
    refine foldlM_ok (I := fun acc : FileMap => acc[key]? = some fe → out[key]? = some fe ∨
      ∃ cs, Leaf store id cs fe ∧ key = cs.foldl join pre) ?_ .inl h hk
    intro acc e he acc' hacc hrun hk'
    unfold walkEntry at hrun
    cases hkind : e.kind with
    | blob =>
      rw [hkind] at hrun
      cases hrun
      rw [BTreeMap.getElem?_insert] at hk'
      split_ifs at hk' with hpath
      · cases hk'
        exact .inr ⟨[e.name], .blob ht he hkind, hpath.symm⟩
      · exact hacc hk'
    | tree =>
      rw [hkind] at hrun
      rcases ih hrun hk' with hin | ⟨cs, hl, hkey⟩
      · exact hacc hin
      · exact .inr ⟨e.name :: cs, .tree ht he hkind hl, hkey⟩

/-- The flatten merge has its files from the leaves of its trees. -/
theorem threeWayFiles_sourced {fuel : Nat} {base : Option Side} {ours theirs : Side}
    {identity : Option crypto.SecretKey} {acc : MergeAcc}
    (hP : ∀ s ∈ [ours, theirs] ++ base.toList, ∀ cs fe, Leaf store s.1 cs fe →
      P fe ∧ Q (ofNames cs))
    (h : threeWayFiles crypto fuel store base ours theirs identity = .ok acc) :
    Sourced store P Q [ours.2, theirs.2, (base.map (·.2)).getD default] acc := by
  unfold threeWayFiles at h
  obtain ⟨baseF, hb, h⟩ := bind_ok h
  obtain ⟨oursF, ho, h⟩ := bind_ok h
  obtain ⟨theirsF, ht, h⟩ := bind_ok h
  have hside : ∀ s ∈ [ours, theirs] ++ base.toList, ∀ m : FileMap,
      treeFileEntriesWithPerms fuel store s.1 = .ok m → ∀ (key : String) (fe : FileEntry),
      m[key]? = some fe → P fe ∧ Q key := by
    intro s hs m hm key fe hk
    rcases walk_leaf hm hk with hnone | ⟨cs, hl, rfl⟩
    · simp at hnone
    · exact hP s hs cs fe hl
  have hoF := hside ours (by simp) oursF ho
  have htF := hside theirs (by simp) theirsF ht
  have hbF : ∀ (key : String) (fe : FileEntry), baseF[key]? = some fe → P fe ∧ Q key := by
    cases base with
    | none =>
      cases hb
      simp
    | some b => exact hside b (by simp) baseF hb
  simp only at h
  split at h
  case h_2 => cases h
  rename_i acc' hrun
  obtain ⟨-, -, h⟩ := bind_ok h
  cases h
  refine Preserves.ok (.forM (fun path hpath => ?_)) sourced_empty hrun
  have hq : Q path := by
    rw [BTreeSet.mem_toList_ofList] at hpath
    rcases List.mem_append.mp hpath with hpath | hpath
    · rcases List.mem_append.mp hpath with hpath | hpath
      · obtain ⟨fe, hfe⟩ := (BTreeMap.mem_keys_iff _ _).mp hpath
        exact (hbF path fe hfe).2
      · obtain ⟨fe, hfe⟩ := (BTreeMap.mem_keys_iff _ _).mp hpath
        exact (hoF path fe hfe).2
    · obtain ⟨fe, hfe⟩ := (BTreeMap.mem_keys_iff _ _).mp hpath
      exact (htF path fe hfe).2
  exact mergePath_sourced hq (fun e he => (hoF path e he).1) (fun e he => (htF path e he).1)

end Merge

/-! ## The tree merge -/

namespace MergeTree

open Merge

variable {crypto : PathCrypto} {store full : Store} {P : FileEntry → Prop}
  {ctx : Context crypto} {ents : Three TreeEntry} {w w' : Walk} {path : String}

/-- A directory path, the root included. -/
def DirPath (p : String) : Prop := ∃ cs, (∀ c ∈ cs, IsName c ∧ c ≠ ".") ∧ p = ofNames cs

theorem DirPath.join {p : String} (h : DirPath p) {name : String}
    (hn : IsName name ∧ name ≠ ".") : NormalPath (join p name) := by
  obtain ⟨cs, hcs, rfl⟩ := h
  refine ⟨cs ++ [name], by simp, fun c hc => ?_, (ofNames_append_singleton cs name).symm⟩
  rcases List.mem_append.mp hc with hc | hc
  · exact hcs c hc
  · exact List.mem_singleton.mp hc ▸ hn

theorem dirPath_of_normal {p : String} (h : NormalPath p) : DirPath p := by
  obtain ⟨cs, -, hcs, rfl⟩ := h
  exact ⟨cs, hcs, rfl⟩

/-- Every name below `root` is one a tree writer places. -/
def Writable (store : Store) (root : ObjectId) : Prop :=
  ∀ id t, Node store root id → store.getTree id = .ok t → ∀ e ∈ t.entries,
    IsName e.name ∧ e.name ≠ "."

/-- Every leaf of the entry is in `P`, at a path a tree writer places. -/
structure Within (full : Store) (P : FileEntry → Prop) (e : TreeEntry) : Prop where
  leaves : ∀ ds fe, EntryLeaf full e ds fe → P fe
  writable : e.kind = .tree → Writable full e.id

theorem Within.blob {e : TreeEntry} (h : Within full P e) (hk : e.kind = .blob) :
    P (fileEntry e) := h.leaves [] _ (.inl ⟨hk, rfl, rfl⟩)

theorem Within.child {e : TreeEntry} (h : Within full P e) (hk : e.kind = .tree) {t : Tree}
    (ht : full.getTree e.id = .ok t) {c : TreeEntry} (hc : c ∈ t.entries) :
    (IsName c.name ∧ c.name ≠ ".") ∧ Within full P c := by
  have hw := h.writable hk
  refine ⟨hw _ t .root ht c hc, fun ds fe hl => ?_, fun hck id t' hn => ?_⟩
  · exact h.leaves (c.name :: ds) fe (.inr ⟨hk, (leaf_iff ht).mpr ⟨c, hc, ds, rfl, hl⟩⟩)
  · exact hw id t' ((Node.root.child ht hc hck).trans hn)

theorem getTree_of_extends (hext : Extends store full) {id : ObjectId} {t : Tree}
    (h : store.getTree id = .ok t) : full.getTree id = .ok t := by
  rw [Store.getTree_eq_ok_iff, Store.get_eq_ok_iff] at h ⊢
  exact hext _ _ h

/-- What the walk has collected comes from `P`, and what it carries lies within it. -/
structure WalkSourced (store full : Store) (P : FileEntry → Prop) (prots : List Protection)
    (w : Walk) : Prop where
  acc : Sourced store P NormalPath prots w.acc
  carried : ∀ c ∈ w.carried, NormalPath c.1 ∧ Within full P c.2
  root : ∀ id, w.carriedRoot = some id → ∀ ds fe, Leaf full id ds fe → P fe

theorem WalkSourced.need (h : WalkSourced store full P ctx.prots w) (id : ObjectId) (p : String)
    (tree : Bool) : WalkSourced store full P ctx.prots (w.need id p tree) := by
  unfold Walk.need
  split_ifs
  · exact h
  · exact ⟨h.acc, h.carried, h.root⟩

theorem WalkSourced.carry (h : WalkSourced store full P ctx.prots w) {p : String}
    (hp : DirPath p) {e : TreeEntry} (hk : e.kind = .tree) (he : Within full P e) :
    WalkSourced store full P ctx.prots (carry w p e) := by
  unfold MergeTree.carry
  split_ifs with hroot
  · refine ⟨h.acc, h.carried, fun id hid ds fe hl => ?_⟩
    cases hid
    exact he.leaves ds fe (.inr ⟨hk, hl⟩)
  · refine ⟨h.acc, fun c hc => ?_, h.root⟩
    rcases List.mem_append.mp hc with hc | hc
    · exact h.carried c hc
    · obtain rfl := List.mem_singleton.mp hc
      obtain ⟨cs, hcs, rfl⟩ := hp
      have hne : cs ≠ [] := by
        rintro rfl
        exact hroot rfl
      exact ⟨⟨cs, hne, hcs, rfl⟩, he.leaves, he.writable⟩

theorem visitLeaf_sourced (hw : WalkSourced store full P ctx.prots w) (hp : NormalPath path)
    {leaf : Three FileEntry} (ho : ∀ e ∈ leaf.o, P e) (ht : ∀ e ∈ leaf.t, P e)
    (h : visitLeaf ctx store path leaf w = .ok w') : WalkSourced store full P ctx.prots w' := by
  have hkeep := @mergePath_sourced crypto store P NormalPath ctx.prots path hp leaf.b leaf.o leaf.t
    ho ht ctx.identity
  unfold visitLeaf at h
  split at h
  · next hrun =>
    cases h
    exact ⟨hkeep.ok hw.acc hrun, hw.carried, hw.root⟩
  · next hrun =>
    cases h
    have hacc := hkeep.error hw.acc hrun
    exact WalkSourced.need (w := { w with acc := _ }) ⟨hacc, hw.carried, hw.root⟩ _ _ _
  · cases h

/-- A flattened side: entries of `P` at paths a tree writer places. -/
def SideSourced (P : FileEntry → Prop) (m : FileMap) : Prop :=
  ∀ (k : String) (fe : FileEntry), m[k]? = some fe → P fe ∧ NormalPath k

theorem sideSourced_empty : SideSourced P ∅ := by
  intro k fe h
  simp at h

theorem SideSourced.insert {m : FileMap} (h : SideSourced P m) {k : String} (hk : NormalPath k)
    {fe : FileEntry} (hfe : P fe) : SideSourced P (m.insert k fe) := by
  intro k' fe' h'
  rw [BTreeMap.getElem?_insert] at h'
  split_ifs at h' with he
  · cases h'
    exact ⟨hfe, he ▸ hk⟩
  · exact h k' fe' h'

/-- A subtree waiting on the stack. -/
structure Waiting (full : Store) (P : FileEntry → Prop) (s : ObjectId × String) : Prop where
  dir : DirPath s.2
  within : ∀ name, Within full P ⟨name, .tree, s.1, .FILE, 0⟩

theorem Within.waiting {e : TreeEntry} (h : Within full P e) (hk : e.kind = .tree) {p : String}
    (hp : DirPath p) : Waiting full P (e.id, p) where
  dir := hp
  within name := by
    refine ⟨fun ds fe hl => h.leaves ds fe (.inr ⟨hk, ?_⟩), fun _ => h.writable hk⟩
    rcases hl with ⟨hk', -⟩ | ⟨-, hl⟩
    · cases hk'
    · exact hl

theorem flattenEntries_sourced {p : String} (hp : DirPath p) {entries : List TreeEntry}
    (he : ∀ e ∈ entries, (IsName e.name ∧ e.name ≠ ".") ∧ Within full P e)
    {stack stack' : List (ObjectId × String)} (hstack : ∀ s ∈ stack, Waiting full P s)
    {out out' : FileMap} (hout : SideSourced P out)
    (h : flattenEntries p entries stack out = (stack', out')) :
    (∀ s ∈ stack', Waiting full P s) ∧ SideSourced P out' := by
  unfold flattenEntries at h
  induction entries generalizing stack out with
  | nil =>
    cases h
    exact ⟨hstack, hout⟩
  | cons e entries ih =>
    obtain ⟨hn, hwithin⟩ := he e List.mem_cons_self
    have hrest := fun e' h' => he e' (List.mem_cons_of_mem e h')
    have hpath := hp.join hn
    rw [List.foldl_cons] at h
    cases hk : e.kind with
    | blob =>
      simp only [hk] at h
      exact ih hrest hstack (hout.insert hpath (hwithin.blob hk)) h
    | tree =>
      simp only [hk] at h
      refine ih hrest (fun s hs => ?_) hout h
      rcases List.mem_cons.mp hs with rfl | hs
      · exact hwithin.waiting hk (dirPath_of_normal hpath)
      · exact hstack s hs

theorem flattenPresent_sourced (hext : Extends store full) {fuel : Nat}
    {stack : List (ObjectId × String)} (hstack : ∀ s ∈ stack, Waiting full P s)
    {out m : FileMap} (hout : SideSourced P out) (hw : WalkSourced store full P ctx.prots w)
    (h : flattenPresent store fuel stack out w = .ok (m, w')) :
    SideSourced P m ∧ WalkSourced store full P ctx.prots w' := by
  induction fuel generalizing stack out w with
  | zero => cases h
  | succ fuel ih =>
    cases stack with
    | nil =>
      cases h
      exact ⟨hout, hw⟩
    | cons s stack =>
      obtain ⟨id, p⟩ := s
      have hs := hstack _ List.mem_cons_self
      have hrest := fun s h => hstack s (List.mem_cons_of_mem _ h)
      unfold flattenPresent at h
      split_ifs at h
      · obtain ⟨t, ht, h⟩ := bind_ok h
        have hfull := getTree_of_extends hext ht
        have hent : ∀ e ∈ t.entries, (IsName e.name ∧ e.name ≠ ".") ∧ Within full P e :=
          fun e he => (hs.within "").child rfl hfull he
        cases hrun : flattenEntries p t.entries stack out with
        | mk stack' out' =>
          obtain ⟨hstack', hout'⟩ := flattenEntries_sourced hs.dir hent hrest hout hrun
          simp only [hrun] at h
          exact ih hstack' hout' hw h
      · exact ih hrest hout (hw.need id p true) h

theorem mixedSide_sourced (hext : Extends store full) {fuel : Nat} (hp : NormalPath path)
    {e : Option TreeEntry} (he : ∀ x ∈ e, Within full P x) {m : FileMap}
    (hw : WalkSourced store full P ctx.prots w)
    (h : mixedSide store fuel path e w = .ok (m, w')) :
    SideSourced P m ∧ WalkSourced store full P ctx.prots w' := by
  cases e with
  | none =>
    cases h
    exact ⟨sideSourced_empty, hw⟩
  | some x =>
    have hx := he x rfl
    unfold mixedSide at h
    cases hk : x.kind with
    | blob =>
      simp only [hk] at h
      cases h
      exact ⟨sideSourced_empty.insert hp (hx.blob hk), hw⟩
    | tree =>
      simp only [hk] at h
      refine flattenPresent_sourced hext (fun s hs => ?_) sideSourced_empty hw h
      obtain rfl := List.mem_singleton.mp hs
      exact hx.waiting hk (dirPath_of_normal hp)

theorem mem_present_iff {α : Type} {x : Three α} {a : α} :
    a ∈ x.present ↔ a ∈ x.b ∨ a ∈ x.o ∨ a ∈ x.t := by
  simp [Three.present, List.reduceOption_mem_iff, Option.mem_def, eq_comm]

theorem enumerateMixed_sourced (hext : Extends store full) {fuel : Nat} (hp : NormalPath path)
    (hents : ∀ e ∈ ents.present, Within full P e) (hw : WalkSourced store full P ctx.prots w)
    (h : enumerateMixed ctx store fuel path ents w = .ok w') :
    WalkSourced store full P ctx.prots w' := by
  unfold enumerateMixed at h
  obtain ⟨⟨bm, wb⟩, hb, h⟩ := bind_ok h
  obtain ⟨hbm, hwb⟩ := mixedSide_sourced hext hp
    (fun x hx => hents x (mem_present_iff.mpr (.inl hx))) hw hb
  obtain ⟨⟨om, wo⟩, ho, h⟩ := bind_ok h
  obtain ⟨hom, hwo⟩ := mixedSide_sourced hext hp
    (fun x hx => hents x (mem_present_iff.mpr (.inr (.inl hx)))) hwb ho
  obtain ⟨⟨tm, wt⟩, ht, h⟩ := bind_ok h
  obtain ⟨htm, hwt⟩ := mixedSide_sourced hext hp
    (fun x hx => hents x (mem_present_iff.mpr (.inr (.inr hx)))) hwo ht
  refine foldlM_ok (fun w p hmem w' hw hrun => ?_) hwt h
  have hpath : NormalPath p := by
    rw [BTreeSet.mem_toList_ofList] at hmem
    simp only [List.mem_append, BTreeMap.mem_keys_iff] at hmem
    rcases hmem with (⟨fe, hfe⟩ | ⟨fe, hfe⟩) | ⟨fe, hfe⟩
    · exact (hbm p fe hfe).2
    · exact (hom p fe hfe).2
    · exact (htm p fe hfe).2
  exact visitLeaf_sourced hw hpath (fun e he => (hom p e he).1) (fun e he => (htm p e he).1) hrun

/-- Visiting a name keeps the sources, when visiting three trees does. -/
theorem visit_sourced (hext : Extends store full) {fuel : Nat}
    {node : String → Three TreeEntry → Walk → Except Error Walk}
    (hnode : ∀ w w', (∀ e ∈ ents.present, e.kind = .tree) → node path ents w = .ok w' →
      WalkSourced store full P ctx.prots w → WalkSourced store full P ctx.prots w')
    (hp : NormalPath path) (hents : ∀ e ∈ ents.present, Within full P e)
    (hw : WalkSourced store full P ctx.prots w)
    (h : visit ctx store fuel node path ents w = .ok w') :
    WalkSourced store full P ctx.prots w' := by
  unfold visit at h
  split_ifs at h with hblob htree
  · rw [List.all_eq_true] at hblob
    have hside : ∀ x : Option TreeEntry, (∀ e ∈ x, e ∈ ents.present) →
        ∀ fe ∈ x.map fileEntry, P fe := by
      intro x hx fe hfe
      obtain ⟨e, he, rfl⟩ := Option.map_eq_some_iff.mp hfe
      exact (hents e (hx e he)).blob (by simpa using hblob e (hx e he))
    exact visitLeaf_sourced hw hp
      (hside ents.o (fun e he => mem_present_iff.mpr (.inr (.inl he))))
      (hside ents.t (fun e he => mem_present_iff.mpr (.inr (.inr he)))) h
  · rw [List.all_eq_true] at htree
    exact hnode w w' (fun e he => by simpa using htree e he) h hw
  · exact enumerateMixed_sourced hext hp hents hw h

theorem mapM_ok_iff {α β : Type} {f : α → Except Error β} {x : Option α} {y : Option β}
    (h : x.mapM f = .ok y) : ∀ b ∈ y, ∃ a ∈ x, f a = .ok b := by
  cases x with
  | none =>
    cases h
    simp
  | some a =>
    rw [Option.mapM_some] at h
    obtain ⟨b, hb, h⟩ := bind_ok h
    cases h
    intro c hc
    cases hc
    exact ⟨a, rfl, hb⟩

/-- Every entry that one of the read trees holds is within the inputs. -/
theorem kids_within (hext : Extends store full) {trees : Three Tree}
    (hents : ∀ e ∈ ents.present, Within full P e) (hk : ∀ e ∈ ents.present, e.kind = .tree)
    (h : ents.mapM (fun e => store.getTree e.id) = .ok trees) :
    ∀ t ∈ trees.present, ∀ c ∈ t.entries, (IsName c.name ∧ c.name ≠ ".") ∧ Within full P c := by
  obtain ⟨b, hb, h⟩ := bind_ok h
  obtain ⟨o, ho, h⟩ := bind_ok h
  obtain ⟨t, ht, h⟩ := bind_ok h
  cases h
  have hside : ∀ {x : Option TreeEntry} {y : Option Tree},
      x.mapM (fun e => store.getTree e.id) = .ok y → (∀ e ∈ x, e ∈ ents.present) →
      ∀ t ∈ y, ∀ c ∈ t.entries, (IsName c.name ∧ c.name ≠ ".") ∧ Within full P c := by
    intro x y hxy hx t ht c hc
    obtain ⟨e, he, hget⟩ := mapM_ok_iff hxy t ht
    exact (hents e (hx e he)).child (hk e (hx e he)) (getTree_of_extends hext hget) hc
  intro u hu
  rcases mem_present_iff.mp hu with hu | hu | hu
  · exact hside hb (fun e he => mem_present_iff.mpr (.inl he)) u hu
  · exact hside ho (fun e he => mem_present_iff.mpr (.inr (.inl he))) u hu
  · exact hside ht (fun e he => mem_present_iff.mpr (.inr (.inr he))) u hu

theorem mem_of_get {t : Tree} {name : String} {c : TreeEntry} (h : t.get name = some c) :
    c ∈ t.entries :=
  (BinarySearch.search_sound h).1

/-- Visiting three trees keeps the sources. -/
theorem treeNode_sourced (hext : Extends store full) {fuel : Nat} (hp : DirPath path)
    (hents : ∀ e ∈ ents.present, Within full P e) (hk : ∀ e ∈ ents.present, e.kind = .tree)
    (hw : WalkSourced store full P ctx.prots w)
    (h : treeNode ctx store fuel path ents w = .ok w') :
    WalkSourced store full P ctx.prots w' := by
  induction fuel generalizing path ents w w' with
  | zero => cases h
  | succ fuel ih =>
    have hread : ∀ w', descend store (visit ctx store fuel (treeNode ctx store fuel)) path ents w =
        .ok w' → WalkSourced store full P ctx.prots w' := by
      intro w' hrun
      unfold descend at hrun
      simp only at hrun
      split_ifs at hrun with habsent
      · cases hrun
        have hneeds : ∀ (es : List TreeEntry) (w : Walk), WalkSourced store full P ctx.prots w →
            WalkSourced store full P ctx.prots
              (es.foldl (fun w e => w.need e.id path (e.kind = .tree)) w) := by
          intro es
          induction es with
          | nil => exact fun w hw => hw
          | cons e es ihes => exact fun w hw => ihes _ (hw.need _ _ _)
        exact hneeds _ w hw
      · obtain ⟨trees, htrees, hrun⟩ := bind_ok hrun
        have hkids := kids_within hext hents hk htrees
        refine foldlM_ok (fun w name hname w' hw hstep => ?_) hw hrun
        rw [BTreeSet.mem_toList_ofList, List.mem_flatMap] at hname
        obtain ⟨t, ht, hname⟩ := hname
        obtain ⟨c, hc, rfl⟩ := List.mem_map.mp hname
        have hpath := hp.join (hkids t ht c hc).1
        have hpresent : ∀ e ∈ (trees.bind (·.get c.name)).present, Within full P e := by
          intro e he
          have hside : ∀ x : Option Tree, (∀ t ∈ x, t ∈ trees.present) →
              e ∈ x.bind (·.get c.name) → Within full P e := by
            intro x hx hex
            obtain ⟨t, ht, hget⟩ := Option.bind_eq_some_iff.mp hex
            exact (hkids t (hx t ht) e (mem_of_get hget)).2
          rcases mem_present_iff.mp he with he | he | he
          · exact hside _ (fun t ht => mem_present_iff.mpr (.inl ht)) he
          · exact hside _ (fun t ht => mem_present_iff.mpr (.inr (.inl ht))) he
          · exact hside _ (fun t ht => mem_present_iff.mpr (.inr (.inr ht))) he
        exact visit_sourced hext
          (fun w w' hk' hrun hw => ih (dirPath_of_normal hpath) hpresent hk' hw hrun)
          hpath hpresent hw hstep
    unfold treeNode at h
    simp only at h
    split at h
    · cases h
      exact hw
    · next entry hfrom =>
      split_ifs at h
      · cases h
        have hmem : entry ∈ ents.present := by
          unfold carryFrom at hfrom
          simp only at hfrom
          split_ifs at hfrom
          · exact mem_present_iff.mpr (.inr (.inl (Option.some.inj hfrom)))
          · exact mem_present_iff.mpr (.inr (.inr (Option.some.inj hfrom)))
        exact hw.carry hp (hk entry hmem) (hents entry hmem)
      · exact hread w' h
    · exact hread w' h

/-- What a finished tree merge holds comes from the leaves of its trees. -/
theorem mergeTrees_sourced (hext : Extends store full) {fuel : Nat} {base : Option Side}
    {ours theirs : Side} {identity : Option crypto.SecretKey} {d : TreeMergeDone}
    (hP : ∀ s ∈ [ours, theirs] ++ base.toList, Writable full s.1 ∧
      ∀ cs fe, Leaf full s.1 cs fe → P fe)
    (h : mergeTrees crypto fuel store base ours theirs identity = .ok (.done d)) :
    Sourced store P NormalPath [ours.2, theirs.2, (base.map (·.2)).getD default] d.merge ∧
      match d.carried with
      | .root id => ∀ cs fe, Leaf full id cs fe → P fe
      | .entries es => ∀ c ∈ es, NormalPath c.1 ∧ Within full P c.2 := by
  unfold mergeTrees at h
  simp only at h
  obtain ⟨w, hrun, h⟩ := bind_ok h
  have hroot : ∀ s ∈ [ours, theirs] ++ base.toList, Within full P (rootEntry s.1) := by
    intro s hs
    obtain ⟨hwrite, hleaf⟩ := hP s hs
    refine ⟨fun ds fe hl => ?_, fun _ => hwrite⟩
    rcases hl with ⟨hk, -⟩ | ⟨-, hl⟩
    · cases hk
    · exact hleaf ds fe hl
  have hents : ∀ e ∈ (⟨base.map (fun b => rootEntry b.1), some (rootEntry ours.1),
      some (rootEntry theirs.1)⟩ : Three TreeEntry).present, ∃ s ∈ [ours, theirs] ++ base.toList,
      e = rootEntry s.1 := by
    intro e he
    rcases mem_present_iff.mp he with he | he | he
    · obtain ⟨b, hb, rfl⟩ := Option.map_eq_some_iff.mp he
      exact ⟨b, by simp [hb], rfl⟩
    · cases he
      exact ⟨ours, by simp, rfl⟩
    · cases he
      exact ⟨theirs, by simp, rfl⟩
  have hw := treeNode_sourced hext ⟨[], by simp, rfl⟩
    (fun e he => by obtain ⟨s, hs, rfl⟩ := hents e he; exact hroot s hs)
    (fun e he => by obtain ⟨s, hs, rfl⟩ := hents e he; rfl)
    ⟨sourced_empty, by simp, by simp⟩ hrun
  split_ifs at h with hneeds
  · cases h
  · obtain ⟨-, -, h⟩ := bind_ok h
    cases h
    refine ⟨hw.acc, ?_⟩
    cases hcr : w.carriedRoot with
    | some id => exact hw.root id hcr
    | none => exact hw.carried

end MergeTree

end SrcControl
