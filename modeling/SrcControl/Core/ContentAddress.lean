import SrcControl.Core.CodecExact

/-!
# The encoding as a content address

An object's encoding is read back as the object with its unordered lists sorted, so two
objects with one encoding are the same up to that order. In the other direction `decode`
is slack: bytes may stand behind the last field and rows come in any order. Which byte
strings it gives their own address back is settled exactly.
-/

namespace SrcControl

/-! ## Sorting -/

theorem perm_of_mergeSort_eq {α : Type} {le : α → α → Bool} {xs ys : List α}
    (h : xs.mergeSort le = ys.mergeSort le) : xs.Perm ys :=
  ((List.mergeSort_perm xs le).symm.trans (h ▸ List.Perm.refl _)).trans (List.mergeSort_perm ys le)

theorem sortIds_sorted (ids : List ObjectId) :
    (sortIds ids).Pairwise (fun a b => (compare a b).isLE = true) :=
  pairwise_mergeSort_key (fun i : ObjectId => i) ids

theorem sortIds_of_sorted {ids : List ObjectId}
    (h : ids.Pairwise (fun a b => (compare a b).isLE = true)) : sortIds ids = ids :=
  List.mergeSort_of_pairwise h

theorem sortRecipients_of_sorted {rs : List RecipientEntry}
    (h : rs.Pairwise (fun a b => (compare a.key b.key).isLE = true)) : sortRecipients rs = rs :=
  List.mergeSort_of_pairwise h

/-- Rules by prefix, each with its registers by key. -/
structure RulesSorted (ps : List ProtectPrefix) : Prop where
  prefixes : ps.Pairwise (fun a b => (compare a.pathPrefix b.pathPrefix).isLE = true)
  keys : ∀ p ∈ ps, p.recipients.Pairwise (fun a b => (compare a.key b.key).isLE = true)

theorem sortRules_sorted (ps : List ProtectPrefix) : RulesSorted (sortRules ps) where
  prefixes := List.pairwise_map.mpr (pairwise_mergeSort_key ProtectPrefix.pathPrefix ps)
  keys p hp := by
    obtain ⟨q, -, rfl⟩ := List.mem_map.mp hp
    exact pairwise_mergeSort_key RecipientEntry.key q.recipients

theorem sortRules_of_sorted {ps : List ProtectPrefix} (h : RulesSorted ps) : sortRules ps = ps := by
  rw [sortRules, List.mergeSort_of_pairwise h.prefixes]
  refine (List.map_congr_left fun p hp => ?_).trans (List.map_id ps)
  rw [sortRecipients_of_sorted (h.keys p hp)]
  rfl

/-! ## Equality up to the order of unordered lists -/

/-- The same rules over the same registers, in some order. -/
def SameRules (ps qs : List ProtectPrefix) : Prop :=
  ∃ ps' qs', ps'.Perm ps ∧ qs'.Perm qs ∧ List.Forall₂ (fun p q : ProtectPrefix =>
    p.pathPrefix = q.pathPrefix ∧ p.recipients.Perm q.recipients) ps' qs'

/-- Equality up to the sorting of prefixes, recipients, anchors and closure. -/
def Object.SameUpToOrder : Object → Object → Prop
  | .snapshot s, .snapshot t => s.root = t.root ∧ s.parents = t.parents ∧ s.author = t.author ∧
      s.timestamp = t.timestamp ∧ s.message = t.message ∧ s.secrets = t.secrets ∧
      SameRules s.protection.prefixes t.protection.prefixes ∧
      s.protection.wrapped = t.protection.wrapped
  | .manifest m, .manifest n => m.base = n.base ∧ m.prev = n.prev ∧ m.anchors.Perm n.anchors ∧
      m.closure.Perm n.closure ∧ m.indexCt = n.indexCt ∧ m.kekWraps = n.kekWraps
  | o, p => o = p

theorem sameRules_of_sortRules_eq {ps qs : List ProtectPrefix} (h : sortRules ps = sortRules qs) :
    SameRules ps qs := by
  let le := fun a b : ProtectPrefix => (compare a.pathPrefix b.pathPrefix).isLE
  refine ⟨ps.mergeSort le, qs.mergeSort le, List.mergeSort_perm ps le, List.mergeSort_perm qs le, ?_⟩
  have hall : List.Forall₂ (· = ·) (sortRules ps) (sortRules qs) := h ▸ List.forall₂_refl _
  rw [sortRules, sortRules, List.forall₂_map_left_iff, List.forall₂_map_right_iff] at hall
  refine hall.imp ?_
  intro p q hpq
  obtain ⟨hpath, hrecipients⟩ := ProtectPrefix.mk.inj hpq
  refine ⟨hpath, ?_⟩
  exact perm_of_mergeSort_eq hrecipients

/-- Objects whose sorted fields agree are the same up to order. -/
theorem sameUpToOrder_of_fields_eq {o p : Object} (h : o.fields = p.fields) :
    o.SameUpToOrder p := by
  cases o <;> cases p <;> simp only [Object.fields, reduceCtorEq, Fields.blob.injEq,
    Fields.tree.injEq, Fields.snapshot.injEq, Fields.secret.injEq, Fields.signature.injEq,
    Fields.transcript.injEq, Fields.sealed.injEq, Fields.manifest.injEq,
    SnapshotFields.mk.injEq, BranchManifest.mk.injEq] at h
  case blob.blob => exact congrArg _ h
  case tree.tree s t => exact congrArg (fun es => Object.tree ⟨es⟩) h
  case snapshot.snapshot s t =>
    obtain ⟨h₁, h₂, h₃, h₄, h₅, hsecrets, hrules, hwrapped⟩ := h
    exact ⟨h₁, h₂, h₃, h₄, h₅, Std.ExtTreeMap.toList_inj.mp hsecrets,
      sameRules_of_sortRules_eq hrules, Std.ExtTreeMap.toList_inj.mp hwrapped⟩
  case secret.secret => exact congrArg _ h
  case signature.signature => exact congrArg _ h
  case transcript.transcript => exact congrArg _ h
  case sealed.sealed => exact congrArg _ h
  case manifest.manifest m n =>
    obtain ⟨hbase, hprev, hanchors, hclosure, hindex, hwraps⟩ := h
    refine ⟨hbase, hprev, ?_, ?_, hindex, hwraps⟩
    · exact perm_of_mergeSort_eq hanchors
    · exact perm_of_mergeSort_eq hclosure

/-! ## Fields in order -/

/-- The rows of maps strictly ascending, the other sorted lists ascending. -/
def Fields.InOrder : Fields → Prop
  | .snapshot s => BTreeMap.Ascending s.secrets ∧ BTreeMap.Ascending s.wrapped ∧
      RulesSorted s.prefixes
  | .manifest m => m.anchors.Pairwise (fun a b => (compare a b).isLE = true) ∧
      m.closure.Pairwise (fun a b => (compare a b).isLE = true)
  | _ => True

theorem fields_inOrder (o : Object) : o.fields.InOrder := by
  cases o with
  | snapshot s =>
    exact ⟨BTreeMap.toList_ascending _, BTreeMap.toList_ascending _, sortRules_sorted _⟩
  | manifest m => exact ⟨sortIds_sorted _, sortIds_sorted _⟩
  | _ => trivial

/-- Fields in order are what the object they make writes out. -/
theorem fields_object {f : Fields} (h : f.InOrder) : f.object.fields = f := by
  cases f with
  | snapshot s =>
    obtain ⟨hsecrets, hwrapped, hrules⟩ := h
    simp only [Fields.object, Object.fields, BTreeMap.toList_ofList hsecrets,
      BTreeMap.toList_ofList hwrapped, sortRules_of_sorted hrules]
  | manifest m =>
    obtain ⟨hanchors, hclosure⟩ := h
    simp only [Fields.object, Object.fields, sortIds_of_sorted hanchors,
      sortIds_of_sorted hclosure]
  | _ => rfl

theorem decode_bytes {f : Fields} (h : f.Fits) : Object.decode f.bytes = .ok f.object :=
  Object.decode_eq_ok_iff.mpr ⟨f, [], (List.append_nil _).symm, h, rfl, fun _ => rfl⟩

/-! ## An encoding determines its object -/

theorem FitsList.ofList {K V : Type} [Ord K] [Std.TransOrd K] [Std.LawfulEqOrd K] [DecidableEq K]
    {P : K × V → Prop} {kvs : List (K × V)} (h : FitsList P kvs) :
    FitsList P (BTreeMap.ofList kvs).toList :=
  ⟨lt_of_le_of_lt (BTreeMap.length_toList_ofList_le kvs) h.1,
    fun kv hkv => h.2 kv (BTreeMap.mem_of_mem_ofList hkv)⟩

theorem FitsList.perm {α : Type} {P : α → Prop} {xs ys : List α} (h : FitsList P xs)
    (hp : ys.Perm xs) : FitsList P ys :=
  ⟨by rw [hp.length_eq]; exact h.1, fun y hy => h.2 y (hp.mem_iff.mp hy)⟩

theorem FitsList.sortRules {ps : List ProtectPrefix} (h : FitsList FitsRule ps) :
    FitsList FitsRule (sortRules ps) := by
  have hsorted := h.perm (List.mergeSort_perm ps
    (fun a b => (compare a.pathPrefix b.pathPrefix).isLE))
  refine ⟨?_, fun p hp => ?_⟩
  · rw [SrcControl.sortRules, List.length_map]
    exact hsorted.1
  · obtain ⟨q, hq, rfl⟩ := List.mem_map.mp hp
    obtain ⟨hpath, hrecipients⟩ := hsorted.2 q hq
    exact ⟨hpath, hrecipients.perm (List.mergeSort_perm q.recipients _)⟩

/-- The fields written out fit the encoding, and no rule has two registers for one key. -/
structure Object.Encodable (o : Object) : Prop where
  fits : o.fields.Fits
  keys : ∀ s, o = .snapshot s → ∀ p ∈ s.protection.prefixes, (p.recipients.map (·.key)).Nodup

namespace Object

/-- An object's encoding decodes to the object with its lists sorted, which has the same
encoding, and no other object up to that order shares it. -/
theorem decode_encode {o : Object} (ho : o.Encodable) :
    (∃ o', decode o.encode = .ok o' ∧ o'.SameUpToOrder o ∧ o'.encode = o.encode) ∧
      ∀ p : Object, p.Encodable → p.encode = o.encode → p.SameUpToOrder o := by
  have hback : ∀ q : Object, q.fields.object.fields = q.fields := fun q =>
    fields_object (fields_inOrder q)
  refine ⟨⟨o.fields.object, decode_bytes ho.fits, ?_, ?_⟩, fun p hp he => ?_⟩
  · exact sameUpToOrder_of_fields_eq (hback o)
  · exact congrArg Fields.bytes (hback o)
  · have hdec : Except.ok p.fields.object = (.ok o.fields.object : Except CoreError Object) := by
      rw [← decode_bytes hp.fits, ← decode_bytes ho.fits]
      exact congrArg decode he
    apply sameUpToOrder_of_fields_eq
    rw [← hback p, ← hback o, Except.ok.inj hdec]

/-- An author name, a rule and a wrap: enough to go through every nested list. -/
def testSnapshotObject : Object :=
  .snapshot ⟨⟨List.replicate 32 1⟩, [⟨List.replicate 32 2⟩], "a", 0, "m", ∅,
    ⟨[⟨"s/", [⟨List.replicate 32 3, 1, .granted⟩]⟩], ∅⟩⟩

theorem testSnapshotObject_encodable : testSnapshotObject.Encodable where
  fits := ⟨by decide, by decide, by decide, by decide, by decide,
    FitsList.sortRules (by decide), by decide⟩
  keys s hs p hp := by
    cases hs
    rw [List.mem_singleton.mp hp]
    decide

theorem decode_encode_snapshot :
    (∃ o', decode testSnapshotObject.encode = .ok o' ∧ o'.SameUpToOrder testSnapshotObject ∧
      o'.encode = testSnapshotObject.encode) ∧
      ∀ p : Object, p.Encodable → p.encode = testSnapshotObject.encode →
        p.SameUpToOrder testSnapshotObject :=
  decode_encode testSnapshotObject_encodable

/-! ## Which bytes keep their address -/

/-- What was read fits when it is written again. -/
theorem object_fits {f : Fields} (h : f.Fits) : f.object.fields.Fits := by
  cases f with
  | snapshot s =>
    exact ⟨h.root, h.parents, h.author, h.message, h.secrets.ofList, h.prefixes.sortRules,
      h.wrapped.ofList⟩
  | manifest m =>
    exact ⟨h.base, h.prev, h.anchors.perm (List.mergeSort_perm m.anchors _),
      h.closure.perm (List.mergeSort_perm m.closure _), h.indexCt, h.kekWraps⟩
  | _ => exact h

/-- The bytes end with the last field of their kind, the names of a tree and the keys of
a snapshot's maps strictly ascend, and the lists an encoding sorts ascend. -/
def CanonicalBytes (bytes : Bytes) : Prop :=
  ∃ f : Fields, bytes = f.bytes ∧ f.Fits ∧ f.InOrder ∧
    ∀ es, f = .tree es → es.Pairwise (fun a b => compare a.name b.name = .lt)

/-- The object is at home under the id: its own id, the bytes it was read from, and for a
tree the lookups that find exactly its entries. -/
structure KeepsId (hash : Bytes → Bytes) (id : ObjectId) (bytes : Bytes) (o : Object) : Prop where
  id : o.id hash = id
  encode : o.encode = bytes
  tree : ∀ t, o = .tree t → t.Sorted ∧
    ∀ name e, t.get name = some e ↔ e ∈ t.entries ∧ e.name = name

theorem decodeVerified_eq_ok {hash : Bytes → Bytes} {failed : CoreError} {id : ObjectId}
    {bytes : Bytes} {o : Object} (h : decodeVerified hash failed id bytes = .ok o) :
    ⟨hash bytes⟩ = id ∧ decode bytes = .ok o := by
  unfold decodeVerified at h
  split_ifs at h with hid
  exact ⟨hid, h⟩

/-- A verified read hands out the object under its own id exactly when the bytes are laid
out canonically. -/
theorem decodeVerified_keeps_iff {hash : Bytes → Bytes} {failed : CoreError} {id : ObjectId}
    {bytes : Bytes} {o : Object} (h : decodeVerified hash failed id bytes = .ok o) :
    KeepsId hash id bytes o ↔ CanonicalBytes bytes := by
  obtain ⟨hid, hdec⟩ := decodeVerified_eq_ok h
  obtain ⟨f, tail, hbytes, hfit, rfl, -⟩ := decode_eq_ok_iff.mp hdec
  constructor
  · intro hk
    refine ⟨f.object.fields, hk.encode.symm, object_fits hfit, fields_inOrder _, ?_⟩
    intro es hes
    cases f with
    | tree es' =>
      cases hes
      exact (hk.tree _ rfl).1
    | _ => cases hes
  · rintro ⟨g, rfl, hg, hord, htree⟩
    have hobj : f.object = g.object := by
      rw [decode_bytes hg] at hdec
      exact (Except.ok.inj hdec).symm
    have hencode : f.object.encode = g.bytes := by
      rw [hobj, encode, fields_object hord]
    refine ⟨?_, hencode, fun t ht => ?_⟩
    · rw [Object.id, hencode, hid]
    · rw [hobj] at ht
      cases g with
      | tree es =>
        cases ht
        have hsorted : (⟨es⟩ : Tree).Sorted := htree es rfl
        exact ⟨hsorted, fun name e => hsorted.get_eq_some_iff⟩
      | _ => cases ht

/-- A digest that keeps the first 32 bytes, which tells short byte strings apart. -/
def testDigest (b : Bytes) : Bytes := (b ++ List.replicate 32 0).take 32

/-- The empty tree with a byte behind its count. -/
def strayTree : Bytes := [1, 0, 0, 0, 0, 7]

theorem decodeVerified_keeps_iff_stray :
    KeepsId testDigest ⟨testDigest strayTree⟩ strayTree (.tree ⟨[]⟩) ↔ CanonicalBytes strayTree :=
  @decodeVerified_keeps_iff testDigest (.malformed "object failed hash verification on read")
    ⟨testDigest strayTree⟩ strayTree (.tree ⟨[]⟩) rfl

/-- The address of the bytes is verified, and the tree that comes back has another. -/
theorem stray_byte_changes_id :
    decodeVerified testDigest (.malformed "object failed hash verification on read")
      ⟨testDigest strayTree⟩ strayTree = .ok (.tree ⟨[]⟩) ∧
    (Object.tree ⟨[]⟩).id testDigest ≠ ⟨testDigest strayTree⟩ ∧
    (Object.tree ⟨[]⟩).encode ≠ strayTree :=
  ⟨rfl, by decide, by decide⟩

end Object

end SrcControl
