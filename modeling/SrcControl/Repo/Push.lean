import SrcControl.Repo.Ancestry
import SrcControl.Repo.Transport

/-!
# Push

A push sends what the destination lacks of the tip's closure and then swaps the
branch ref. From a partial clone the closure ends at gaps, and each gap is only asked
for by its own id.
-/

namespace SrcControl

namespace Store

/-- Everything `tip` reaches through stored objects is stored. -/
def Held (s : Store) (tip : ObjectId) : Prop :=
  ∀ x, s.Reach tip x → ∃ o, s.objects[x]? = some o

/-- An id names one object in both stores. -/
def Agree (s t : Store) : Prop :=
  ∀ (id : ObjectId) (o o' : Object), s.objects[id]? = some o → t.objects[id]? = some o' → o = o'

end Store

namespace Indexes

def ids (ix : Indexes) : List ObjectId :=
  ix.signatures.map (·.2) ++ ix.transcripts.map (·.2) ++ ix.drops.map (·.2)

/-- An attached object is a leaf that no object names. -/
def Detached (ix : Indexes) (s : Store) : Prop :=
  ∀ id ∈ ix.ids, (∀ a, ¬ s.Link a id) ∧ ∀ b, ¬ s.Link id b

end Indexes

namespace Push

open Reachable Transport

/-- Every gap must exist at the destination. -/
def checkGaps (hasObject : ObjectId → Bool) (gaps : BTreeMap ObjectId ObjectId) :
    Except Error Unit :=
  gaps.toList.forM (fun gap => if hasObject gap.1 then .ok () else .error (.pushGap gap.1 gap.2))

/-- The objects of the tip's closure that a push offers. -/
def pushReachable (fuel : Nat) (src : Repository) (hasObject : ObjectId → Bool) (tip : ObjectId) :
    Except Error (List ObjectId) :=
  if src.promisor then do
    let r ← reachableObjectsPartial fuel src.store [tip]
    checkGaps hasObject r.gaps
    pure r.present.toList
  else do pure (← reachableObjects fuel src.store [tip]).toList

/-- The offered ids and their attached objects, less what the destination has. -/
def sendIds (src : Repository) (hasObject : ObjectId → Bool) (noTranscripts : Bool)
    (reachable : List ObjectId) : List ObjectId :=
  let attached := attachedIds src noTranscripts reachable
  (reachable ++ attached.1 ++ attached.2).filter (fun id => !hasObject id)

def checkFastForward (fuel : Nat) (s : Store) (expectedOld : Option ObjectId) (tip : ObjectId) :
    Except Error Unit :=
  match expectedOld with
  | none => .ok ()
  | some remoteTip => do
    if ← Ancestry.isAncestor fuel s remoteTip tip then .ok () else .error .nonFastForward

/-- The tip the remote lists for `branch`. -/
def listedTip (dst : Repository) (branch : String) : Option ObjectId :=
  (dst.refs.listRefs.find? (fun h => h.1 = branch)).map (·.2)

/-- `push_opts` from the listed remote tip on; an empty pack is not sent, and lands nothing. -/
def pushTip (fuel : Nat) (idOf : Object → ObjectId) (src dst : Repository) (noTranscripts : Bool)
    (tip : ObjectId) (expectedOld : Option ObjectId) : Except Error Repository :=
  if expectedOld = some tip then .ok dst
  else do
    checkFastForward fuel src.store expectedOld tip
    let reachable ← pushReachable fuel src dst.store.contains tip
    let pack ← writeIdsToTempPack src.store
      (sendIds src dst.store.contains noTranscripts reachable)
    let store ← ingestPack idOf false dst.store pack
    updateRef { dst with store } src.refs.head tip expectedOld

/-- `push_opts`. -/
def push (fuel : Nat) (idOf : Object → ObjectId) (src dst : Repository) (noTranscripts : Bool) :
    Except Error (ObjectId × Repository) := do
  match ← src.refs.headTip with
  | none => .error .unborn
  | some tip => do
    let dst' ← pushTip fuel idOf src dst noTranscripts tip (listedTip dst src.refs.head)
    pure (tip, dst')

/-! ## What arrives -/

theorem checkGaps_ok {hasObject : ObjectId → Bool} {gaps : BTreeMap ObjectId ObjectId}
    (h : checkGaps hasObject gaps = .ok ()) {x : ObjectId} (hx : x ∈ gaps) :
    hasObject x = true := by
  obtain ⟨r, hr⟩ : ∃ r, gaps[x]? = some r := Option.isSome_iff_exists.mp (by
    rwa [← Std.ExtTreeMap.contains_eq_isSome_getElem?, Std.ExtTreeMap.contains_iff_mem])
  have hgap := Fallible.forM_ok_iff.mp h (x, r) ((BTreeMap.mem_toList_iff gaps x r).mpr hr)
  split_ifs at hgap with hhas
  exact hhas

/-- What the tip reaches is offered, or was found at the destination. -/
theorem pushReachable_spec {fuel : Nat} {src : Repository} {hasObject : ObjectId → Bool}
    {tip : ObjectId} {ids : List ObjectId} (h : pushReachable fuel src hasObject tip = .ok ids)
    (hk : src.store.KindedOn (reachSet src.store [tip])) :
    (∀ x ∈ reachSet src.store [tip], x ∈ ids ∨ hasObject x = true) ∧
    ∀ x ∈ ids, x ∈ reachSet src.store [tip] := by
  unfold pushReachable at h
  split_ifs at h with hp
  · obtain ⟨r, hr, h⟩ := Fallible.bind_ok h
    obtain ⟨_, hgaps, h⟩ := Fallible.bind_ok h
    cases h
    have hspec := reachableObjectsPartial_spec hr hk
    refine ⟨fun x hx => ?_, fun x hx => (hspec x).mp (.inl (Std.ExtTreeSet.mem_toList.mp hx))⟩
    rcases (hspec x).mpr hx with hx | hx
    · exact .inl (Std.ExtTreeSet.mem_toList.mpr hx)
    · exact .inr (checkGaps_ok hgaps hx)
  · obtain ⟨seen, hseen, h⟩ := Fallible.bind_ok h
    cases h
    have hspec := reachableObjects_spec hseen hk
    exact ⟨fun x hx => .inl (Std.ExtTreeSet.mem_toList.mpr ((hspec x).mpr hx)),
      fun x hx => (hspec x).mp (Std.ExtTreeSet.mem_toList.mp hx)⟩

theorem mem_attachedIds {r : Repository} {noTranscripts : Bool} {snaps : List ObjectId}
    {id : ObjectId} (h : id ∈ (attachedIds r noTranscripts snaps).1 ∨
      id ∈ (attachedIds r noTranscripts snaps).2) : id ∈ r.indexes.ids := by
  simp only [attachedIds, indexedSignatureIdsFor, BTreeSet.mem_toList_ofList, List.mem_map,
    List.mem_filter] at h
  simp only [Indexes.ids, List.mem_append, List.mem_map]
  rcases h with ⟨e, ⟨he, _⟩, rfl⟩ | h
  · exact .inl (.inl ⟨e, he, rfl⟩)
  · split_ifs at h
    · cases h
    · simp only [indexedTranscriptIdsFor, BTreeSet.mem_toList_ofList, List.mem_append, List.mem_map,
        List.mem_filter] at h
      rcases h with ⟨e, ⟨he, _⟩, rfl⟩ | ⟨e, ⟨he, _⟩, rfl⟩
      · exact .inl (.inr ⟨e, he, rfl⟩)
      · exact .inr ⟨e, he, rfl⟩

theorem writeIdsToTempPack_mem {s : Store} {ids : List ObjectId} {pack : List Record}
    (h : writeIdsToTempPack s ids = .ok pack) (rec : Record) :
    rec ∈ pack ↔ rec.1 ∈ ids ∧ s.objects[rec.1]? = some rec.2 := by
  rw [Fallible.mem_of_mapM_ok h rec]
  constructor
  · rintro ⟨id, hid, he⟩
    obtain ⟨o, ho, he⟩ := Fallible.bind_ok he
    cases he
    exact ⟨hid, Store.get_eq_ok_iff.mp ho⟩
  · rintro ⟨hid, ho⟩
    refine ⟨rec.1, hid, ?_⟩
    rw [Store.get_eq_ok_iff.mpr ho]
    rfl

/-- Every id of a pack that could be written has its record. -/
theorem writeIdsToTempPack_complete {s : Store} {ids : List ObjectId} {pack : List Record}
    (h : writeIdsToTempPack s ids = .ok pack) {id : ObjectId} (hid : id ∈ ids) :
    ∃ o, (id, o) ∈ pack := by
  obtain ⟨rec, hrec, he⟩ := Fallible.ok_of_mapM_ok h hid
  obtain ⟨o, ho, he⟩ := Fallible.bind_ok he
  cases he
  exact ⟨o, hrec⟩

theorem ingestPack_all {idOf : Object → ObjectId} {s s' : Store} {pack : List Record}
    (h : ingestPack idOf false s pack = .ok s') : Landed s pack s' := by
  obtain ⟨_, _, h⟩ := Fallible.bind_ok h
  have hkeep : pack.filter (keepsRecord (droppedIds false pack)) = pack := by
    refine List.filter_eq_self.mpr (fun rec _ => ?_)
    cases rec with
    | mk id o => cases o <;> simp [keepsRecord, droppedIds]
  rw [hkeep] at h
  exact landRecords_landed h

/-- The setting of a push: content addressing, a well-kinded local closure, attached
objects that nothing names, and a destination that holds the closure of its refs. -/
structure Setting (src dst : Repository) (tip : ObjectId) : Prop where
  agree : src.store.Agree dst.store
  kinded : src.store.KindedOn (reachSet src.store [tip])
  detachedSrc : src.indexes.Detached src.store
  detachedDst : src.indexes.Detached dst.store
  refsHeld : ∀ (b : String) (t : ObjectId), dst.refs.heads[b]? = some t → dst.store.Held t

/-- Below what the clone lacks, the destination already held everything that the push
does not itself offer. -/
def GapsCovered (src dst : Store) (tip : ObjectId) : Prop :=
  ∀ x ∈ reachSet src [tip], src.objects[x]? = none → ∀ y, dst.Reach x y →
    (∃ o, dst.objects[y]? = some o) ∨ y ∈ reachSet src [tip]

/-- What a push that sent something did to the destination's store. -/
structure Sent (src dst : Repository) (tip : ObjectId) (store : Store) : Prop where
  grows : Extends dst.store store
  holds : ∀ x ∈ reachSet src.store [tip], ∃ o, store.objects[x]? = some o
  source : ∀ (id : ObjectId) (o : Object), store.objects[id]? = some o →
    dst.store.objects[id]? = some o ∨
    src.store.objects[id]? = some o ∧ (id ∈ reachSet src.store [tip] ∨ id ∈ src.indexes.ids)

theorem exists_of_contains {s : Store} {id : ObjectId} (h : s.contains id = true) :
    ∃ o, s.objects[id]? = some o := by
  rw [Store.contains, Std.ExtTreeMap.contains_eq_isSome_getElem?] at h
  exact Option.isSome_iff_exists.mp h

theorem sent_of_pack {fuel : Nat} {idOf : Object → ObjectId} {src dst : Repository}
    {noTranscripts : Bool} {tip : ObjectId} {reachable : List ObjectId} {pack : List Record}
    {store : Store} (hk : src.store.KindedOn (reachSet src.store [tip]))
    (hreach : pushReachable fuel src dst.store.contains tip = .ok reachable)
    (hpack : writeIdsToTempPack src.store
      (sendIds src dst.store.contains noTranscripts reachable) = .ok pack)
    (hin : ingestPack idOf false dst.store pack = .ok store) : Sent src dst tip store := by
  obtain ⟨hoffer, hwithin⟩ := pushReachable_spec hreach hk
  have hland := ingestPack_all hin
  have hpresent : ∀ {x}, dst.store.contains x = true → ∃ o, store.objects[x]? = some o := by
    intro x hx
    obtain ⟨o, ho⟩ := exists_of_contains hx
    exact ⟨o, hland.grows x o ho⟩
  refine ⟨hland.grows, fun x hx => ?_, fun id o ho => ?_⟩
  · rcases hoffer x hx with hx | hx
    · cases hc : dst.store.contains x with
      | true => exact hpresent hc
      | false =>
        have hsend : x ∈ sendIds src dst.store.contains noTranscripts reachable := by
          simp [sendIds, hx, hc]
        obtain ⟨o, ho⟩ := writeIdsToTempPack_complete hpack hsend
        exact hland.holds _ ho
    · exact hpresent hx
  · rcases hland.source id o ho with ho | ho
    · exact .inl ho
    · obtain ⟨hid, ho⟩ := (writeIdsToTempPack_mem hpack (id, o)).mp ho
      simp only [sendIds, List.mem_filter, List.mem_append] at hid
      rcases hid.1 with (hid | hid) | hid
      · exact .inr ⟨ho, .inl (hwithin id hid)⟩
      · exact .inr ⟨ho, .inr (mem_attachedIds (.inl hid))⟩
      · exact .inr ⟨ho, .inr (mem_attachedIds (.inr hid))⟩

/-! ## What the destination then holds -/

section Publish

variable {src dst : Repository} {tip : ObjectId}

/-- A local path is a path at a destination that holds it. -/
theorem reach_of_agree {s t : Store} (hagree : s.Agree t) {x y : ObjectId} (h : s.Reach x y)
    (hheld : ∀ z, s.Reach x z → ∃ o, t.objects[z]? = some o) : t.Reach x y := by
  induction h with
  | refl => exact .refl
  | tail hxz hl ih =>
    obtain ⟨o, ho, r, hr⟩ := hl
    obtain ⟨o', ho'⟩ := hheld _ hxz
    rw [← hagree _ _ _ ho ho'] at ho'
    exact ih.tail ⟨o, ho', r, hr⟩

theorem reach_extends {s t : Store} (h : Extends s t) {x y : ObjectId} (hr : s.Reach x y) :
    t.Reach x y := by
  induction hr with
  | refl => exact .refl
  | tail _ hl ih =>
    obtain ⟨o, ho, hrole⟩ := hl
    exact ih.tail ⟨o, h _ o ho, hrole⟩

theorem mem_reachSet {s : Store} {x : ObjectId} : x ∈ reachSet s [tip] ↔ s.Reach tip x := by
  simp [reachSet]

theorem sent_agree (hset : Setting src dst tip) {store : Store} (hsent : Sent src dst tip store) :
    src.store.Agree store := by
  intro id o o' ho ho'
  rcases hsent.source id o' ho' with hd | ⟨hs, _⟩
  · exact hset.agree id o o' ho hd
  · rw [hs] at ho
    exact (Option.some.inj ho).symm

/-- Each object below the tip is offered, or lies below something the clone lacks. -/
theorem reach_cases (hset : Setting src dst tip) {store : Store} (hsent : Sent src dst tip store)
    {y : ObjectId} (hr : store.Reach tip y) :
    y ∈ reachSet src.store [tip] ∨
    ∃ x ∈ reachSet src.store [tip], src.store.objects[x]? = none ∧ dst.store.Reach x y := by
  induction hr with
  | refl => exact .inl (mem_reachSet.mpr .refl)
  | @tail z w _ hl ih =>
    obtain ⟨o, ho, hrole⟩ := hl
    rcases hsent.source z o ho with hd | ⟨hs, hsrc⟩
    · rcases ih with hz | ⟨x, hx, habs, hxz⟩
      · cases hz' : src.store.objects[z]? with
        | none => exact .inr ⟨z, hz, hz', .single ⟨o, hd, hrole⟩⟩
        | some o' =>
          rw [hset.agree z o' o hz' hd] at hz'
          exact .inl (reachSet_closed _ _ z hz w ⟨o, hz', hrole⟩)
      · exact .inr ⟨x, hx, habs, hxz.tail ⟨o, hd, hrole⟩⟩
    · rcases hsrc with hz | hz
      · exact .inl (reachSet_closed _ _ z hz w ⟨o, hs, hrole⟩)
      · exact absurd ⟨o, hs, hrole⟩ ((hset.detachedSrc z hz).2 w)

theorem sent_held_iff (hset : Setting src dst tip) {store : Store}
    (hsent : Sent src dst tip store) :
    store.Held tip ↔ GapsCovered src.store dst.store tip := by
  constructor
  · intro hheld x hx _ y hxy
    have htip : store.Reach tip x := reach_of_agree (sent_agree hset hsent) (mem_reachSet.mp hx)
      (fun z hz => hsent.holds z (mem_reachSet.mpr hz))
    obtain ⟨o, ho⟩ := hheld y (htip.trans (reach_extends hsent.grows hxy))
    rcases hsent.source y o ho with hd | ⟨_, hy | hy⟩
    · exact .inl ⟨o, hd⟩
    · exact .inr hy
    · -- nothing names an attached object, so `y` is the start of the path
      rcases hxy.cases_tail with rfl | ⟨z, _, hl⟩
      · exact .inr hx
      · exact absurd hl ((hset.detachedDst y hy).1 z)
  · intro hcov y hy
    rcases reach_cases hset hsent hy with hy | ⟨x, hx, habs, hxy⟩
    · exact hsent.holds y hy
    · rcases hcov x hx habs y hxy with ⟨o, ho⟩ | hy
      · exact ⟨o, hsent.grows y o ho⟩
      · exact hsent.holds y hy

/-- A push that found the remote up to date: the tip is one of its refs. -/
theorem upToDate_covered (hset : Setting src dst tip) (hheld : dst.store.Held tip) :
    GapsCovered src.store dst.store tip := by
  intro x hx _ y hxy
  have hpath : ∀ {z}, src.store.Reach tip z → dst.store.Reach tip z := by
    intro z hz
    induction hz with
    | refl => exact .refl
    | tail _ hl ih =>
      obtain ⟨o, ho, hr⟩ := hl
      obtain ⟨o', ho'⟩ := hheld _ ih
      rw [← hset.agree _ _ _ ho ho'] at ho'
      exact ih.tail ⟨o, ho', hr⟩
  exact .inl (hheld y ((hpath (mem_reachSet.mp hx)).trans hxy))

theorem listedTip_eq_some {branch : String} {t : ObjectId} (h : listedTip dst branch = some t) :
    dst.refs.heads[branch]? = some t := by
  unfold listedTip at h
  obtain ⟨e, he, rfl⟩ := Option.map_eq_some_iff.mp h
  have hname : e.1 = branch := by simpa using List.find?_some he
  rw [← hname]
  exact (BTreeMap.mem_toList_iff dst.refs.heads e.1 e.2).mp (List.mem_of_find?_eq_some he)

/-- After a push that returned `Ok`, the destination holds everything the pushed tip
reaches there exactly when what lay below the clone's gaps was covered before. -/
theorem push_held_iff {fuel : Nat} {idOf : Object → ObjectId} {src dst dst' : Repository}
    {noTranscripts : Bool} {tip : ObjectId}
    (h : push fuel idOf src dst noTranscripts = .ok (tip, dst')) (hset : Setting src dst tip) :
    dst'.store.Held tip ↔ GapsCovered src.store dst.store tip := by
  obtain ⟨head, hhead, h⟩ := Fallible.bind_ok h
  cases head with
  | none => cases h
  | some t =>
    obtain ⟨r, hpush, h⟩ := Fallible.bind_ok h
    cases h
    unfold pushTip at hpush
    split_ifs at hpush with hlisted
    · cases hpush
      have hheld := hset.refsHeld _ _ (listedTip_eq_some hlisted)
      exact ⟨fun _ => upToDate_covered hset hheld, fun _ => hheld⟩
    · obtain ⟨_, _, hpush⟩ := Fallible.bind_ok hpush
      obtain ⟨reachable, hreach, hpush⟩ := Fallible.bind_ok hpush
      obtain ⟨pack, hpack, hpush⟩ := Fallible.bind_ok hpush
      obtain ⟨store, hin, hpush⟩ := Fallible.bind_ok hpush
      have hstore : dst'.store = store := by
        rcases updateRef_eq_ok hpush with ⟨rfl, _⟩ | ⟨_, rfl⟩ <;> rfl
      rw [hstore]
      exact sent_held_iff hset (sent_of_pack hset.kinded hreach hpack hin)

end Publish

/-! ## A gap whose object is there and whose child is not -/

def noIndexes : Indexes := ⟨[], [], []⟩

def running : Stopped := ⟨false, false, false⟩

def docsTree : Tree := ⟨[⟨"guide.md", .blob, testId 4, .FILE, 0⟩]⟩

def tipTree : Tree := ⟨[⟨"docs", .tree, testId 3, .FILE, 0⟩]⟩

def emptyTree : Tree := ⟨[]⟩

def testSnapshot (root : UInt8) (parents : List UInt8) : Snapshot :=
  ⟨testId root, parents.map testId, "a", 0, "m", ∅, default⟩

theorem reach_within {s : Store} {R : List ObjectId} {x y : ObjectId} (hx : x ∈ R)
    (h : ∀ e ∈ s.objects.toList, e.1 ∈ R → ∀ l ∈ e.2.links, l.2 ∈ R) (hr : s.Reach x y) : y ∈ R := by
  induction hr with
  | refl => exact hx
  | tail _ hl ih =>
    obtain ⟨o, ho, r, hl⟩ := hl
    exact h (_, o) ((BTreeMap.mem_toList_iff _ _ _).mpr ho) ih (r, _) hl

/-- The content address on the objects of this run. -/
def testAddress : Object → ObjectId
  | .tree ⟨[]⟩ => testId 1
  | .tree ⟨e :: _⟩ => if e.name = "docs" then testId 5 else testId 3
  | .snapshot s => if s.parents = [] then testId 2 else testId 6
  | _ => testId 0

/-- A partial clone that never fetched the tree `docs` and commits on top of it. -/
def testClone : Repository :=
  ⟨testStore [(1, .tree emptyTree), (2, .snapshot (testSnapshot 1 [])), (5, .tree tipTree),
    (6, .snapshot (testSnapshot 5 [2]))], ⟨(∅ : BTreeMap String ObjectId).insert "main" (testId 6),
    ∅, "main"⟩, running, noIndexes, true⟩

/-- A destination an interrupted transfer left with the tree `docs` and not its file. -/
def testDestination : Repository :=
  ⟨testStore [(1, .tree emptyTree), (2, .snapshot (testSnapshot 1 [])), (3, .tree docsTree)],
    ⟨(∅ : BTreeMap String ObjectId).insert "main" (testId 2), ∅, "main"⟩, running, noIndexes, false⟩

def testPushed : Repository :=
  ⟨⟨(testDestination.store.objects.insert (testId 5) (.tree tipTree)).insert (testId 6)
    (.snapshot (testSnapshot 5 [2]))⟩, { testDestination.refs with
      heads := testDestination.refs.heads.insert "main" (testId 6) }, running, noIndexes, false⟩

theorem testDestination_refsHeld (b : String) (t : ObjectId)
    (h : testDestination.refs.heads[b]? = some t) : testDestination.store.Held t := by
  have hrefs : ∀ e ∈ testDestination.refs.heads.toList, e.2 = testId 2 := by decide
  obtain rfl : t = testId 2 := hrefs (b, t) ((BTreeMap.mem_toList_iff _ _ _).mpr h)
  intro x hx
  have hin := reach_within (R := [testId 1, testId 2]) (by decide) (by decide) hx
  exact exists_of_contains
    ((by decide : ∀ x ∈ [testId 1, testId 2], testDestination.store.contains x = true) x hin)

theorem testClone_setting : Setting testClone testDestination (testId 6) where
  agree id o o' ho ho' := by
    have hsame : ∀ e ∈ testClone.store.objects.toList, ∀ e' ∈ testDestination.store.objects.toList,
        e.1 = e'.1 → e.2 = e'.2 := by decide
    exact hsame (id, o) ((BTreeMap.mem_toList_iff _ _ _).mpr ho) (id, o')
      ((BTreeMap.mem_toList_iff _ _ _).mpr ho') rfl
  kinded a _ o ho r b hl o' ho' := by
    have hfit : ∀ e ∈ testClone.store.objects.toList, ∀ l ∈ e.2.links,
        ∀ e' ∈ testClone.store.objects.toList, e'.1 = l.2 → l.1.fits e'.2 = true := by decide
    exact hfit (a, o) ((BTreeMap.mem_toList_iff _ _ _).mpr ho) (r, b) hl (b, o')
      ((BTreeMap.mem_toList_iff _ _ _).mpr ho') rfl
  detachedSrc id hid := by cases hid
  detachedDst id hid := by cases hid
  refsHeld := testDestination_refsHeld

theorem push_held_iff_gap : testPushed.store.Held (testId 6) ↔
    GapsCovered testClone.store testDestination.store (testId 6) :=
  @push_held_iff 9 testAddress testClone testDestination testPushed false (testId 6) rfl
    testClone_setting

/-- The push returns `Ok` and the published tip names a file the destination lacks. -/
theorem push_publishes_hole :
    (∀ (b : String) (t : ObjectId), testDestination.refs.heads[b]? = some t →
      testDestination.store.Held t) ∧
    push 9 testAddress testClone testDestination false = .ok (testId 6, testPushed) ∧
    testPushed.refs.heads["main"]? = some (testId 6) ∧ ¬ testPushed.store.Held (testId 6) := by
  refine ⟨testDestination_refsHeld, rfl, rfl, fun hheld => ?_⟩
  have hroot : testPushed.store.Link (testId 6) (testId 5) :=
    ⟨.snapshot (testSnapshot 5 [2]), rfl, .tree, by decide⟩
  have hdocs : testPushed.store.Link (testId 5) (testId 3) := ⟨.tree tipTree, rfl, .tree, by decide⟩
  have hguide : testPushed.store.Link (testId 3) (testId 4) :=
    ⟨.tree docsTree, rfl, .blob, by decide⟩
  have hpath : testPushed.store.Reach (testId 6) (testId 4) := .head hroot (.head hdocs (.single hguide))
  obtain ⟨o, ho⟩ := hheld _ hpath
  cases (rfl : testPushed.store.objects[testId 4]? = none).symm.trans ho

end Push

end SrcControl
