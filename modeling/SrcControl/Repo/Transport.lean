import SrcControl.Lib.Fallible
import SrcControl.Repo.ReachablePartial
import SrcControl.Repo.Refs

/-!
# Transport

What one repository does for another: listing its refs, building a pack of what the
other lacks, ingesting a pack after checking every record, and the compare-and-swap
of a branch ref. `idOf` is the content address of an object. An ingest also rebuilds
the signature and transcript indexes from what it wrote; nothing here reads them
back, so their new value is left open.
-/

namespace SrcControl

/-- The operations that can be stopped at a conflict. -/
structure Stopped where
  merge : Bool
  pick : Bool
  rebase : Bool
deriving DecidableEq, Repr

/-- The side indexes of attached objects, which no tree or snapshot names. -/
structure Indexes where
  signatures : List (ObjectId × ObjectId)
  transcripts : List (ObjectId × ObjectId)
  drops : List (ObjectId × ObjectId)

structure Repository where
  store : Store
  refs : Refs
  stopped : Stopped
  indexes : Indexes
  promisor : Bool

abbrev Record := ObjectId × Object

/-- `Store::put`: an object already held is left alone. -/
def Store.put (idOf : Object → ObjectId) (s : Store) (o : Object) : ObjectId × Store :=
  if s.contains (idOf o) then (idOf o, s) else (idOf o, ⟨s.objects.insert (idOf o) o⟩)

namespace Transport

open Reachable

/-- The stopped operation that holds back writes to the checked-out branch. -/
def stoppedError (st : Stopped) : Option Error :=
  if st.merge then some .mergeInProgress
  else if st.pick then some .pickInProgress
  else if st.rebase then some .rebaseInProgress
  else none

/-- A stopped operation completes against the checked-out tip, which must not move. -/
def guardStopped (r : Repository) (branch : String) : Except Error Unit :=
  match stoppedError r.stopped with
  | some err => if r.refs.head = branch then .error err else .ok ()
  | none => .ok ()

/-- `LocalTransport::update_ref`, run under the remote's lock. -/
def updateRef (r : Repository) (branch : String) (id : ObjectId) (expectedOld : Option ObjectId) :
    Except Error Repository := do
  let current ← r.refs.readBranchTip branch
  if current = some id then pure r
  else do
    guardStopped r branch
    if current = expectedOld then pure { r with refs := ← r.refs.writeBranchTip branch id }
    else .error .nonFastForward

/-- `indexed_signature_ids_for`. -/
def indexedSignatureIdsFor (ix : Indexes) (targets : List ObjectId) : List ObjectId :=
  (BTreeSet.ofList ((ix.signatures.filter (fun e => targets.contains e.1)).map (·.2))).toList

/-- `indexed_transcript_ids_for`: the live transcripts of `snapshots`, and the signed
tombstones of those or of snapshots no longer held. -/
def indexedTranscriptIdsFor (ix : Indexes) (snapshots : List ObjectId)
    (snapshotHeld : ObjectId → Bool) : List ObjectId :=
  let live := (ix.transcripts.filter (fun e => snapshots.contains e.1)).map (·.2)
  let isSigned := fun tomb => ix.signatures.any (fun e => e.1 = tomb)
  let tombs := (ix.drops.filter (fun e =>
    isSigned e.2 && (snapshots.contains e.1 || !snapshotHeld e.1))).map (·.2)
  (BTreeSet.ofList (live ++ tombs)).toList

/-- The attached objects that travel with `snaps`. -/
def attachedIds (r : Repository) (noTranscripts : Bool) (snaps : List ObjectId) :
    List ObjectId × List ObjectId :=
  let transcripts := if noTranscripts then []
    else indexedTranscriptIdsFor r.indexes snaps r.store.contains
  (indexedSignatureIdsFor r.indexes (snaps ++ transcripts), transcripts)

def writeIdsToTempPack (s : Store) (ids : List ObjectId) : Except Error (List Record) :=
  ids.mapM (fun id => do pure (id, ← s.get id))

/-- The closure of the haves this side holds. -/
def haveSet (fuel : Nat) (s : Store) (haves : List ObjectId) : Except Error (BTreeSet ObjectId) :=
  haves.foldlM (fun set h =>
    if s.contains h then do pure (markAll (← reachableObjects fuel s [h]).toList set)
    else pure set) ∅

/-- `build_pack_tempfile` without a filter: reachable from the wants less reachable
from the haves, with the attached objects of both. -/
def buildPack (fuel : Nat) (r : Repository) (wants haves : List ObjectId) :
    Except Error (List Record) := do
  let held ← haveSet fuel r.store haves
  let want ← reachableObjects fuel r.store wants
  let (sigs, transcripts) := attachedIds r false (want.toList ++ held.toList)
  let want := markAll transcripts (markAll sigs want)
  writeIdsToTempPack r.store (want.toList.filter (fun id => !held.contains id))

/-! ## Ingest -/

def verifyRecord (idOf : Object → ObjectId) (rec : Record) : Except Error Unit :=
  if idOf rec.2 = rec.1 then .ok () else .error (.core (.hashMismatch rec.1 (idOf rec.2)))

def isTranscript : Object → Bool
  | .transcript _ => true
  | _ => false

/-- The transcript records a `--no-transcripts` receiver drops. -/
def droppedIds (skipTranscripts : Bool) (pack : List Record) : List ObjectId :=
  if skipTranscripts then (pack.filter (fun rec => isTranscript rec.2)).map (·.1) else []

/-- Whether pass 2 writes the record: not a dropped transcript nor a signature over one. -/
def keepsRecord (dropped : List ObjectId) (rec : Record) : Bool :=
  !(dropped.contains rec.1 ||
    match rec.2 with
    | .signature sig => dropped.contains sig.snapshot
    | _ => false)

def landRecord (idOf : Object → ObjectId) (s : Store) (rec : Record) : Except Error Store :=
  if (s.put idOf rec.2).1 = rec.1 then .ok (s.put idOf rec.2).2
  else .error (.core (.hashMismatch rec.1 (s.put idOf rec.2).1))

/-- `ingest_pack_file_impl`: every record is checked before the first is written. -/
def ingestPack (idOf : Object → ObjectId) (skipTranscripts : Bool) (s : Store)
    (pack : List Record) : Except Error Store := do
  pack.forM (verifyRecord idOf)
  (pack.filter (keepsRecord (droppedIds skipTranscripts pack))).foldlM (landRecord idOf) s

/-! ## Facts -/

/-- Everything `s` holds, `t` holds with the same content. -/
def Extends (s t : Store) : Prop :=
  ∀ (id : ObjectId) (o : Object), s.objects[id]? = some o → t.objects[id]? = some o

theorem Extends.refl (s : Store) : Extends s s := fun _ _ h => h

theorem Extends.trans {s t u : Store} (h : Extends s t) (h' : Extends t u) : Extends s u :=
  fun id o ho => h' id o (h id o ho)

/-- A successful swap left the branch at `id` and every other ref where it was. -/
theorem updateRef_eq_ok {r r' : Repository} {branch : String} {id : ObjectId}
    {expectedOld : Option ObjectId} (h : updateRef r branch id expectedOld = .ok r') :
    r' = r ∧ r.refs.heads[branch]? = some id ∨
    r.refs.heads[branch]? = expectedOld ∧
      r' = { r with refs := { r.refs with heads := r.refs.heads.insert branch id } } := by
  unfold updateRef at h
  obtain ⟨current, hcur, h⟩ := Fallible.bind_ok h
  have hread := Refs.readBranchTip_eq_ok hcur
  by_cases hid : current = some id
  · rw [if_pos hid] at h
    cases h
    exact .inl ⟨rfl, by rw [hread, hid]⟩
  · rw [if_neg hid] at h
    obtain ⟨_, _, h⟩ := Fallible.bind_ok h
    split_ifs at h with hexp
    obtain ⟨refs, hrefs, h⟩ := Fallible.bind_ok h
    cases h
    rw [Refs.writeBranchTip_eq_ok hrefs]
    exact .inr ⟨hread.trans hexp, rfl⟩

theorem put_spec {idOf : Object → ObjectId} {s : Store} {o : Object} :
    (s.put idOf o).1 = idOf o ∧ Extends s (s.put idOf o).2 ∧
    (∃ o', (s.put idOf o).2.objects[idOf o]? = some o') ∧
    ∀ id o', (s.put idOf o).2.objects[id]? = some o' →
      s.objects[id]? = some o' ∨ id = idOf o ∧ o' = o := by
  unfold Store.put
  split_ifs with hc
  · refine ⟨rfl, .refl s, ?_, fun id o' h => .inl h⟩
    rw [Store.contains, Std.ExtTreeMap.contains_eq_isSome_getElem?] at hc
    exact Option.isSome_iff_exists.mp hc
  · have hget : ∀ id, (s.objects.insert (idOf o) o)[id]? =
        if idOf o = id then some o else s.objects[id]? :=
      fun id => BTreeMap.getElem?_insert s.objects (idOf o) id o
    refine ⟨rfl, fun id o' h => ?_, ⟨o, by simp⟩, fun id o' h => ?_⟩
    · rw [hget, if_neg ?_]
      · exact h
      · rintro rfl
        exact hc (Store.contains_of_get (Store.get_eq_ok_iff.mpr h))
    · rw [hget] at h
      split_ifs at h with hid
      · cases h
        exact .inr ⟨hid.symm, rfl⟩
      · exact .inl h

/-- What landing a list of records does to a store. -/
structure Landed (s : Store) (recs : List Record) (s' : Store) : Prop where
  grows : Extends s s'
  holds : ∀ rec ∈ recs, ∃ o, s'.objects[rec.1]? = some o
  source : ∀ id o, s'.objects[id]? = some o → s.objects[id]? = some o ∨ (id, o) ∈ recs

theorem landRecord_landed {idOf : Object → ObjectId} {s s' : Store} {rec : Record}
    (h : landRecord idOf s rec = .ok s') : Landed s [rec] s' := by
  obtain ⟨hid, hgrow, hhold, hsrc⟩ := @put_spec idOf s rec.2
  unfold landRecord at h
  split_ifs at h with hsame
  cases h
  rw [hid] at hsame
  rw [hsame] at hhold hsrc
  refine ⟨hgrow, ?_, fun id o ho => ?_⟩
  · intro r hr
    rw [List.mem_singleton.mp hr]
    exact hhold
  · rcases hsrc id o ho with h | ⟨rfl, rfl⟩
    · exact .inl h
    · exact .inr (by simp)

theorem landRecords_landed {idOf : Object → ObjectId} {recs : List Record} {s s' : Store}
    (h : recs.foldlM (landRecord idOf) s = .ok s') : Landed s recs s' := by
  induction recs generalizing s with
  | nil =>
    cases h
    exact ⟨.refl _, by simp, fun id o ho => .inl ho⟩
  | cons rec recs ih =>
    rw [List.foldlM_cons] at h
    obtain ⟨s₁, h₁, h⟩ := Fallible.bind_ok h
    have hstep := landRecord_landed h₁
    have hrest := ih h
    refine ⟨hstep.grows.trans hrest.grows, ?_, fun id o ho => ?_⟩
    · intro r hr
      rcases List.mem_cons.mp hr with rfl | hr
      · obtain ⟨o, ho⟩ := hstep.holds r (by simp)
        exact ⟨o, hrest.grows _ _ ho⟩
      · exact hrest.holds r hr
    · rcases hrest.source id o ho with ho | ho
      · rcases hstep.source id o ho with ho | ho
        · exact .inl ho
        · exact .inr (by simp_all)
      · exact .inr (by simp [ho])

end Transport

end SrcControl
