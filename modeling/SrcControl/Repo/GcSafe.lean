import SrcControl.Repo.GcMark
import SrcControl.Core.ObjectsDirSafe

/-!
# A pass of `gc` loses no marked object

Wherever a pass stops, every object that it marked is read from the directory as before: until
the new pack is there nothing is removed, and from then on the pack holds a copy of each.
-/

namespace SrcControl.Gc

open Checked (Stop)
open Reachable CrashTrace ObjectsDir

section

variable {env : Env} {content : ObjectId → Object} {d₀ : Dir} {R : List ObjectId}

/-- The directory reads, and no object of `R` has lost its last copy. -/
structure Keeps (env : Env) (content : ObjectId → Object) (d₀ : Dir) (R : List ObjectId) (d : Dir) :
    Prop where
  sound : Sound env content d
  held : ∀ id ∈ R, HasCopy d₀ id → HasCopy d id

/-- The pack that is kept holds all of `R`. -/
def Backed (R : List ObjectId) (keep : Option String) (d : Dir) : Prop :=
  ∀ id ∈ R, ∃ stem, keep = some stem ∧ InPack d stem id

theorem Keeps.of_backed {keep : Option String} {d : Dir} (hd : Sound env content d)
    (hbacked : Backed R keep d) : Keeps env content d₀ R d := by
  refine ⟨hd, fun id hid _ => ?_⟩
  obtain ⟨stem, -, hin⟩ := hbacked id hid
  exact .inr (.inr ⟨stem, hin⟩)

abbrev Kept (env : Env) (content : ObjectId → Object) (d₀ : Dir) (R : List ObjectId)
    (K : Dir → Prop) : Machine Dir Handle → Prop :=
  Both (Keeps env content d₀ R) K

theorem touch_kept {K : Dir → Prop} :
    Meets (Kept env content d₀ R K) (touch env) (fun _ => Kept env content d₀ R K)
      (Always (Keeps env content d₀ R)) :=
  Meets.call_both (fun _ hP hK => ⟨hP, hK⟩)

theorem reloadPacks_kept {K : Dir → Prop} :
    Meets (Kept env content d₀ R K) (reloadPacks env) (fun _ => Kept env content d₀ R K)
      (Always (Keeps env content d₀ R)) := by
  refine Meets.bind touch_kept (fun _ => ?_)
  refine Meets.bind (modify_both (fun _ => rfl) (fun _ => rfl)) (fun _ => ?_)
  refine Meets.get (fun s hs => ?_)
  refine Meets.bind (Q := fun _ => Kept env content d₀ R K) ?_ (fun _ => ?_)
  · refine Meets.orThrow (fun _ _ t ht => ?_) (fun t ht => ?_)
    · rw [ht]
      exact hs
    · rw [ht]
      exact hs.always
  · exact modify_both (fun _ => rfl) (fun _ => rfl)

/-! ## The new pack -/

theorem objects_encoded {d : Dir} {h : Handle} (hd : Sound env content d)
    (hh : h.Sound env content d) {ids : List ObjectId} {objects : List (ObjectId × Bytes)}
    (hrun : ids.mapM (fun id => (get env d h id).map (fun o => (id, o.encode))) = .ok objects) :
    objects = encoded content ids ∧ ∀ id ∈ ids, get env d h id = .ok (content id) := by
  induction ids generalizing objects with
  | nil =>
    cases hrun
    exact ⟨rfl, by simp⟩
  | cons id ids ih =>
    rw [List.mapM_cons] at hrun
    obtain ⟨p, hp, hrun⟩ := Fallible.bind_ok hrun
    obtain ⟨ps, hps, hrun⟩ := Fallible.bind_ok hrun
    cases hrun
    obtain ⟨hobjects, hget⟩ := ih hps
    cases hone : get env d h id with
    | error e =>
      rw [hone] at hp
      cases hp
    | ok o =>
      rw [hone] at hp
      cases hp
      have ho := get_content hd hh hone
      subst ho
      subst hobjects
      refine ⟨rfl, fun x hx => ?_⟩
      rcases List.mem_cons.mp hx with rfl | hx
      · exact hone
      · exact hget x hx

theorem writePack_kept (henv : env.Lawful) {ids : List ObjectId} (hids : ids.Nodup)
    (hmem : ∀ id, id ∈ R ↔ id ∈ ids) {s₀ : Machine Dir Handle}
    (hkept : Always (Keeps env content d₀ R) s₀) (hh : s₀.handle.Sound env content s₀.disk)
    (hpackable : ∀ id ∈ ids, get env s₀.disk s₀.handle id = .ok (content id) →
      Packable env id (content id))
    (hroom : ∀ pack idx, Pack.buildPack env.z (encoded content ids) = .ok (pack, idx) →
      Room env content s₀.disk pack) :
    Meets (fun s => s = s₀) (writePack env ids)
      (fun name => Kept env content d₀ R (Backed R (some name)))
      (Always (Keeps env content d₀ R)) := by
  unfold writePack
  refine Meets.get (fun s hs => ?_)
  subst hs
  refine Meets.bind (Q := fun objects t => t = s ∧ objects = encoded content ids ∧
    ∀ id ∈ ids, get env s.disk s.handle id = .ok (content id)) ?_ (fun objects => ?_)
  · refine Meets.orThrow (fun objects hobjects t ht => ⟨ht, ?_⟩) (fun t ht => ?_)
    · refine objects_encoded hkept.now.sound hh ?_
      cases hrun : ids.mapM (fun id => (get env s.disk s.handle id).map
          (fun o => (id, o.encode))) with
      | error e =>
        rw [hrun] at hobjects
        cases hobjects
      | ok out =>
        rw [hrun] at hobjects
        cases hobjects
        rfl
    · rw [ht]
      exact hkept
  refine Meets.bind (Q := fun files t => t = s ∧
    (∀ id ∈ ids, get env s.disk s.handle id = .ok (content id)) ∧
    Pack.buildPack env.z (encoded content ids) = .ok (files.1, files.2)) ?_ (fun files => ?_)
  · refine Meets.orThrow (fun files hfiles t ht => ?_) (fun t ht => ?_)
    · obtain ⟨rfl, rfl, hget⟩ := ht
      refine ⟨rfl, hget, ?_⟩
      cases hrun : Pack.buildPack env.z (encoded content ids) with
      | error e =>
        rw [hrun] at hfiles
        cases hfiles
      | ok out =>
        rw [hrun] at hfiles
        cases hfiles
        rfl
    · rw [ht.1]
      exact hkept
  refine Meets.ite (fun _ => ?_) (fun hshort => ?_)
  · intro t ht
    change Always _ t
    rw [ht.1]
    exact hkept
  · intro t ht
    obtain ⟨rfl, hget, hbuild⟩ := ht
    rw [not_or, not_le, not_le] at hshort
    obtain ⟨hindexes, hlists⟩ := made_reads henv hids
      (fun id hid => hpackable id hid (hget id hid)) hbuild hshort.1 hshort.2
    have hnew := hroom _ _ hbuild
    have hputPack : Meets (Kept env content d₀ R (fun d => d = t.disk))
        (call env.fates failure (putPack (packName env files.1) files.1) : DirM Unit)
        (fun _ => Kept env content d₀ R
          (fun d => d.packs[packName env files.1]? = some files.1))
        (Always (Keeps env content d₀ R)) := by
      refine Meets.call_both (fun d hP hK => ⟨⟨?_, fun id hid h₀ => ?_⟩, ?_⟩)
      · rw [hK]
        exact (hK ▸ hP.sound).putPack hnew
      · exact held_putPack (hP.held id hid h₀) _
      · rw [putPack, BTreeMap.getElem?_insert, if_pos rfl]
    have hputIdx : Meets (Kept env content d₀ R
          (fun d => d.packs[packName env files.1]? = some files.1))
        (call env.fates failure (putIdx (packName env files.1) files.2) : DirM Unit)
        (fun _ => Kept env content d₀ R (Backed R (some (packName env files.1))))
        (Always (Keeps env content d₀ R)) := by
      refine Meets.call_both (fun d hP hK => ?_)
      have hsound := hP.sound.putIdx hK hindexes
      have hbacked : Backed R (some (packName env files.1))
          (putIdx (packName env files.1) files.2 d) := by
        intro id hid
        refine ⟨_, rfl, Std.ExtTreeMap.mem_iff_isSome_getElem?.mpr (by rw [putIdx, hK]; rfl),
          files.2, ?_, hlists id ((hmem id).mp hid)⟩
        rw [putIdx, BTreeMap.getElem?_insert, if_pos rfl]
      exact ⟨.of_backed hsound hbacked, hbacked⟩
    have hall := hputPack.bind (fun _ => hputIdx.bind (fun _ => reloadPacks_kept.bind
      (fun _ => Meets.pure (E := Always (Keeps env content d₀ R))
        (Q := fun name => Kept env content d₀ R (Backed R (some name)))
        (packName env files.1) (fun _ hs => hs))))
    exact hall t ⟨hkept, rfl⟩

/-! ## The sweep -/

theorem backed_removeLoose {keep : Option String} {d : Dir} (id : ObjectId)
    (hbacked : Backed R keep d) : Backed R keep (removeLoose id d) := by
  intro x hx
  obtain ⟨stem, hstem, hin⟩ := hbacked x hx
  refine ⟨stem, hstem, ?_⟩
  unfold removeLoose
  split_ifs
  · exact hin
  · exact hin

theorem delete_kept {keep : Option String} (id : ObjectId) :
    Meets (Kept env content d₀ R (Backed R keep)) (delete env id)
      (fun _ => Kept env content d₀ R (Backed R keep)) (Always (Keeps env content d₀ R)) := by
  unfold delete
  refine Meets.get (fun s hs => ?_)
  have hremove : Meets (Kept env content d₀ R (Backed R keep))
      (call env.fates failure (removeLoose id) : DirM Unit)
      (fun _ => Kept env content d₀ R (Backed R keep)) (Always (Keeps env content d₀ R)) := by
    refine Meets.call_both (fun d hP hK => ?_)
    have hbacked := backed_removeLoose id hK
    exact ⟨.of_backed (hP.sound.less (removeLoose_less id d)) hbacked, hbacked⟩
  have hforget : Meets (Kept env content d₀ R (Backed R keep))
      (modify (fun t => { t with handle :=
        { t.handle with resident := t.handle.resident.erase id } }) : DirM Unit)
      (fun _ => Kept env content d₀ R (Backed R keep)) (Always (Keeps env content d₀ R)) :=
    modify_both (fun _ => rfl) (fun _ => rfl)
  refine Meets.ite (fun _ => ?_) (fun _ => ?_)
  · exact (hremove.bind (fun _ => hforget)).weaken (fun t ht => ht ▸ hs) (fun _ _ h => h)
      (fun _ h => h)
  · exact hforget.weaken (fun t ht => ht ▸ hs) (fun _ _ h => h) (fun _ h => h)

theorem looseMtime_kept {K : Dir → Prop} (id : ObjectId) :
    Meets (Kept env content d₀ R K) (looseMtime env id) (fun _ => Kept env content d₀ R K)
      (Always (Keeps env content d₀ R)) := by
  unfold looseMtime
  refine Meets.get (fun s hs => ?_)
  cases existingLoose s.disk id with
  | none => exact Meets.pure none (fun t ht => ht ▸ hs)
  | some file =>
    exact (touch_kept.bind (fun _ => Meets.pure (some file.mtime) (fun _ h => h))).weaken
      (fun t ht => ht ▸ hs) (fun _ _ h => h) (fun _ h => h)

theorem sweepOne_kept {keep : Option String} (now grace : Nat) (reachable : BTreeSet ObjectId)
    (stats : GcStats) (id : ObjectId) :
    Meets (Kept env content d₀ R (Backed R keep)) (sweepOne env now grace reachable stats id)
      (fun _ => Kept env content d₀ R (Backed R keep)) (Always (Keeps env content d₀ R)) := by
  unfold sweepOne
  refine Meets.ite (fun _ => ?_) (fun _ => ?_)
  · exact (delete_kept id).bind (fun _ => Meets.pure _ (fun _ h => h))
  · refine (looseMtime_kept id).bind (fun mtime => ?_)
    refine Meets.ite (fun _ => ?_) (fun _ => Meets.pure _ (fun _ h => h))
    exact (delete_kept id).bind (fun _ => Meets.pure _ (fun _ h => h))

/-! ## The other packs -/

theorem backed_removePack {keep stem : String} {d : Dir} (hne : stem ≠ keep)
    (hbacked : Backed R (some keep) d) : Backed R (some keep) (removePack stem d) := by
  intro x hx
  obtain ⟨k, hk, hmem, hidx⟩ := hbacked x hx
  cases hk
  refine ⟨keep, rfl, ?_, hidx⟩
  rw [Std.ExtTreeMap.mem_iff_isSome_getElem?] at hmem ⊢
  rwa [removePack, BTreeMap.getElem?_erase, if_neg hne]

theorem backed_removeIdx {keep stem : String} {d : Dir} (hne : stem ≠ keep)
    (hbacked : Backed R (some keep) d) : Backed R (some keep) (removeIdx stem d) := by
  intro x hx
  obtain ⟨k, hk, hmem, idx, hidx, hlists⟩ := hbacked x hx
  cases hk
  refine ⟨keep, rfl, hmem, idx, ?_, hlists⟩
  rwa [removeIdx, BTreeMap.getElem?_erase, if_neg hne]

theorem dropOne_kept (keep : String) (stats : GcStats) (stem : String) :
    Meets (Kept env content d₀ R (Backed R (some keep))) (dropOne env keep stats stem)
      (fun _ => Kept env content d₀ R (Backed R (some keep)))
      (Always (Keeps env content d₀ R)) := by
  unfold dropOne
  refine Meets.ite (fun _ => Meets.pure _ (fun _ h => h)) (fun hne => ?_)
  have hpack : Meets (Kept env content d₀ R (Backed R (some keep)))
      (call env.fates failure (removePack stem) : DirM Unit)
      (fun _ => Kept env content d₀ R (Backed R (some keep)))
      (Always (Keeps env content d₀ R)) := by
    refine Meets.call_both (fun d hP hK => ?_)
    have hbacked := backed_removePack hne hK
    exact ⟨.of_backed (hP.sound.less (removePack_less stem d)) hbacked, hbacked⟩
  have hidx : Meets (Kept env content d₀ R (Backed R (some keep)))
      (call env.fates failure (removeIdx stem) : DirM Unit)
      (fun _ => Kept env content d₀ R (Backed R (some keep)))
      (Always (Keeps env content d₀ R)) := by
    refine Meets.call_both (fun d hP hK => ?_)
    have hbacked := backed_removeIdx hne hK
    exact ⟨.of_backed (hP.sound.less (removeIdx_less stem d)) hbacked, hbacked⟩
  exact (hpack.bind (fun _ => hidx.bind (fun _ => reloadPacks_kept))).bind
    (fun _ => Meets.pure _ (fun _ h => h))

/-! ## The pass -/

theorem collect_kept (henv : env.Lawful) (now grace : Nat) (reachable : BTreeSet ObjectId)
    (stats : GcStats) {s₀ : Machine Dir Handle}
    (hkept : Always (Keeps env content d₀ reachable.toList) s₀)
    (hh : s₀.handle.Sound env content s₀.disk)
    (hpackable : ∀ id, get env s₀.disk s₀.handle id = .ok (content id) →
      Packable env id (content id))
    (hroom : ∀ pack idx,
      Pack.buildPack env.z (encoded content reachable.toList) = .ok (pack, idx) →
        Room env content s₀.disk pack) :
    Meets (fun s => s = s₀) (collect env now grace reachable stats)
      (fun _ s => Always (Keeps env content d₀ reachable.toList) s ∧
        ∀ id ∈ reachable, HasCopy s.disk id)
      (Always (Keeps env content d₀ reachable.toList)) := by
  have hpack : Meets (fun s => s = s₀) (packMarked env reachable)
      (fun keep => Kept env content d₀ reachable.toList (Backed reachable.toList keep))
      (Always (Keeps env content d₀ reachable.toList)) := by
    unfold packMarked
    refine Meets.ite (fun hempty => Meets.pure none (fun s hs => ?_)) (fun _ => ?_)
    · subst hs
      refine ⟨hkept, fun id hid => ?_⟩
      rw [Std.ExtTreeSet.mem_toList, Std.ExtTreeSet.isEmpty_iff.mp hempty] at hid
      exact absurd hid Std.ExtTreeSet.not_mem_empty
    · exact (writePack_kept henv (BTreeSet.nodup_toList reachable) (fun _ => Iff.rfl) hkept hh
        (fun id _ => hpackable id) hroom).bind (fun name => Meets.pure (some name) (fun _ h => h))
  have hend : ∀ (keep : Option String) (s : Machine Dir Handle),
      Kept env content d₀ reachable.toList (Backed reachable.toList keep) s →
        Always (Keeps env content d₀ reachable.toList) s ∧ ∀ id ∈ reachable, HasCopy s.disk id := by
    intro keep s hs
    refine ⟨hs.always, fun id hid => ?_⟩
    obtain ⟨stem, -, hin⟩ := hs.now id (Std.ExtTreeSet.mem_toList.mpr hid)
    exact .inr (.inr ⟨stem, hin⟩)
  unfold collect
  refine hpack.bind (fun keep => ?_)
  refine Meets.bind (Q := fun _ => Kept env content d₀ reachable.toList
    (Backed reachable.toList keep)) ?_ (fun listed => ?_)
  · exact touch_kept.bind (fun _ => Meets.get (fun s hs => Meets.pure _ (fun t ht => ht ▸ hs)))
  refine (Meets.foldlM (I := fun _ => Kept env content d₀ reachable.toList
    (Backed reachable.toList keep)) (fun b id _ => sweepOne_kept now grace reachable b id)
    _).bind (fun swept => ?_)
  cases keep with
  | none => exact Meets.pure swept (hend none)
  | some keep =>
    refine Meets.get (fun s hs => ?_)
    exact (Meets.foldlM (I := fun _ => Kept env content d₀ reachable.toList
      (Backed reachable.toList (some keep))) (fun b stem _ => dropOne_kept keep b stem)
      swept).weaken (fun t ht => ht ▸ hs) (fun _ => hend (some keep)) (fun _ h => h)

/-- Wherever the pass stops, an object that it marks reads as before; and when it succeeds, every
object that it marked can be read. -/
structure Spares (env : Env) (d₀ : Dir) (marked : ObjectId → Prop) (succeeded : Bool)
    (s : Machine Dir Handle) : Prop where
  throughout : ∀ d ∈ s.disks, ∀ id, marked id → ∀ o, readFresh env d₀ id = .ok o →
    readFresh env d id = .ok o
  after : succeeded = true → ∀ id, marked id → ∃ o, readFresh env s.disk id = .ok o

theorem run_kept (henv : env.Lawful) {d : Dir} {h : Handle} (hd : Sound env content d)
    (hh : h.Sound env content d)
    (hpackable : ∀ id, get env d h id = .ok (content id) → Packable env id (content id))
    (fuel now grace : Nat) (cutoff : Int) (r r' : GcRepo) {reachable : BTreeSet ObjectId}
    (hmark : mark fuel cutoff r (view env d h) = .ok (reachable, r'))
    (hroom : ∀ pack idx,
      Pack.buildPack env.z (encoded content reachable.toList) = .ok (pack, idx) →
        Room env content d pack) :
    Meets (fun s => s = opened d h) (run env fuel now grace cutoff r)
      (fun _ s => Always (Keeps env content d reachable.toList) s ∧
        ∀ id ∈ reachable, HasCopy s.disk id)
      (Always (Keeps env content d reachable.toList)) := by
  have hstart : Always (Keeps env content d reachable.toList) (opened d h) := by
    intro d' hd'
    rw [List.mem_singleton.mp hd']
    exact ⟨hd, fun _ _ hheld => hheld⟩
  unfold run
  refine Meets.get (fun s hs => ?_)
  subst hs
  change Meets _ (orThrow ((mark fuel cutoff r (view env d h)).mapError Checked.Stop.error)
    >>= _) _ _
  rw [hmark]
  refine Meets.bind (Q := fun marked s => s = opened d h ∧ marked = (reachable, r')) ?_
    (fun marked => ?_)
  · exact Meets.orThrow (fun _ hm s hs => ⟨hs, (Except.ok.inj hm).symm⟩) (fun s hs => hs ▸ hstart)
  · intro s hs
    obtain ⟨rfl, rfl⟩ := hs
    exact ((collect_kept henv now grace reachable _ hstart hh hpackable hroom).bind
      (fun _ => Meets.pure (E := Always (Keeps env content d reachable.toList)) _
        (fun _ h => h))) _ rfl

theorem run_spares (henv : env.Lawful) {d : Dir} {h : Handle} (hd : Sound env content d)
    (hh : h.Sound env content d)
    (hpackable : ∀ id, get env d h id = .ok (content id) → Packable env id (content id))
    (fuel now grace : Nat) (cutoff : Int) (r r' : GcRepo) {reachable : BTreeSet ObjectId}
    (hmark : mark fuel cutoff r (view env d h) = .ok (reachable, r'))
    (hroom : ∀ pack idx,
      Pack.buildPack env.z (encoded content reachable.toList) = .ok (pack, idx) →
        Room env content d pack) :
    Spares env d (· ∈ reachable) (finished (run env fuel now grace cutoff r (opened d h))).1
      (finished (run env fuel now grace cutoff r (opened d h))).2 := by
  have hrun := run_kept henv hd hh hpackable fuel now grace cutoff r r' hmark hroom
  have hkeeps : ∀ s : Machine Dir Handle, Always (Keeps env content d reachable.toList) s →
      ∀ d' ∈ s.disks, ∀ id, id ∈ reachable → ∀ o, readFresh env d id = .ok o →
        readFresh env d' id = .ok o := by
    intro s hs d' hd' id hid o ho
    obtain ⟨hheld, rfl⟩ := (hd.readFresh_iff o).mp ho
    have hk := hs d' hd'
    exact (hk.sound.readFresh_iff _).mpr
      ⟨hk.held id (Std.ExtTreeSet.mem_toList.mpr hid) hheld, rfl⟩
  cases hout : run env fuel now grace cutoff r (opened d h) with
  | ok a s =>
    obtain ⟨halways, hheld⟩ := hrun.ok rfl hout
    refine ⟨hkeeps s halways, fun _ id hid => ⟨content id, ?_⟩⟩
    exact (halways.now.sound.readFresh_iff _).mpr ⟨hheld id hid, rfl⟩
  | error e s => exact ⟨hkeeps s (hrun.error rfl hout), fun hf => by cases hf⟩

/-- Wherever a pass stops, every object that the repository needs reads as before the pass, and
once the pass has succeeded all of them read. -/
theorem gc_spares_needed (henv : env.Lawful) {d : Dir} {h : Handle} (hd : Sound env content d)
    (hh : h.Sound env content d)
    (hpackable : ∀ id, get env d h id = .ok (content id) → Packable env id (content id))
    (fuel now grace : Nat) (cutoff : Int) (r : GcRepo)
    (hkinded : ∀ roots, (r.trim cutoff).clone.roots = .ok roots →
      (view env d h).KindedOn (reachSet (view env d h) (roots ++ r.decidedRoots)))
    (hroom : ∀ reachable r', mark fuel cutoff r (view env d h) = .ok (reachable, r') →
      ∀ pack idx, Pack.buildPack env.z (encoded content reachable.toList) = .ok (pack, idx) →
        Room env content d pack) :
    Spares env d (Needed (view env d h) (r.trim cutoff))
      (finished (run env fuel now grace cutoff r (opened d h))).1
      (finished (run env fuel now grace cutoff r (opened d h))).2 := by
  cases hmark : mark fuel cutoff r (view env d h) with
  | error e =>
    have hrun : run env fuel now grace cutoff r (opened d h) =
        .error (.error e) (opened d h) := by
      unfold run
      change ((orThrow ((mark fuel cutoff r (view env d h)).mapError Checked.Stop.error) : DirM _)
        >>= _) _ = _
      rw [hmark]
      rfl
    rw [hrun]
    refine ⟨fun d' hd' id _ o ho => ?_, fun hf => by cases hf⟩
    rw [List.mem_singleton.mp hd']
    exact ho
  | ok out =>
    have hspares := run_spares henv hd hh hpackable fuel now grace cutoff r out.2 hmark
      (hroom out.1 out.2 hmark)
    exact ⟨fun d' hd' id hid => hspares.throughout d' hd' id (mark_needed hmark hkinded hid),
      fun hs id hid => hspares.after hs id (mark_needed hmark hkinded hid)⟩

end

/-- A branch on a snapshot of the empty tree. -/
def firstSnapshot : Object := .snapshot ⟨firstTreeId, [], "a", 0, "m", ∅, default⟩

def firstSnapshotId : ObjectId := ⟨Object.testDigest firstSnapshot.encode⟩

def firstContent (id : ObjectId) : Object :=
  if id = firstTreeId then firstTree else firstSnapshot

/-- The tree is a compressed file, the snapshot an older file that is not. -/
def firstDir : Dir where
  sharded := (∅ : BTreeMap ObjectId File).insert firstTreeId
    ⟨[0x28, 0xb5, 0x2f, 0xfd, 0, 0x58] ++ (ByteReader.leBytes 3 41 ++ firstTree.encode), 0⟩
  flat := (∅ : BTreeMap ObjectId File).insert firstSnapshotId ⟨firstSnapshot.encode, 0⟩
  packs := ∅
  idxs := ∅

def firstHandle : Handle := ⟨∅, ∅⟩

theorem firstSnapshot_fields : firstSnapshot.fields =
    .snapshot ⟨firstTreeId, [], "a", 0, "m", [], [], []⟩ := by
  have hsorted : sortRules [] = [] := by simp [sortRules]
  change Fields.snapshot ⟨firstTreeId, [], "a", 0, "m", [], sortRules [], []⟩ = _
  rw [hsorted]

theorem firstSnapshot_decodes : Object.decode firstSnapshot.encode = .ok firstSnapshot := by
  rw [Object.encode, firstSnapshot_fields]
  exact decode_bytes ⟨by decide, by decide, by decide, by decide, by decide, by decide, by decide⟩

theorem firstSnapshot_short : firstSnapshot.encode.length < 100 := by
  rw [Object.encode, firstSnapshot_fields]
  decide

theorem firstDir_sound : ObjectsDir.Sound firstEnv firstContent firstDir where
  sharded id file hfile := by
    rw [firstDir, BTreeMap.getElem?_insert] at hfile
    split_ifs at hfile with hid
    · cases hfile
      subst hid
      rfl
    · simp at hfile
  flat id file hfile := by
    rw [firstDir, BTreeMap.getElem?_insert] at hfile
    split_ifs at hfile with hid
    · cases hfile
      subst hid
      change Pack.stopped (Object.decodeVerified _ _ firstSnapshotId firstSnapshot.encode) = _
      rw [Object.decodeVerified, if_pos (by exact rfl), firstSnapshot_decodes]
      rfl
    · simp at hfile
  packs stem pack idx hpack := by
    rw [firstDir] at hpack
    simp at hpack

theorem firstHandle_sound : firstHandle.Sound firstEnv firstContent firstDir where
  resident id o h := by
    rw [firstHandle] at h
    simp at h
  index id loc h := by
    rw [firstHandle] at h
    simp at h

theorem first_get {id : ObjectId} {o : Object}
    (h : get firstEnv firstDir firstHandle id = .ok o) :
    (id = firstTreeId ∧ o = firstTree) ∨ (id = firstSnapshotId ∧ o = firstSnapshot) := by
  have ho := get_content firstDir_sound firstHandle_sound h
  by_cases ht : id = firstTreeId
  · refine .inl ⟨ht, ?_⟩
    rw [ho, firstContent, if_pos ht]
  · by_cases hs : id = firstSnapshotId
    · refine .inr ⟨hs, ?_⟩
      rw [ho, firstContent, if_neg ht]
    · have hnone : existingLoose firstDir id = none := by
        rw [existingLoose, firstDir, BTreeMap.getElem?_insert, BTreeMap.getElem?_insert,
          if_neg (Ne.symm ht), if_neg (Ne.symm hs)]
        simp
      have hindex : firstHandle.packIndex[id]? = none := by simp [firstHandle]
      have hresident : firstHandle.resident[id]? = none := by simp [firstHandle]
      simp only [ObjectsDir.get, hresident, readDisk, hnone, readPackObject, hindex] at h
      cases h

theorem first_packable (id : ObjectId)
    (h : get firstEnv firstDir firstHandle id = .ok (firstContent id)) :
    Packable firstEnv id (firstContent id) := by
  obtain ⟨rfl, ho⟩ | ⟨rfl, ho⟩ := first_get h
  · rw [ho]
    refine ⟨rfl, rfl, fun c hc => ?_⟩
    cases hc
    decide
  · rw [ho]
    refine ⟨rfl, firstSnapshot_decodes, fun c hc => ?_⟩
    cases hc
    have hshort := firstSnapshot_short
    simp only [List.length_append, ByteReader.length_leBytes, List.length_cons, List.length_nil]
    omega

/-- A repository with these branches, on `main`, and an empty log. -/
def repoWith (heads : BTreeMap String ObjectId) : GcRepo where
  clone :=
    { store := ⟨∅⟩
      refs := ⟨heads, ∅, "main"⟩
      promisor := none
      blobLimitFile := false
      lazy := false
      mergeHead := none
      pickHead := none
      rebase := none
      sessions := []
      log := [] }
  mergeDecidedRoot := none
  pickDecidedRoot := none
  rebaseDecidedRoot := none
  transcripts := []
  drops := []
  pending := []
  signatures := []

def firstRepo : GcRepo := repoWith ((∅ : BTreeMap String ObjectId).insert "main" firstSnapshotId)

theorem first_kinded (R : Set ObjectId) : (view firstEnv firstDir firstHandle).KindedOn R := by
  intro a _ o ho r b hb o' ho'
  obtain ⟨-, rfl⟩ | ⟨-, rfl⟩ := first_get (view_get ho)
  · exact absurd hb (by simp [firstTree, Object.links])
  · rw [show firstSnapshot.links = [(Role.tree, firstTreeId)] by rfl, List.mem_singleton] at hb
    cases hb
    obtain ⟨-, rfl⟩ | ⟨h, -⟩ := first_get (view_get ho')
    · rfl
    · exact absurd h (by decide)

theorem gc_spares_needed_first :
    Spares firstEnv firstDir (Needed (view firstEnv firstDir firstHandle) (firstRepo.trim 0))
      (finished (run firstEnv 9 100 10 0 firstRepo (opened firstDir firstHandle))).1
      (finished (run firstEnv 9 100 10 0 firstRepo (opened firstDir firstHandle))).2 :=
  gc_spares_needed firstEnv_lawful firstDir_sound firstHandle_sound first_packable 9 100 10 0
    firstRepo (fun _ _ => first_kinded _) (fun _ _ _ _ _ _ =>
      ⟨fun old h => by simp [firstDir] at h, fun idx h => by simp [firstDir] at h⟩)

end SrcControl.Gc
