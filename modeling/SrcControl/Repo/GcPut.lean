import SrcControl.Repo.GcSafe
import SrcControl.Repo.GcSweep
import SrcControl.Core.ObjectsDirPut

/-!
# A `put` after a pass of `gc`

A pass forgets what it takes from the loose files, but dropping a pack takes nothing out of the
store's memory. So a later `put` through the same store is believed to be done already for an
object that was read before the pass and whose only copies were in packs that the pass dropped.
-/

namespace SrcControl.Gc

open CrashTrace ObjectsDir

section

variable {env : Env} {content : ObjectId → Object} {d : Dir} {h : Handle} {id : ObjectId}

/-- What a pass that began on `d` and `h` has left in memory of one object. -/
structure Remembers (d : Dir) (h : Handle) (id : ObjectId) (s : Machine Dir Handle) : Prop where
  old : id ∈ s.handle.resident → id ∈ h.resident
  swept : copies d id ≠ (none, none) → copies s.disk id = (none, none) →
    id ∉ s.handle.resident
  unlisted : copies d id = (none, none) → copies s.disk id = (none, none) ∧
    (id ∈ h.resident → id ∈ s.handle.resident)

/-- Only the loose files of the object and the objects in memory count. -/
theorem Remembers.congr {s t : Machine Dir Handle} (hs : Remembers d h id s)
    (hcopies : copies t.disk id = copies s.disk id)
    (hresident : t.handle.resident = s.handle.resident) : Remembers d h id t := by
  refine ⟨?_, ?_, ?_⟩
  · rw [hresident]
    exact hs.old
  · rw [hcopies, hresident]
    exact hs.swept
  · rw [hcopies, hresident]
    exact hs.unlisted

theorem call_remembers {f : Dir → Dir} (hf : ∀ d', copies (f d') id = copies d' id) :
    Meets (Remembers d h id) (call env.fates failure f : DirM Unit)
      (fun _ => Remembers d h id) Anyhow :=
  Meets.call (fun s hs => hs.congr (hf s.disk) rfl) (fun _ _ => trivial) (fun _ _ => trivial)

theorem reloadPacks_remembers :
    Meets (Remembers d h id) (reloadPacks env) (fun _ => Remembers d h id) Anyhow := by
  refine (call_remembers (f := fun d' => d') (fun _ => rfl)).bind (fun _ => ?_)
  refine Meets.bind (Q := fun _ => Remembers d h id)
    (Meets.modify (fun s hs => hs.congr rfl rfl)) (fun _ => ?_)
  refine Meets.get (fun s hs => ?_)
  refine Meets.bind (Q := fun _ => Remembers d h id)
    (Meets.orThrow (fun _ _ t ht => ht ▸ hs) (fun _ _ => trivial)) (fun _ => ?_)
  exact Meets.modify (fun t ht => ht.congr rfl rfl)

theorem writePack_remembers (ids : List ObjectId) :
    Meets (Remembers d h id) (writePack env ids) (fun _ => Remembers d h id) Anyhow := by
  unfold writePack
  refine Meets.get (fun s hs => ?_)
  refine Meets.bind (Q := fun _ => Remembers d h id)
    (Meets.orThrow (fun _ _ t ht => ht ▸ hs) (fun _ _ => trivial)) (fun _ => ?_)
  refine Meets.bind (Q := fun _ => Remembers d h id)
    (Meets.orThrow (fun _ _ _ ht => ht) (fun _ _ => trivial)) (fun files => ?_)
  refine Meets.ite (fun _ => fun _ _ => trivial) (fun _ => ?_)
  refine (call_remembers (f := putPack _ files.1) (fun _ => rfl)).bind (fun _ => ?_)
  refine (call_remembers (f := putIdx _ files.2) (fun _ => rfl)).bind (fun _ => ?_)
  exact reloadPacks_remembers.bind (fun _ => Meets.pure _ (fun _ h => h))

theorem deletePack_remembers (stem : String) :
    Meets (Remembers d h id) (deletePack env stem) (fun _ => Remembers d h id) Anyhow :=
  (call_remembers (f := removePack stem) (fun _ => rfl)).bind (fun _ =>
    (call_remembers (f := removeIdx stem) (fun _ => rfl)).bind (fun _ => reloadPacks_remembers))

/-- A file that is removed is forgotten. -/
theorem delete_remembers (x : ObjectId) (hx : copies d id = (none, none) → x ≠ id) :
    Meets (Remembers d h id) (delete env x) (fun _ => Remembers d h id) Anyhow := by
  -- the object itself is forgotten whether or not a file is left
  have hforget : ∀ t : Machine Dir Handle, Remembers d h id t ∨
      (x = id ∧ (id ∈ t.handle.resident → id ∈ h.resident)) →
        Remembers d h id { t with handle :=
          { t.handle with resident := t.handle.resident.erase x } } := by
    intro t ht
    by_cases hid : x = id
    · subst hid
      have hgone : x ∉ t.handle.resident.erase x := by
        rw [Std.ExtTreeMap.mem_erase]
        exact fun hm => hm.1 Std.ReflCmp.compare_self
      exact ⟨fun hm => absurd hm hgone, fun _ _ => hgone, fun hnone => absurd rfl (hx hnone)⟩
    · have hsame : id ∈ t.handle.resident.erase x ↔ id ∈ t.handle.resident := by
        rw [Std.ExtTreeMap.mem_erase]
        refine ⟨fun hm => hm.2, fun hm => ⟨fun heq => hid ?_, hm⟩⟩
        rwa [Std.LawfulEqOrd.compare_eq_iff_eq] at heq
      have ht' : Remembers d h id t := ht.elim (fun h => h) (fun h => absurd h.1 hid)
      refine ⟨fun hm => ht'.old (hsame.mp hm), fun hc hn hm => ht'.swept hc hn (hsame.mp hm),
        fun hnone => ⟨(ht'.unlisted hnone).1, fun hm => hsame.mpr ((ht'.unlisted hnone).2 hm)⟩⟩
  unfold delete
  refine Meets.get (fun s hs => ?_)
  refine Meets.ite (fun _ => ?_) (fun _ => ?_)
  · refine Meets.bind (Q := fun _ t => Remembers d h id t ∨
      (x = id ∧ (id ∈ t.handle.resident → id ∈ h.resident))) ?_
      (fun _ => Meets.modify hforget)
    refine Meets.call (fun t ht => ?_) (fun _ _ => trivial) (fun _ _ => trivial)
    subst ht
    by_cases hid : x = id
    · exact .inr ⟨hid, hs.old⟩
    · refine .inl (hs.congr ?_ rfl)
      change copies (removeLoose x _) id = _
      rw [copies_removeLoose, if_neg (Ne.symm hid)]
      rfl
  · refine Meets.modify (fun t ht => hforget t (.inl (ht ▸ hs)))

theorem sweepOne_remembers (now grace : Nat) (reachable : BTreeSet ObjectId) (stats : GcStats)
    (x : ObjectId) (hx : copies d id = (none, none) → x ≠ id) :
    Meets (Remembers d h id) (sweepOne env now grace reachable stats x)
      (fun _ => Remembers d h id) Anyhow := by
  unfold sweepOne
  refine Meets.ite (fun _ => ?_) (fun _ => ?_)
  · exact (delete_remembers x hx).bind (fun _ => Meets.pure _ (fun _ h => h))
  · have hmtime : Meets (Remembers d h id) (looseMtime env x) (fun _ => Remembers d h id)
        Anyhow := by
      unfold looseMtime
      refine Meets.get (fun s hs => ?_)
      cases existingLoose s.disk x with
      | none => exact Meets.pure none (fun t ht => ht ▸ hs)
      | some file =>
        exact ((call_remembers (f := fun d' => d') (fun _ => rfl)).bind
          (fun _ => Meets.pure (some file.mtime) (fun _ h => h))).weaken (fun t ht => ht ▸ hs)
          (fun _ _ h => h) (fun _ h => h)
    refine hmtime.bind (fun mtime => Meets.ite (fun _ => ?_) (fun _ => Meets.pure _ (fun _ h => h)))
    exact (delete_remembers x hx).bind (fun _ => Meets.pure _ (fun _ h => h))

theorem collect_remembers (now grace : Nat) (reachable : BTreeSet ObjectId) (stats : GcStats) :
    Meets (Remembers d h id) (collect env now grace reachable stats)
      (fun _ => Remembers d h id) Anyhow := by
  have hpack : Meets (Remembers d h id) (packMarked env reachable) (fun _ => Remembers d h id)
      Anyhow := by
    unfold packMarked
    refine Meets.ite (fun _ => Meets.pure none (fun _ h => h)) (fun _ => ?_)
    exact (writePack_remembers _).bind (fun name => Meets.pure (some name) (fun _ h => h))
  have hlist : Meets (Remembers d h id) (listLoose env) (fun listed s => Remembers d h id s ∧
      (copies d id = (none, none) → id ∉ listed)) Anyhow := by
    refine (call_remembers (f := fun d' => d') (fun _ => rfl)).bind
      (fun _ => Meets.get (fun s hs => Meets.pure _ (fun t ht => ⟨ht ▸ hs, fun hnone => ?_⟩)))
    rw [← List.count_eq_zero, count_ids, (hs.unlisted hnone).1]
    rfl
  unfold collect
  refine hpack.bind (fun keep => hlist.bind (fun listed => ?_))
  refine Meets.bind (Q := fun _ => Remembers d h id) ?_ (fun swept => ?_)
  · intro s hs
    refine Meets.foldlM (I := fun _ => Remembers d h id) (E := Anyhow) (fun b x hx => ?_) _ s hs.1
    exact sweepOne_remembers now grace reachable b x (fun hnone heq => hs.2 hnone (heq ▸ hx))
  · cases keep with
    | none => exact Meets.pure swept (fun _ h => h)
    | some keep =>
      refine Meets.get (fun s hs => ?_)
      refine (Meets.foldlM (I := fun _ => Remembers d h id) (fun b stem _ => ?_) swept).weaken
        (fun t ht => ht ▸ hs) (fun _ _ h => h) (fun _ h => h)
      unfold dropOne
      refine Meets.ite (fun _ => Meets.pure _ (fun _ h => h)) (fun _ => ?_)
      exact (deletePack_remembers stem).bind (fun _ => Meets.pure _ (fun _ h => h))

/-! ## The put -/

theorem hasCopy_of_copies (hcopies : copies d id ≠ (none, none)) : HasCopy d id := by
  cases hfile : existingLoose d id with
  | some file => exact held_of_existingLoose hfile
  | none =>
    obtain ⟨hsharded, hflat⟩ := Option.or_eq_none_iff.mp hfile
    exact absurd (Prod.ext hsharded hflat) hcopies

/-- What a `put` leaves on a disk that reads, whatever is in memory. -/
theorem put_stores (henv : env.Lawful) {policy : Policy} (now : Nat) {o : Object}
    (hcontent : content (o.id env.hash) = o) (hpackable : Packable env (o.id env.hash) o)
    {s : Machine Dir Handle} (hs : ObjectsDir.Sound env content s.disk) :
    Meets (fun t => t = s) (put env policy now o)
      (fun id t => id = o.id env.hash ∧ ObjectsDir.Sound env content t.disk ∧
        (HasCopy t.disk id ↔ HasCopy s.disk id ∨ id ∉ s.handle.resident)) Anyhow := by
  unfold put
  refine Meets.get (fun s' hs' => ?_)
  subst hs'
  refine Meets.ite (fun hresident => Meets.pure _ (fun t ht => ?_)) (fun hnot => ?_)
  · subst ht
    have hmem := Std.ExtTreeMap.contains_iff_mem.mp hresident
    exact ⟨rfl, hs, .inl, fun h => h.resolve_right (fun hn => hn hmem)⟩
  refine Meets.ite (fun hloose => Meets.pure _ (fun t ht => ?_)) (fun _ => ?_)
  · subst ht
    obtain ⟨file, hfile⟩ := Option.isSome_iff_exists.mp hloose
    exact ⟨rfl, hs, .inl, fun _ => held_of_existingLoose hfile⟩
  · have habsent : o.id env.hash ∉ s'.handle.resident :=
      fun hmem => hnot (Std.ExtTreeMap.contains_iff_mem.mpr hmem)
    have hwrite := @writeObjectFile_keeps env content henv
      (fun t => ObjectsDir.Sound env content t.disk) now (o.id env.hash) (by rwa [hcontent])
      (fun _ ht => ht) (fun _ ht => ht) (fun _ _ ht hfile => ht.putSharded hfile)
    rw [hcontent] at hwrite
    refine (hwrite.weaken (fun t (ht : t = s') => ht ▸ hs) (fun _ _ h => h)
      (fun _ _ => trivial)).bind
      (fun _ => ?_)
    refine Meets.bind (Q := fun _ t => ObjectsDir.Sound env content t.disk ∧
      HasCopy t.disk (o.id env.hash)) ?_ (fun _ => Meets.pure _ (fun t ht =>
        ⟨rfl, ht.1, fun _ => .inr habsent, fun _ => ht.2⟩))
    unfold hold
    refine Meets.get (fun t ht => ?_)
    refine Meets.bind (Q := fun _ t' => ObjectsDir.Sound env content t'.disk ∧
      HasCopy t'.disk (o.id env.hash)) (Meets.modify (fun t' ht' => ht' ▸ ht)) (fun _ => ?_)
    cases (policy.makeRoom t.calls t.handle.resident (o.id env.hash) o).2 with
    | some e => exact fun _ _ => trivial
    | none => exact Meets.modify (fun _ ht' => ht')

/-- After a pass that succeeded, a `put` stores its object unless the object is in memory and has
no copy. Only an object that was in memory before, and not as a loose file, is lost so. -/
theorem put_after_gc (henv : env.Lawful) (hd : ObjectsDir.Sound env content d)
    (hh : h.Sound env content d)
    (hpackable : ∀ id, get env d h id = .ok (content id) → Packable env id (content id))
    {fuel now grace : Nat} {cutoff : Int} {r : GcRepo}
    (hroom : ∀ reachable r', mark fuel cutoff r (view env d h) = .ok (reachable, r') →
      ∀ pack idx, Pack.buildPack env.z (encoded content reachable.toList) = .ok (pack, idx) →
        Room env content d pack)
    {out : GcStats × GcRepo} {s : Machine Dir Handle}
    (hrun : run env fuel now grace cutoff r (opened d h) = .ok out s) {policy : Policy}
    {now' : Nat} {o : Object} (hcontent : content (o.id env.hash) = o)
    (ho : Packable env (o.id env.hash) o) {s' : Machine Dir Handle}
    (hput : put env policy now' o s = .ok id s') :
    (readFresh env s'.disk id = .ok o ↔ HasCopy s.disk id ∨ id ∉ s.handle.resident) ∧
      (readFresh env s'.disk id ≠ .ok o → id ∈ h.resident ∧ copies d id = (none, none)) := by
  obtain ⟨marked, hmark, stats, hcollect⟩ := run_ok hrun
  have hsound : ObjectsDir.Sound env content s.disk :=
    ((run_kept henv hd hh hpackable fuel now grace cutoff r out.2 hmark
      (hroom marked out.2 hmark)).ok rfl hrun).1.now.sound
  obtain ⟨rfl, hstored, hiff⟩ := (put_stores henv now' hcontent ho hsound).ok rfl hput
  have hreads : readFresh env s'.disk (o.id env.hash) = .ok o ↔
      HasCopy s.disk (o.id env.hash) ∨ o.id env.hash ∉ s.handle.resident := by
    rw [hstored.readFresh_iff, hcontent, ← hiff]
    exact and_iff_left rfl
  refine ⟨hreads, fun hlost => ?_⟩
  have hstart : Remembers d h (o.id env.hash) (opened d h) :=
    ⟨fun hm => hm, fun hne heq => absurd heq hne, fun hnone => ⟨hnone, fun hm => hm⟩⟩
  have hs := (collect_remembers now grace marked stats).ok hstart hcollect
  rw [ne_eq, hreads, not_or, not_not] at hlost
  refine ⟨hs.old hlost.2, by_contra (fun hloose => ?_)⟩
  refine hs.swept hloose (by_contra (fun hleft => hlost.1 ?_)) hlost.2
  exact hasCopy_of_copies hleft

end

/-- In memory without a copy: nothing can have dropped one here but a pass before. -/
def staleHandle : Handle := ⟨(∅ : BTreeMap ObjectId Object).insert firstTreeId firstTree, ∅⟩

theorem stale_get {id : ObjectId} (h : get firstEnv emptyDir staleHandle id = .ok firstTree) :
    id = firstTreeId := by
  by_contra hid
  have hresident : staleHandle.resident[id]? = none := by
    rw [staleHandle, BTreeMap.getElem?_insert, if_neg (Ne.symm hid)]
    simp
  have hloose : existingLoose emptyDir id = none := by simp [existingLoose, emptyDir]
  have hindex : staleHandle.packIndex[id]? = none := by simp [staleHandle]
  simp only [ObjectsDir.get, hresident, readDisk, hloose, readPackObject, hindex] at h
  cases h

theorem put_after_gc_stale :
    ∃ out s id s', run firstEnv 9 100 10 0 (repoWith ∅) (opened emptyDir staleHandle) = .ok out s ∧
      put firstEnv roomy 101 firstTree s = .ok id s' ∧
      (readFresh firstEnv s'.disk id = .ok firstTree ↔
        HasCopy s.disk id ∨ id ∉ s.handle.resident) ∧
      (readFresh firstEnv s'.disk id ≠ .ok firstTree →
        id ∈ staleHandle.resident ∧ copies emptyDir id = (none, none)) := by
  have hboth : (finished ((run firstEnv 9 100 10 0 (repoWith ∅) >>= fun _ =>
      put firstEnv roomy 101 firstTree) (opened emptyDir staleHandle))).1 = true := by rfl
  cases hrun : (run firstEnv 9 100 10 0 (repoWith ∅) >>= fun _ =>
      put firstEnv roomy 101 firstTree) (opened emptyDir staleHandle) with
  | error e s' =>
    rw [hrun] at hboth
    cases hboth
  | ok id s' =>
    obtain ⟨out, s, hgc, hput⟩ := Fallible.state_bind_ok hrun
    have hresident : staleHandle.Sound firstEnv (fun _ => firstTree) emptyDir := by
      refine ⟨fun x o ho => ?_, fun x loc hloc => by simp [staleHandle] at hloc⟩
      rw [staleHandle, BTreeMap.getElem?_insert] at ho
      split_ifs at ho with hx
      · exact (Option.some.inj ho).symm
      · simp at ho
    refine ⟨out, s, id, s', hgc, hput, @put_after_gc firstEnv (fun _ => firstTree) emptyDir
      staleHandle id firstEnv_lawful (emptyDir_sound _) hresident (fun x hx => ?_) _ _ _ _ _
      (fun _ _ _ pack idx _ => ⟨fun old hpack => by simp [emptyDir] at hpack,
        fun idx hidx => by simp [emptyDir] at hidx⟩) _ _ hgc roomy 101 firstTree rfl
      firstTree_packable _ hput⟩
    rw [stale_get hx]
    exact firstTree_packable

end SrcControl.Gc
